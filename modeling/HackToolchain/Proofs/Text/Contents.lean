import HackToolchain.Proofs.Text.Words

/-!
# What a line says

What counts on a line, told by how the line is put together: a line without a comment
(`uncomment_of_no_comment`) is what it says with blanks around it (`trim_eq_iff`). The blanks have
no part in its words, and its column is the place of its first character that is no blank
(`StartsAt`).
-/

set_option autoImplicit false

namespace HackToolchain.Text

/-! ## Blanks around a text -/

/-- A text has no characters but blanks. -/
def AllBlank (s : List Char) : Prop := ∀ c ∈ s, isBlank c = true

/-- A text neither starts nor ends with a blank. -/
structure Trimmed (s : List Char) : Prop where
  first : ∀ c ∈ s.head?, isBlank c = false
  last : ∀ c ∈ s.getLast?, isBlank c = false

theorem trimmed_of_not_isBlank {s : List Char} (h : ∀ c ∈ s, isBlank c = false) : Trimmed s :=
  ⟨fun c hc => h c (List.mem_of_head? hc), fun c hc => h c (List.mem_of_getLast? hc)⟩

theorem trimLeft_append {before : List Char} (h : AllBlank before) (s : List Char) :
    trimLeft (before ++ s) = trimLeft s :=
  List.dropWhile_append_of_pos h

theorem trimLeft_cons {c : Char} (h : isBlank c = false) (s : List Char) :
    trimLeft (c :: s) = c :: s :=
  List.dropWhile_cons_of_neg (by simp [h])

theorem isBlank_of_trimLeft {s rest : List Char} {c : Char} (h : trimLeft s = c :: rest) :
    isBlank c = false := by
  have := List.head?_dropWhile_not isBlank s
  rw [← trimLeft, h] at this
  exact this

theorem trimRight_append {after : List Char} (h : AllBlank after) (s : List Char) :
    trimRight (s ++ after) = trimRight s := by
  have hrev : ∀ c ∈ after.reverse, isBlank c = true := fun c hc => h c (List.mem_reverse.1 hc)
  rw [trimRight, trimRight, List.reverse_append, List.dropWhile_append_of_pos hrev]

theorem trimRight_eq_self {s : List Char} (h : ∀ c ∈ s.getLast?, isBlank c = false) :
    trimRight s = s := by
  refine List.rdropWhile_eq_self_iff.2 fun hne => ?_
  rw [h _ (List.getLast?_eq_getLast_of_ne_nil hne)]
  decide

theorem exists_trimLeft (s : List Char) : ∃ before, AllBlank before ∧ s = before ++ trimLeft s :=
  ⟨s.takeWhile isBlank, fun _ hc => List.mem_takeWhile_imp hc,
    List.takeWhile_append_dropWhile.symm⟩

theorem exists_trimRight (s : List Char) : ∃ after, AllBlank after ∧ s = trimRight s ++ after :=
  ⟨s.rtakeWhile isBlank, fun _ hc => List.mem_rtakeWhile_imp hc,
    (List.rdropWhile_append_rtakeWhile).symm⟩

theorem trimmed_trim (s : List Char) : Trimmed (trim s) := by
  -- What is trimmed on the right still starts like what was trimmed on the left.
  have hlast (u : List Char) : ∀ c ∈ (trimRight u).getLast?, isBlank c = false := by
    intro c hc
    have hne : trimRight u ≠ [] := by
      rintro hnil
      simp [hnil] at hc
    have := List.rdropWhile_last_not isBlank u hne
    rw [List.getLast?_eq_getLast_of_ne_nil hne] at hc
    obtain rfl := Option.some.inj hc
    exact Bool.eq_false_iff.2 this
  refine ⟨fun c hc => ?_, hlast _⟩
  rw [trim] at hc
  cases ht : trimLeft s with
  | nil => simp [ht, trimRight] at hc
  | cons d u =>
    have hd := isBlank_of_trimLeft ht
    rw [ht, trimRight_cons hd] at hc
    simp only [List.head?_cons, Option.mem_some] at hc
    exact hc ▸ hd

/-- What is left of a text is what stands between the blanks at its two ends. -/
theorem trim_eq_iff {s t : List Char} :
    trim s = t ↔
      Trimmed t ∧ ∃ before after, AllBlank before ∧ AllBlank after ∧ s = before ++ t ++ after := by
  constructor
  · rintro rfl
    obtain ⟨before, hbefore, hleft⟩ := exists_trimLeft s
    obtain ⟨after, hafter, hright⟩ := exists_trimRight (trimLeft s)
    refine ⟨trimmed_trim s, before, after, hbefore, hafter, ?_⟩
    rw [trim, List.append_assoc, ← hright, ← hleft]
  · rintro ⟨ht, before, after, hbefore, hafter, rfl⟩
    rw [List.append_assoc, trim, trimLeft_append hbefore]
    cases t with
    | nil =>
      have hnil : trimLeft after = [] := List.dropWhile_eq_nil_iff.2 hafter
      rw [List.nil_append, hnil]
      rfl
    | cons c t =>
      rw [List.cons_append, trimLeft_cons (ht.first c rfl), ← List.cons_append,
        trimRight_append hafter, trimRight_eq_self ht.last]

theorem trim_append {before text : List Char} (h : AllBlank before) (ht : Trimmed text) :
    trim (before ++ text) = text :=
  trim_eq_iff.2 ⟨ht, before, [], h, by simp [AllBlank], by simp⟩

theorem trimmed_content (line : List Char) : Trimmed (content line) := trimmed_trim _

/-! ## Comments -/

theorem uncomment_of_no_comment {line : List Char} (h : ¬['/', '/'] <:+: line) :
    uncomment line = line := by
  induction line with
  | nil => rfl
  | cons c line ih =>
    rw [uncomment_cons, ih fun hi => h (List.infix_cons hi), if_neg]
    rintro ⟨rfl, hhead⟩
    refine h ?_
    cases line with
    | nil => simp at hhead
    | cons d line =>
      obtain rfl : d = '/' := by simpa using hhead
      exact ⟨[], line, rfl⟩

theorem exists_uncomment (line : List Char) : ∃ comment, line = uncomment line ++ comment := by
  induction line with
  | nil => exact ⟨[], rfl⟩
  | cons c line ih =>
    obtain ⟨comment, hline⟩ := ih
    rw [uncomment_cons]
    split
    · exact ⟨c :: line, rfl⟩
    · exact ⟨comment, congrArg (c :: ·) hline⟩

/-! ## Words -/

theorem words_cons_of_isBlank {c : Char} (h : isBlank c = true) (s : List Char) :
    words (c :: s) = words s := by
  simp [words, stretches, stretchesStep, h]

theorem words_append_left {before : List Char} (h : AllBlank before) (s : List Char) :
    words (before ++ s) = words s := by
  induction before with
  | nil => rfl
  | cons c before ih =>
    rw [List.cons_append, words_cons_of_isBlank (h c List.mem_cons_self),
      ih fun d hd => h d (List.mem_cons_of_mem _ hd)]

theorem words_append_right {after : List Char} (h : AllBlank after) (s : List Char) :
    words (s ++ after) = words s := by
  have hstate : after.foldr (stretchesStep isBlank) ([], false) = ([], false) := by
    induction after with
    | nil => rfl
    | cons c after ih =>
      rw [List.foldr_cons, ih fun d hd => h d (List.mem_cons_of_mem _ hd)]
      simp [stretchesStep, h c List.mem_cons_self]
  rw [words, stretches, List.foldr_append, hstate]
  rfl

/-- The words of a text are the words between the blanks at its ends. -/
theorem words_trim (s : List Char) : words (trim s) = words s := by
  obtain ⟨-, before, after, hbefore, hafter, hs⟩ := trim_eq_iff.1 (rfl : trim s = trim s)
  conv_rhs => rw [hs]
  rw [words_append_right hafter, words_append_left hbefore]

theorem words_content (line : List Char) : words (content line) = words (uncomment line) :=
  words_trim _

/-- A character that is no blank belongs to a word. -/
theorem exists_words_cons {c : Char} (h : isBlank c = false) (s : List Char) :
    ∃ w ws, words (c :: s) = (c :: w) :: ws := by
  simp only [words, stretches, List.foldr_cons, stretchesStep, h, Bool.false_eq_true, if_false]
  split
  · exact ⟨_, _, rfl⟩
  · exact ⟨_, _, rfl⟩

theorem content_eq_nil_iff {line : List Char} :
    content line = [] ↔ words (uncomment line) = [] := by
  rw [← words_content]
  constructor
  · intro h
    rw [h, words_nil]
  · intro h
    cases hc : content line with
    | nil => rfl
    | cons c text =>
      have hfirst := (trimmed_content line).first c (by rw [hc]; rfl)
      obtain ⟨w, ws, hwords⟩ := exists_words_cons hfirst text
      rw [hc, hwords] at h
      cases h

/-! ## Columns -/

/-- The first character of a line that is no blank stands in a column, counted from one. -/
def StartsAt (line : List Char) (column : Int) : Prop :=
  ∃ before c after, line = before ++ c :: after ∧ AllBlank before ∧ isBlank c = false ∧
    column = before.length + 1

/-- Only one column is where a line starts. -/
theorem StartsAt.firstColumn_eq {line : List Char} {column : Int} (h : StartsAt line column) :
    firstColumn line = column := by
  obtain ⟨before, c, after, rfl, hbefore, hc, rfl⟩ := h
  rw [firstColumn, trimLeft_append hbefore, trimLeft_cons hc]
  simp

/-- A line that says something starts somewhere. -/
theorem startsAt_of_content {line : List Char} (h : content line ≠ []) :
    StartsAt line (firstColumn line) := by
  suffices hstarts : ∃ column, StartsAt line column by
    obtain ⟨column, hstarts⟩ := hstarts
    exact hstarts.firstColumn_eq ▸ hstarts
  obtain ⟨comment, hline⟩ := exists_uncomment line
  obtain ⟨before, hbefore, hleft⟩ := exists_trimLeft (uncomment line)
  cases ht : trimLeft (uncomment line) with
  | nil => exact absurd (by rw [content, trim, ht]; rfl) h
  | cons c text =>
    refine ⟨_, before, c, text ++ comment, ?_, hbefore, isBlank_of_trimLeft ht, rfl⟩
    rw [← List.cons_append, ← ht, ← List.append_assoc, ← hleft, ← hline]

/-! ## The first that fails -/

theorem forall_or_exists_first {α : Type} (p : α → Prop) (xs : List α) :
    (∀ x ∈ xs, p x) ∨
      ∃ before x after, xs = before ++ x :: after ∧ (∀ y ∈ before, p y) ∧ ¬p x := by
  induction xs with
  | nil => exact .inl (by simp)
  | cons x xs ih =>
    by_cases hx : p x
    · rcases ih with ih | ⟨before, y, after, rfl, hbefore, hy⟩
      · exact .inl (by simpa [hx] using ih)
      · exact .inr ⟨x :: before, y, after, rfl, by simpa [hx] using hbefore, hy⟩
    · exact .inr ⟨[], x, xs, rfl, by simp, hx⟩

end HackToolchain.Text
