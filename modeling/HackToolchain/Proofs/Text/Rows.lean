import HackToolchain.Text.Blank
import HackToolchain.Text.Lines
import Mathlib.Data.List.DropRight

/-!
# Rows and what counts on them

A text put together from lines, each ended by a newline, falls into the rows of its lines
(`rows_flatMap`), and a line without a break is one row. On a row, a comment is cut away and blanks
are trimmed; the lemmas say what is left of a row that starts or ends with a character that is no
blank and starts no comment.
-/

set_option autoImplicit false

namespace HackToolchain.Text

/-- What is said of all characters of a text is decided along the text. -/
instance decidableForallMem (s : List Char) (p : Char → Prop) [DecidablePred p] :
    Decidable (∀ c ∈ s, p c) := List.decidableBAll p s

/-! ## Rows of lines -/

/-- The rows of a line that a newline ends. -/
def rowsOf (line : List Char) : List (List Char) := rows (line ++ ['\n'])

/-- The rows of a text in front of a newline stay apart from the rows after it, and there is at
least one of them. -/
theorem foldr_rowsStep_append (x : List Char) (ls : List (List Char)) :
    (x.foldr rowsStep ([[]], some '\n')).1 ≠ [] ∧
      x.foldr rowsStep ([] :: ls, some '\n') =
        ((x.foldr rowsStep ([[]], some '\n')).1 ++ ls,
          (x.foldr rowsStep ([[]], some '\n')).2) := by
  induction x with
  | nil => simp
  | cons c x ih =>
    obtain ⟨hne, ih⟩ := ih
    simp only [List.foldr_cons, ih]
    generalize x.foldr rowsStep ([[]], some '\n') = s at hne
    obtain ⟨out, next⟩ := s
    cases out with
    | nil => exact absurd rfl hne
    | cons l out =>
      simp only [rowsStep]
      split
      · split <;> simp
      · simp

theorem rows_append_newline (x y : List Char) : rows (x ++ '\n' :: y) = rowsOf x ++ rows y := by
  have hbreak : isBreak '\n' = true := by decide
  have hnl : ¬('\n' = '\r') := by decide
  simp only [rowsOf, rows, List.foldr_append, List.foldr_cons, List.foldr_nil]
  generalize y.foldr rowsStep ([], none) = s
  simp only [rowsStep, hbreak, hnl, false_and, if_true, if_false]
  rw [(foldr_rowsStep_append x s.1).2]

/-- The rows of a text are the rows of its lines. -/
theorem rows_flatMap {α : Type} (f : α → List Char) (ls : List α) :
    rows (ls.flatMap fun l => f l ++ ['\n']) = ls.flatMap fun l => rowsOf (f l) := by
  induction ls with
  | nil => rfl
  | cons l ls ih =>
    rw [List.flatMap_cons, List.append_assoc, List.singleton_append, rows_append_newline, ih,
      List.flatMap_cons]

theorem rowsOf_of_no_break {line : List Char} (h : ∀ c ∈ line, isBreak c = false) :
    rowsOf line = [line] := by
  have hfold : ∃ next, (line ++ ['\n']).foldr rowsStep ([], none) = ([line], next) := by
    induction line with
    | nil => exact ⟨some '\n', by decide⟩
    | cons c line ih =>
      obtain ⟨next, ih⟩ := ih fun d hd => h d (List.mem_cons_of_mem _ hd)
      rw [List.cons_append, List.foldr_cons, ih]
      simp [rowsStep, h c List.mem_cons_self]
  obtain ⟨next, hfold⟩ := hfold
  rw [rowsOf, rows, hfold]

/-- A text without a break is one row, unless it is empty. -/
theorem rows_of_no_break {line : List Char} (h : ∀ c ∈ line, isBreak c = false) (hne : line ≠ []) :
    rows line = [line] := by
  have hfold : ∃ next, line.foldr rowsStep ([], none) = ([line], next) := by
    induction line with
    | nil => exact absurd rfl hne
    | cons c line ih =>
      rw [List.foldr_cons]
      cases line with
      | nil => exact ⟨some c, by simp [rowsStep, h c List.mem_cons_self]⟩
      | cons d line =>
        obtain ⟨next, ih⟩ := ih (fun e he => h e (List.mem_cons_of_mem _ he)) (List.cons_ne_nil _ _)
        rw [ih]
        exact ⟨some c, by simp [rowsStep, h c List.mem_cons_self]⟩
  obtain ⟨next, hfold⟩ := hfold
  rw [rows, hfold]

/-- No row has a break in it. -/
theorem isBreak_of_mem_rows {s row : List Char} (h : row ∈ rows s) {c : Char} (hc : c ∈ row) :
    isBreak c = false := by
  unfold rows at h
  induction s generalizing row c with
  | nil => cases h
  | cons b s ih =>
    rw [List.foldr_cons] at h
    generalize s.foldr rowsStep ([], none) = state at h ih
    obtain ⟨ls, next⟩ := state
    have hold {l : List Char} (hl : l ∈ ls) {d : Char} (hd : d ∈ l) : isBreak d = false := ih hl hd
    simp only [rowsStep] at h
    cases hb : isBreak b with
    | true =>
      rw [hb, if_pos rfl] at h
      split at h
      · exact hold h hc
      · rcases List.mem_cons.1 h with rfl | h
        · cases hc
        · exact hold h hc
    | false =>
      rw [hb, if_neg Bool.false_ne_true] at h
      -- A character that is no break goes to the front of the first row, or starts one.
      split at h
      · rw [List.mem_singleton.1 h, List.mem_singleton] at hc
        exact hc ▸ hb
      · rcases List.mem_cons.1 h with rfl | h
        · rcases List.mem_cons.1 hc with rfl | hc
          · exact hb
          · exact hold List.mem_cons_self hc
        · exact hold (List.mem_cons_of_mem _ h) hc

/-- The rows of a text that starts with a break start with an empty row. -/
theorem head?_foldr_rowsStep_of_isBreak {c : Char} (h : isBreak c = true) (s : List Char)
    (hs : s ≠ []) : ((c :: s).foldr rowsStep ([], none)).1.head? = some [] := by
  obtain ⟨d, s, rfl⟩ := List.exists_cons_of_ne_nil hs
  rw [List.foldr_cons, List.foldr_cons]
  generalize s.foldr rowsStep ([], none) = state
  obtain ⟨ls, next⟩ := state
  have hnl : isBreak '\n' = true ∧ ('\n' : Char) ≠ '\r' := by decide
  by_cases hd : c = '\r' ∧ d = '\n'
  · obtain ⟨rfl, rfl⟩ := hd
    simp [rowsStep, hnl.1, h]
  · have hnext : (rowsStep d (ls, next)).2 = some d := by
      simp only [rowsStep]
      split
      · split <;> rfl
      · split <;> rfl
    generalize rowsStep d (ls, next) = state at hnext
    obtain ⟨ls, _⟩ := state
    simp only at hnext
    subst hnext
    simp [rowsStep, h, hd]

/-- The first row of a line reaches up to the first break in it. -/
theorem head?_rowsOf {before : List Char} (hb : ∀ c ∈ before, isBreak c = false) {c : Char}
    (hc : isBreak c = true) (after : List Char) :
    (rowsOf (before ++ c :: after)).head? = some before := by
  unfold rowsOf rows
  induction before with
  | nil =>
    rw [List.nil_append, List.cons_append]
    exact head?_foldr_rowsStep_of_isBreak hc _ (by simp)
  | cons d before ih =>
    rw [List.cons_append, List.cons_append, List.foldr_cons]
    replace ih := ih fun e he => hb e (List.mem_cons_of_mem _ he)
    generalize (before ++ c :: after ++ ['\n']).foldr rowsStep ([], none) = state at ih ⊢
    obtain ⟨ls, next⟩ := state
    cases ls with
    | nil => simp at ih
    | cons l ls =>
      simp only [List.head?_cons, Option.some.injEq] at ih
      simp [rowsStep, hb d List.mem_cons_self, ih]

theorem isBlank_of_isBreak {c : Char} (h : isBreak c = true) : isBlank c = true := by
  simp only [isBreak, Bool.or_eq_true, Bool.and_eq_true, decide_eq_true_eq, beq_iff_eq] at h
  simp only [isBlank, Bool.or_eq_true, Bool.and_eq_true, decide_eq_true_eq, beq_iff_eq]
  omega

theorem isBreak_of_not_isBlank {c : Char} (h : isBlank c = false) : isBreak c = false := by
  cases hb : isBreak c with
  | false => rfl
  | true => rw [isBlank_of_isBreak hb] at h; exact h

/-! ## Comments -/

theorem uncomment_cons_of_ne {c : Char} (h : c ≠ '/') (s : List Char) :
    uncomment (c :: s) = c :: uncomment s := by
  rw [uncomment_cons, if_neg fun hc => h hc.1]

theorem uncomment_slashes (s : List Char) : uncomment ('/' :: '/' :: s) = [] := by
  rw [uncomment_cons, if_pos ⟨rfl, rfl⟩]

/-- No comment begins in front of the first slash. -/
theorem uncomment_append {s : List Char} (h : '/' ∉ s) (t : List Char) :
    uncomment (s ++ t) = s ++ uncomment t := by
  induction s with
  | nil => rfl
  | cons c s ih =>
    rw [List.mem_cons, not_or] at h
    rw [List.cons_append, uncomment_cons_of_ne (Ne.symm h.1), ih h.2, List.cons_append]

theorem uncomment_eq_self {s : List Char} (h : '/' ∉ s) : uncomment s = s := by
  have := uncomment_append h []
  rwa [List.append_nil, uncomment_nil, List.append_nil] at this

/-- A last character other than the slash goes with a comment, or stays if there is none. -/
theorem uncomment_append_singleton (s : List Char) {c : Char} (h : c ≠ '/') :
    uncomment (s ++ [c]) = uncomment s ∨
      (uncomment s = s ∧ uncomment (s ++ [c]) = s ++ [c]) := by
  induction s with
  | nil => exact .inr ⟨rfl, uncomment_cons_of_ne h []⟩
  | cons b s ih =>
    -- The last character is no slash, so whether a comment begins at `b` is seen in `s`.
    have hhead : b = '/' ∧ (s ++ [c]).head? = some '/' ↔ b = '/' ∧ s.head? = some '/' := by
      cases s with
      | nil => simp [h]
      | cons d s => simp
    rw [List.cons_append, uncomment_cons, uncomment_cons]
    by_cases hb : b = '/' ∧ s.head? = some '/'
    · rw [if_pos (hhead.2 hb), if_pos hb]
      exact .inl rfl
    · rw [if_neg (fun hn => hb (hhead.1 hn)), if_neg hb]
      rcases ih with ih | ⟨ih, ih'⟩
      · exact .inl (by rw [ih])
      · exact .inr ⟨by rw [ih], by rw [ih']⟩

theorem uncomment_uncomment (s : List Char) : uncomment (uncomment s) = uncomment s := by
  induction s with
  | nil => rfl
  | cons c s ih =>
    rw [uncomment_cons]
    split
    · rfl
    · next h =>
      rw [uncomment_cons, ih, if_neg]
      rintro ⟨rfl, hhead⟩
      refine h ⟨rfl, ?_⟩
      cases s with
      | nil => simp [uncomment] at hhead
      | cons d s =>
        rw [uncomment_cons] at hhead
        split at hhead
        · simp at hhead
        · simpa using hhead

/-- A text without a comment does not start with two slashes, and has none further on. -/
theorem of_uncomment_cons {c : Char} {s : List Char} (h : uncomment (c :: s) = c :: s) :
    ¬(c = '/' ∧ s.head? = some '/') ∧ uncomment s = s := by
  rw [uncomment_cons] at h
  split at h
  · simp at h
  · next hc => exact ⟨hc, (List.cons.inj h).2⟩

/-- No comment begins at the end of a text that has none, if the next character is no slash. -/
theorem uncomment_append_cons {s : List Char} (h : uncomment s = s) {c : Char} (hc : c ≠ '/')
    (t : List Char) : uncomment (s ++ c :: t) = s ++ uncomment (c :: t) := by
  induction s with
  | nil => rfl
  | cons b s ih =>
    obtain ⟨hne, hrest⟩ := of_uncomment_cons h
    rw [List.cons_append, uncomment_cons, if_neg, ih hrest, List.cons_append]
    rintro ⟨rfl, hhead⟩
    cases s with
    | nil => exact hc (by simpa using hhead)
    | cons d s => exact hne ⟨rfl, hhead⟩

theorem uncomment_concat {s : List Char} {c : Char} (h : uncomment s = s) (hc : c ≠ '/') :
    uncomment (s ++ [c]) = s ++ [c] := by
  rw [uncomment_append_cons h hc, uncomment_cons_of_ne hc, uncomment_nil]

theorem uncomment_of_infix {s t : List Char} (h : s <:+: t) (ht : uncomment t = t) :
    uncomment s = s := by
  have hsuffix (pre u : List Char) (hu : uncomment (pre ++ u) = pre ++ u) : uncomment u = u := by
    induction pre with
    | nil => exact hu
    | cons c pre ih => exact ih (of_uncomment_cons hu).2
  have hprefix (u post : List Char) (hu : uncomment (u ++ post) = u ++ post) : uncomment u = u := by
    induction u with
    | nil => rfl
    | cons c u ih =>
      obtain ⟨hne, hrest⟩ := of_uncomment_cons hu
      rw [uncomment_cons, if_neg, ih hrest]
      rintro ⟨rfl, hhead⟩
      refine hne ⟨rfl, ?_⟩
      cases u with
      | nil => simp at hhead
      | cons d u => exact hhead
  -- What stands in a text is the beginning of an end of it.
  obtain ⟨pre, post, rfl⟩ := h
  rw [List.append_assoc] at ht
  exact hprefix s post (hsuffix pre (s ++ post) ht)

/-! ## Trimming -/

/-- A first character that is no blank shields the rest from being trimmed on the left. -/
theorem trimRight_cons {c : Char} (h : isBlank c = false) (s : List Char) :
    trimRight (c :: s) = c :: trimRight s := by
  rw [trimRight, trimRight, List.reverse_cons, List.dropWhile_append]
  split
  · next hs => simp [List.isEmpty_iff.1 hs, List.dropWhile, h]
  · simp

theorem trim_cons {c : Char} (h : isBlank c = false) (s : List Char) :
    trim (c :: s) = c :: trimRight s := by
  rw [trim, trimLeft, List.dropWhile_cons_of_neg (by simp [h]), trimRight_cons h]

theorem trimRight_append_singleton (s : List Char) {c : Char} (h : isBlank c = false) :
    trimRight (s ++ [c]) = s ++ [c] := by
  simp [trimRight, h]

theorem trim_eq_self {s : List Char} (h : ∀ c ∈ s, isBlank c = false) : trim s = s := by
  have hrev (t : List Char) (ht : ∀ c ∈ t, isBlank c = false) : t.dropWhile isBlank = t := by
    cases t with
    | nil => rfl
    | cons c t => exact List.dropWhile_cons_of_neg (by simp [ht c List.mem_cons_self])
  rw [trim, trimLeft, hrev s h, trimRight, hrev s.reverse (fun c hc => h c (List.mem_reverse.1 hc)),
    List.reverse_reverse]

theorem mem_of_mem_trimRight {c : Char} {s : List Char} (h : c ∈ trimRight s) : c ∈ s :=
  List.mem_reverse.1 ((List.dropWhile_sublist _).mem (List.mem_reverse.1 h))

theorem mem_trim {c : Char} {s : List Char} (h : c ∈ s) (hc : isBlank c = false) : c ∈ trim s := by
  have hdrop (t : List Char) (ht : c ∈ t) : c ∈ t.dropWhile isBlank := by
    rw [← List.takeWhile_append_dropWhile (p := isBlank) (l := t), List.mem_append] at ht
    refine ht.resolve_left fun hmem => ?_
    rw [List.mem_takeWhile_imp hmem] at hc
    exact absurd hc (by decide)
  exact List.mem_reverse.2 (hdrop _ (List.mem_reverse.2 (hdrop s h)))

theorem trim_trimRight (s : List Char) : trim (trimRight s) = trim s := by
  induction s with
  | nil => rfl
  | cons c s ih =>
    cases hc : isBlank c with
    | false =>
      rw [trimRight_cons hc, trim_cons hc, trim_cons hc]
      congr 1
      simp only [trimRight, List.reverse_reverse]
      rw [List.dropWhile_idempotent]
    | true =>
      have hskip (t : List Char) : trim (c :: t) = trim t := by
        rw [trim, trimLeft, List.dropWhile_cons_of_pos hc, trim, trimLeft]
      rw [hskip, ← ih]
      by_cases hs : trimRight s = []
      · have : trimRight (c :: s) = [] := by
          rw [trimRight, List.reverse_eq_nil_iff] at hs
          rw [trimRight, List.reverse_cons, List.dropWhile_append, hs]
          simp [List.dropWhile, hc]
        rw [this, hs]
      · have : trimRight (c :: s) = c :: trimRight s := by
          rw [trimRight, List.reverse_eq_nil_iff] at hs
          rw [trimRight, trimRight, List.reverse_cons, List.dropWhile_append]
          simp [hs]
        rw [this, hskip]

end HackToolchain.Text
