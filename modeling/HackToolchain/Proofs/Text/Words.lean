import HackToolchain.Proofs.Text.Rows

/-!
# Words

No stretch of a text is empty and none has a separating character, so that no word has a blank. Each
stands in the text as it is, so that no word on a line has a comment (`tight_of_mem_words`). Words
put together with separators between them have no other characters.
-/

set_option autoImplicit false

namespace HackToolchain.Text

theorem of_mem_stretches {separates : Char → Bool} {s w : List Char}
    (h : w ∈ stretches separates s) : w ≠ [] ∧ ∀ c ∈ w, separates c = false := by
  unfold stretches at h
  induction s generalizing w with
  | nil => simp at h
  | cons b s ih =>
    rw [List.foldr_cons] at h
    generalize s.foldr (stretchesStep separates) ([], false) = state at h ih
    obtain ⟨ws, joined⟩ := state
    simp only [stretchesStep] at h
    cases hb : separates b with
    | true =>
      simp only [hb, if_true] at h
      exact ih h
    | false =>
      simp only [hb, Bool.false_eq_true, if_false] at h
      split at h
      · next v rest =>
        rcases List.mem_cons.1 h with rfl | h
        · refine ⟨List.cons_ne_nil b v, fun c hc => ?_⟩
          rcases List.mem_cons.1 hc with rfl | hc
          · exact hb
          · exact (ih List.mem_cons_self).2 c hc
        · exact ih (List.mem_cons_of_mem _ h)
      · rcases List.mem_cons.1 h with rfl | h
        · simp [hb]
        · exact ih h

theorem of_mem_words {s w : List Char} (h : w ∈ words s) :
    w ≠ [] ∧ ∀ c ∈ w, isBlank c = false := of_mem_stretches h

/-- A text without a separating character is one stretch, which touches what stands in front. -/
theorem foldr_stretchesStep_eq {separates : Char → Bool} {s : List Char} (hne : s ≠ [])
    (h : ∀ c ∈ s, separates c = false) (ws : List (List Char)) :
    s.foldr (stretchesStep separates) (ws, false) = (s :: ws, true) := by
  induction s with
  | nil => exact absurd rfl hne
  | cons c s ih =>
    have hc := h c List.mem_cons_self
    cases s with
    | nil => simp [stretchesStep, hc]
    | cons d s =>
      rw [List.foldr_cons, ih (List.cons_ne_nil d s) fun e he => h e (List.mem_cons_of_mem _ he)]
      simp [stretchesStep, hc]

theorem stretches_eq_singleton {separates : Char → Bool} {s : List Char} (hne : s ≠ [])
    (h : ∀ c ∈ s, separates c = false) : stretches separates s = [s] := by
  rw [stretches, foldr_stretchesStep_eq hne h]

/-- A blank ends a word. -/
theorem words_append_cons {w : List Char} (hne : w ≠ []) (h : ∀ c ∈ w, isBlank c = false) {b : Char}
    (hb : isBlank b = true) (s : List Char) : words (w ++ b :: s) = w :: words s := by
  have hrest : (b :: s).foldr (stretchesStep isBlank) ([], false) = (words s, false) := by
    simp [stretchesStep, hb, words, stretches]
  rw [words, stretches, List.foldr_append, hrest, foldr_stretchesStep_eq hne h]

/-- The stretches of a text stand in it, and one that is not finished stands at its beginning. -/
theorem stretches_infix_aux {separates : Char → Bool} (s : List Char) :
    let state := s.foldr (stretchesStep separates) ([], false)
    (∀ w ∈ state.1, w <:+: s) ∧
      (state.2 = true → ∃ w rest, state.1 = w :: rest ∧ w <+: s) := by
  induction s with
  | nil => simp
  | cons b s ih =>
    simp only [List.foldr_cons]
    generalize s.foldr (stretchesStep separates) ([], false) = state at ih
    -- From the right: a character that does not separate goes to the front of the stretch that is
    -- not finished, or starts one.
    obtain ⟨ws, joined⟩ := state
    obtain ⟨hparts, hfirst⟩ := ih
    have hparts' : ∀ w ∈ ws, w <:+: b :: s := fun w hw =>
      (hparts w hw).trans (List.suffix_cons b s).isInfix
    cases hb : separates b with
    | true => simpa [stretchesStep, hb] using hparts'
    | false =>
      cases joined with
      | true =>
        obtain ⟨w, rest, rfl, hw⟩ := hfirst rfl
        have hbw : b :: w <+: b :: s := List.cons_prefix_cons.2 ⟨rfl, hw⟩
        simp only [stretchesStep, hb, Bool.false_eq_true, if_false]
        refine ⟨fun v hv => ?_, fun _ => ⟨_, _, rfl, hbw⟩⟩
        rcases List.mem_cons.1 hv with rfl | hv
        · exact hbw.isInfix
        · exact hparts' v (List.mem_cons_of_mem _ hv)
      | false =>
        have hbs : [b] <+: b :: s := List.cons_prefix_cons.2 ⟨rfl, List.nil_prefix⟩
        simp only [stretchesStep, hb, Bool.false_eq_true, if_false]
        refine ⟨fun v hv => ?_, fun _ => ⟨_, _, rfl, hbs⟩⟩
        rcases List.mem_cons.1 hv with rfl | hv
        · exact hbs.isInfix
        · exact hparts' v hv

/-- Words stand in their text. -/
theorem infix_of_mem_words {s w : List Char} (h : w ∈ words s) : w <:+: s :=
  (stretches_infix_aux s).1 w h

/-- A text that is left as it is on a line: it has no blank, and no comment. -/
structure Tight (s : List Char) : Prop where
  isBlank : ∀ c ∈ s, isBlank c = false
  uncomment : uncomment s = s

theorem tight_of_ne {s : List Char} (h : ∀ c ∈ s, Text.isBlank c = false ∧ c ≠ '/') : Tight s :=
  ⟨fun c hc => (h c hc).1, uncomment_eq_self fun hc => (h _ hc).2 rfl⟩

/-- Behind a text without blanks and slashes, a text that is left as it is is left as it is. -/
theorem Tight.append {s t : List Char} (hs : ∀ c ∈ s, Text.isBlank c = false ∧ c ≠ '/')
    (ht : Tight t) : Tight (s ++ t) := by
  refine ⟨fun c hc => ?_, ?_⟩
  · rcases List.mem_append.1 hc with hc | hc
    · exact (hs c hc).1
    · exact ht.isBlank c hc
  · rw [uncomment_append (fun hc => (hs _ hc).2 rfl), ht.uncomment]

/-- The words of what counts on a line have neither blanks nor comments. -/
theorem tight_of_mem_words {line w : List Char} (h : w ∈ words (content line)) : Tight w := by
  refine ⟨(of_mem_words h).2, ?_⟩
  have hcontent : content line <:+: Text.uncomment line := by
    rw [content, trim, trimRight, trimLeft]
    refine List.IsInfix.trans ?_ (List.dropWhile_suffix isBlank).isInfix
    rw [← List.reverse_infix, List.reverse_reverse]
    exact (List.dropWhile_suffix isBlank).isInfix
  exact uncomment_of_infix ((infix_of_mem_words h).trans hcontent) (uncomment_uncomment line)

theorem mem_intercalate {separator : String} {parts : List String} {c : Char}
    (h : c ∈ (separator.intercalate parts).toList) :
    c ∈ separator.toList ∨ ∃ part ∈ parts, c ∈ part.toList := by
  rw [String.toList_intercalate, List.intercalate, List.mem_flatten] at h
  obtain ⟨l, hl, hc⟩ := h
  suffices hmem : l = separator.toList ∨ l ∈ parts.map String.toList by
    rcases hmem with rfl | hmem
    · exact .inl hc
    · obtain ⟨part, hpart, rfl⟩ := List.mem_map.1 hmem
      exact .inr ⟨part, hpart, hc⟩
  clear hc
  generalize parts.map String.toList = ls at hl
  induction ls with
  | nil => simp at hl
  | cons a ls ih =>
    cases ls with
    | nil => simp_all
    | cons b ls =>
      rw [List.intersperse_cons_cons, List.mem_cons, List.mem_cons] at hl
      rcases hl with rfl | rfl | hl
      · exact .inr List.mem_cons_self
      · exact .inl rfl
      · exact (ih hl).imp_right (List.mem_cons_of_mem _)

/-! ## Words with a space between them -/

theorem intercalate_cons_cons (separator w v : List Char) (ws : List (List Char)) :
    separator.intercalate (w :: v :: ws) = w ++ (separator ++ separator.intercalate (v :: ws)) := by
  simp [List.intercalate]

/-- Words with a space between them are the words of what they make up. -/
theorem words_intercalate {ws : List (List Char)}
    (h : ∀ w ∈ ws, w ≠ [] ∧ ∀ c ∈ w, isBlank c = false) : words ([' '].intercalate ws) = ws := by
  induction ws with
  | nil => rfl
  | cons w ws ih =>
    obtain ⟨hne, hblank⟩ := h w List.mem_cons_self
    cases ws with
    | nil => simpa [List.intercalate, words] using stretches_eq_singleton hne hblank
    | cons v ws =>
      rw [intercalate_cons_cons, List.singleton_append, words_append_cons hne hblank (by decide),
        ih fun u hu => h u (List.mem_cons_of_mem _ hu)]

/-- Between words without comments no comment begins. -/
theorem uncomment_intercalate {ws : List (List Char)} (h : ∀ w ∈ ws, uncomment w = w) :
    uncomment ([' '].intercalate ws) = [' '].intercalate ws := by
  induction ws with
  | nil => rfl
  | cons w ws ih =>
    cases ws with
    | nil => simpa [List.intercalate] using h w List.mem_cons_self
    | cons v ws =>
      rw [intercalate_cons_cons, List.singleton_append,
        uncomment_append_cons (h w List.mem_cons_self) (by decide),
        uncomment_cons_of_ne (by decide), ih fun u hu => h u (List.mem_cons_of_mem _ hu)]

end HackToolchain.Text
