import HackToolchain.Proofs.Asm.Reading

/-!
# Spelled instructions

An instruction that computes is read back from its spelling (`readRow_render`): the spelling has no
blanks and no comment, its marks tell its parts apart, and each part is found in its table.
-/

set_option autoImplicit false

namespace HackToolchain.Asm

open Text Machine

/-! ## Marks -/

/-- A text is taken apart at the first mark in it. -/
theorem splitAtMark_append {mark : Char} {before : List Char} (h : mark ∉ before)
    (after : List Char) :
    splitAtMark mark (before ++ mark :: after) = some (before, after) := by
  have hne : ∀ c ∈ before, (c != mark) = true := fun c hc => by
    simp only [bne_iff_ne]
    exact fun he => h (he ▸ hc)
  rw [splitAtMark, List.dropWhile_append_of_pos hne, List.takeWhile_append_of_pos hne,
    List.dropWhile_cons_of_neg (by simp), List.takeWhile_cons_of_neg (by simp), List.append_nil]

theorem splitAtMark_of_not_mem {mark : Char} {s : List Char} (h : mark ∉ s) :
    splitAtMark mark s = none := by
  have hdrop : s.dropWhile (· != mark) = [] := by
    rw [List.dropWhile_eq_nil_iff]
    intro c hc
    simp only [bne_iff_ne]
    exact fun he => h (he ▸ hc)
  rw [splitAtMark, hdrop]

/-! ## Parts -/

/-- The characters in the spelling of an instruction, but for the marks. -/
def spellingChars : List Char := "ADM01-+!&|JGTEQLNP".toList

/-- A text is made of the characters of spellings. -/
def IsPart (s : List Char) : Prop := ∀ c ∈ s, c ∈ spellingChars

instance (s : List Char) : Decidable (IsPart s) :=
  inferInstanceAs (Decidable (∀ c ∈ s, c ∈ spellingChars))

theorem computation_name (c : Computation) :
    IsPart c.name.toList ∧ c.name.toList ≠ [] ∧ Computation.ofName? c.name = some c := by
  cases c with
  | zero | one | minusOne | d | notD | negD | incD | decD => decide
  | y o | notY o | negY o | incY o | decY o | add o | dMinusY o | yMinusD o | and o | or o =>
    cases o <;> decide

theorem jump_name (j : Jump) : IsPart j.name.toList ∧ Jump.ofName? j.name = some j := by
  cases j <;> decide

theorem destination_letters (t : Destination) :
    IsPart t.letters ∧
      readDestination
        (if t.letters = [] then none else some (String.ofList t.letters)) = .ok t := by
  obtain ⟨a, d, m⟩ := t
  cases a <;> cases d <;> cases m <;> decide

/-! ## Whole spellings -/

/-- The destination of an instruction as it is written, with its mark. -/
def destinationText (t : Destination) : List Char :=
  if t.letters = [] then [] else t.letters ++ ['=']

/-- The jump of an instruction as it is written, with its mark. -/
def jumpText : Option Jump → List Char
  | none => []
  | some j => ';' :: j.name.toList

/-- The parts of an instruction as they are written. -/
def spellingOf (i : Action) : Spelling where
  destination :=
    if i.destination.letters = [] then none else some (String.ofList i.destination.letters)
  computation := i.computation.name
  jump := i.jump.map Jump.name

theorem toList_render (i : Action) :
    i.render.toList =
      destinationText i.destination ++ (i.computation.name.toList ++ jumpText i.jump) := by
  unfold Action.render destinationText jumpText
  simp only [String.toList_append, List.append_assoc]
  congr 1
  · cases i.destination.letters <;> simp
  · cases i.jump <;> simp

/-- The parts of an instruction mean the instruction. -/
theorem read_spellingOf (i : Action) : (spellingOf i).read = .ok i := by
  obtain ⟨destination, computation, jump⟩ := i
  have hd := (destination_letters destination).2
  have hc := (computation_name computation).2.2
  have hj : readJump (jump.map Jump.name) = .ok jump := by
    cases jump with
    | none => rfl
    | some j =>
      simp only [Option.map_some, readJump]
      rw [(jump_name j).2]
  simp only [Spelling.read, spellingOf, hd, readComputation, hc, hj]
  rfl

theorem spelling_ofChars_render (i : Action) : Spelling.ofChars i.render.toList = spellingOf i := by
  obtain ⟨destination, computation, jump⟩ := i
  have hmark {s : List Char} (hs : IsPart s) : '=' ∉ s ∧ ';' ∉ s :=
    ⟨fun h => absurd (hs _ h) (by decide), fun h => absurd (hs _ h) (by decide)⟩
  have hc := hmark (computation_name computation).1
  have hjump : '=' ∉ computation.name.toList ++ jumpText jump := by
    cases jump with
    | none => simpa [jumpText] using hc.1
    | some j => simpa [jumpText] using ⟨hc.1, (hmark (jump_name j).1).1⟩
  have hrest : splitAtMark ';' (computation.name.toList ++ jumpText jump) =
      jump.map fun j => (computation.name.toList, j.name.toList) := by
    cases jump with
    | none =>
      rw [jumpText, List.append_nil, splitAtMark_of_not_mem hc.2]
      rfl
    | some j =>
      rw [jumpText, splitAtMark_append hc.2]
      rfl
  rw [toList_render]
  unfold Spelling.ofChars destinationText spellingOf
  simp only
  by_cases hl : destination.letters = []
  · rw [if_pos hl, if_pos hl, List.nil_append, splitAtMark_of_not_mem hjump]
    simp only [hrest]
    cases jump with
    | none => simp [jumpText]
    | some j => simp
  · rw [if_neg hl, if_neg hl, List.append_assoc, List.singleton_append,
      splitAtMark_append (hmark (destination_letters destination).1).1]
    simp only [hrest]
    cases jump with
    | none => simp [jumpText]
    | some j => simp

theorem mem_render {i : Action} {c : Char} (h : c ∈ i.render.toList) :
    c ∈ spellingChars ++ ['=', ';'] := by
  rw [toList_render] at h
  simp only [List.mem_append] at h ⊢
  rcases h with h | h | h
  · unfold destinationText at h
    split at h
    · simp at h
    · rcases List.mem_append.1 h with h | h
      · exact .inl ((destination_letters i.destination).1 c h)
      · exact .inr (by simp_all)
  · exact .inl ((computation_name i.computation).1 c h)
  · unfold jumpText at h
    split at h
    · simp at h
    · next j _ =>
      rcases List.mem_cons.1 h with rfl | h
      · exact .inr (by simp)
      · exact .inl ((jump_name j).1 c h)

/-- A spelling has no blanks, and none of the signs that start a comment, a label or a load. -/
theorem of_mem_render {i : Action} {c : Char} (h : c ∈ i.render.toList) :
    isBlank c = false ∧ c ≠ '/' ∧ c ≠ '(' ∧ c ≠ '@' := by
  have hall : ∀ c ∈ spellingChars ++ ['=', ';'],
      isBlank c = false ∧ c ≠ '/' ∧ c ≠ '(' ∧ c ≠ '@' := by decide
  exact hall c (mem_render h)

/-- A row with the spelling of an instruction says that instruction. -/
theorem readRow_render (i : Action) :
    readRow i.render.toList = some [.compute (spellingOf i) i] := by
  have hchar {c : Char} (h : c ∈ i.render.toList) :
      isBlank c = false ∧ c ≠ '/' ∧ c ≠ '(' ∧ c ≠ '@' := of_mem_render h
  have hblank : ∀ c ∈ i.render.toList, isBlank c = false := fun c h => (hchar h).1
  have hcontent : content i.render.toList = i.render.toList := by
    rw [content, uncomment_eq_self fun h => (hchar h).2.1 rfl, trim_eq_self hblank]
  have hfilter : (i.render.toList.filter fun c => !isBlank c) = i.render.toList :=
    List.filter_eq_self.2 fun c h => by simp [hblank c h]
  have hne : i.render.toList ≠ [] := by
    rw [toList_render]
    simp [(computation_name i.computation).2.1]
  have hread : Statement.ofChars i.render.toList = .ok (.compute (spellingOf i) i) := by
    unfold Statement.ofChars
    split
    · next rest h => exact absurd rfl (hchar (c := '(') (by rw [h]; exact List.mem_cons_self)).2.2.1
    · next rest h => exact absurd rfl (hchar (c := '@') (by rw [h]; exact List.mem_cons_self)).2.2.2
    · simp only [hfilter, spelling_ofChars_render, read_spellingOf]
  unfold readRow
  rw [hcontent]
  split
  · next h => exact absurd h hne
  · rw [hread]

theorem isBreak_of_mem_render {i : Action} {c : Char} (h : c ∈ i.render.toList) :
    isBreak c = false := by
  have hall : ∀ c ∈ spellingChars ++ ['=', ';'], isBreak c = false := by decide
  exact hall c (mem_render h)

end HackToolchain.Asm
