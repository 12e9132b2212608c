import HackToolchain.Proofs.Asm.Mnemonics
import HackToolchain.Proofs.Text.Contents

/-!
# The grammar of assembly

What an assembly source may say, as a grammar of what is left of a row without its comment and the
blanks around the rest (`Form`): the definition of a label, a load of a number or of a symbol, or an
instruction that computes. The assembler reads exactly the sources of this grammar, each statement
for what it says, and complains of the first row that is not of it (`readSource_exact`).
-/

set_option autoImplicit false

namespace HackToolchain.Asm

open Text Machine

/-! ## Forms -/

/-- A word names a destination: registers, at least one, in any order and none of them twice. -/
structure NamesDestination (word : List Char) (t : Destination) : Prop where
  ne_nil : word ≠ []
  letters : ∀ c ∈ word, c ∈ ['A', 'D', 'M']
  nodup : word.Nodup
  parts : t = { a := 'A' ∈ word, d := 'D' ∈ word, m := 'M' ∈ word }

/-- The parts of a spelling are in the tables. The destination and the jump need not be there. -/
structure Spelling.Means (s : Spelling) (i : Action) : Prop where
  destination :
    (s.destination = none ∧ i.destination = {}) ∨
      ∃ word, s.destination = some word ∧ NamesDestination word.toList i.destination
  computation :
    s.computation = i.computation.name ∨ i.computation.otherName? = some s.computation
  jump : s.jump = i.jump.map Jump.name

/-- The grammar of what a row says, with the statements. -/
inductive Form : List Char → Statement → Prop where
  | label {before name after : List Char} (hbefore : AllBlank before) (hafter : AllBlank after)
      (hname : isSymbol name = true) :
      Form ('(' :: (before ++ name ++ after ++ [')'])) (.label (String.ofList name))
  | constant {before digits : List Char} (hbefore : AllBlank before)
      (hdigits : Decimal.isNumeral digits = true) (hvalue : Decimal.value digits ≤ 32767) :
      Form ('@' :: (before ++ digits)) (.load (String.ofList digits))
  | symbol {before name : List Char} (hbefore : AllBlank before) (hname : isSymbol name = true) :
      Form ('@' :: (before ++ name)) (.load (String.ofList name))
  | compute {text : List Char} {spelling : Spelling} {action : Action}
      (hchars : (text.filter fun c => !isBlank c) = spelling.chars)
      (hmeans : spelling.Means action) :
      Form text (.compute spelling action)

/-- A row is of the grammar: it says nothing, or a statement. -/
def InGrammar (row : List Char) : Prop := content row = [] ∨ ∃ s, Form (content row) s

/-- A numeral that a row loads is short enough to be read. -/
def LoadsShort (row : List Char) : Prop :=
  ∀ before digits, content row = '@' :: (before ++ digits) → AllBlank before →
    Decimal.isNumeral digits = true → digits.length ≤ 4300

/-! ## Destinations -/

theorem mem_letters {t : Destination} {c : Char} :
    c ∈ t.letters ↔ (c = 'A' ∧ t.a = true) ∨ (c = 'D' ∧ t.d = true) ∨ (c = 'M' ∧ t.m = true) := by
  obtain ⟨a, d, m⟩ := t
  cases a <;> cases d <;> cases m <;> simp [Destination.letters]

/-- The registers together with one more. -/
def withLetter (t : Destination) (c : Char) : Destination where
  a := t.a || c == 'A'
  d := t.d || c == 'D'
  m := t.m || c == 'M'

theorem mem_letters_withLetter {t : Destination} {c d : Char} (hc : c ∈ ['A', 'D', 'M']) :
    d ∈ (withLetter t c).letters ↔ d = c ∨ d ∈ t.letters := by
  rw [mem_letters, mem_letters]
  simp only [withLetter, Bool.or_eq_true, beq_iff_eq]
  simp only [List.mem_cons, List.not_mem_nil, or_false] at hc
  rcases hc with rfl | rfl | rfl
  · by_cases hd : d = 'A' <;> simp [hd]
  · by_cases hd : d = 'D' <;> simp [hd]
  · by_cases hd : d = 'M' <;> simp [hd]

/-- A register is added if it is one and is not there yet. -/
theorem insert?_eq_some {t u : Destination} {c : Char} :
    t.insert? c = some u ↔ (c ∈ ['A', 'D', 'M'] ∧ c ∉ t.letters) ∧ u = withLetter t c := by
  obtain ⟨a, d, m⟩ := t
  unfold Destination.insert? withLetter
  rw [mem_letters]
  split
  · cases a <;> simp [eq_comm]
  · cases d <;> simp [eq_comm]
  · cases m <;> simp [eq_comm]
  · next hA hD hM =>
    simp only [reduceCtorEq, List.mem_cons, List.not_mem_nil, or_false, false_iff]
    rintro ⟨⟨rfl | rfl | rfl, -⟩, -⟩
    · exact hA rfl
    · exact hD rfl
    · exact hM rfl

/-- Letters are taken for a destination if they are registers, none of them is there yet and none
comes twice. -/
theorem isSome_insertAll? {letters : List Char} {t : Destination} :
    (∃ u, t.insertAll? letters = some u) ↔
      letters.Nodup ∧ ∀ c ∈ letters, c ∈ ['A', 'D', 'M'] ∧ c ∉ t.letters := by
  induction letters generalizing t with
  | nil => simp [Destination.insertAll?]
  | cons c letters ih =>
    simp only [Destination.insertAll?, Option.bind_eq_some_iff, insert?_eq_some]
    constructor
    · rintro ⟨u, t', ⟨⟨hc, hct⟩, rfl⟩, hu⟩
      obtain ⟨hnodup, hall⟩ := ih.1 ⟨u, hu⟩
      have hmem (d : Char) (hd : d ∈ letters) : d ≠ c ∧ d ∉ t.letters := by
        have := (hall d hd).2
        rw [mem_letters_withLetter hc] at this
        exact not_or.1 this
      refine ⟨List.nodup_cons.2 ⟨fun h => (hmem c h).1 rfl, hnodup⟩, fun d hd => ?_⟩
      rcases List.mem_cons.1 hd with rfl | hd
      · exact ⟨hc, hct⟩
      · exact ⟨(hall d hd).1, (hmem d hd).2⟩
    · rintro ⟨hnodup, hall⟩
      obtain ⟨hc, hct⟩ := hall c List.mem_cons_self
      obtain ⟨hnotin, hnodup⟩ := List.nodup_cons.1 hnodup
      have hrest : ∀ d ∈ letters, d ∈ ['A', 'D', 'M'] ∧ d ∉ (withLetter t c).letters := by
        intro d hd
        rw [mem_letters_withLetter hc, not_or]
        obtain ⟨hd', hdt⟩ := hall d (List.mem_cons_of_mem _ hd)
        exact ⟨hd', fun h => hnotin (h ▸ hd), hdt⟩
      obtain ⟨u, hu⟩ := ih.2 ⟨hnodup, hrest⟩
      exact ⟨u, _, ⟨⟨hc, hct⟩, rfl⟩, hu⟩

/-- A word is read as the destination that it names. -/
theorem ofName?_eq_some {word : String} {t : Destination} :
    Destination.ofName? word = some t ↔ NamesDestination word.toList t := by
  have hof : word.toList ≠ [] →
      Destination.ofName? word = Destination.insertAll? {} word.toList := by
    intro hne
    unfold Destination.ofName?
    split
    · next h => exact absurd h hne
    · rfl
  have hparts {u : Destination} (hu : Destination.insertAll? {} word.toList = some u) :
      u = { a := 'A' ∈ word.toList, d := 'D' ∈ word.toList, m := 'M' ∈ word.toList } := by
    obtain ⟨ha, hd, hm⟩ := Spelling.of_insertAll? hu
    simp only [Bool.false_eq_true, false_or] at ha hd hm
    obtain ⟨a, d, m⟩ := u
    simp only [Destination.mk.injEq]
    simp only at ha hd hm
    exact ⟨by simp [← ha], by simp [← hd], by simp [← hm]⟩
  constructor
  · intro h
    have hne : word.toList ≠ [] := by
      intro hnil
      simp [Destination.ofName?, hnil] at h
    rw [hof hne] at h
    obtain ⟨hnodup, hall⟩ := isSome_insertAll?.1 ⟨t, h⟩
    exact ⟨hne, fun c hc => (hall c hc).1, hnodup, hparts h⟩
  · intro h
    have hnone : ∀ c : Char, c ∉ ({} : Destination).letters := by simp [Destination.letters]
    obtain ⟨u, hu⟩ :=
      isSome_insertAll?.2 ⟨h.nodup, fun c hc => ⟨h.letters c hc, hnone c⟩⟩
    rw [hof h.ne_nil, hu, hparts hu, h.parts]

/-! ## Spellings -/

theorem computation_otherName {c : Computation} {word : String} (h : c.otherName? = some word) :
    IsPart word.toList ∧ Computation.ofName? word = some c := by
  cases c with
  | zero | one | minusOne | d | notD | negD | decD => simp [Computation.otherName?] at h
  | y o | notY o | negY o | decY o | dMinusY o | yMinusD o => simp [Computation.otherName?] at h
  | incD =>
    obtain rfl := Option.some.inj h
    decide
  | incY o | add o | and o | or o =>
    obtain rfl := Option.some.inj h
    cases o <;> decide

theorem readComputation_eq_ok {word : String} {c : Computation} :
    readComputation word = .ok c ↔ word = c.name ∨ c.otherName? = some word := by
  have hread : readComputation word = .ok c ↔ Computation.ofName? word = some c := by
    unfold readComputation
    split
    · next h => simp [h]
    · next h => simp [h]
  rw [hread]
  constructor
  · intro h
    have hname := List.find?_some h
    rw [Bool.or_eq_true, decide_eq_true_eq, decide_eq_true_eq] at hname
    exact hname.imp_left Eq.symm
  · rintro (rfl | h)
    · exact (computation_name c).2.2
    · exact (computation_otherName h).2

theorem readJump_eq_ok {word : Option String} {j : Option Jump} :
    readJump word = .ok j ↔ word = j.map Jump.name := by
  cases word with
  | none => cases j <;> simp [readJump]
  | some word =>
    simp only [readJump]
    cases hk : Jump.ofName? word with
    | none =>
      cases j with
      | none => simp
      | some j =>
        simp only [reduceCtorEq, Option.map_some, Option.some.injEq, false_iff]
        rintro rfl
        rw [(jump_name j).2] at hk
        cases hk
    | some k =>
      have hname := List.find?_some hk
      rw [decide_eq_true_eq] at hname
      subst hname
      cases j with
      | none => simp
      | some j =>
        simp only [Except.ok.injEq, Option.some.injEq, Option.map_some]
        refine ⟨fun h => h ▸ rfl, fun h => ?_⟩
        rw [h, (jump_name j).2] at hk
        exact (Option.some.inj hk).symm

theorem readDestination_eq_ok {word : Option String} {t : Destination} :
    readDestination word = .ok t ↔
      (word = none ∧ t = {}) ∨ ∃ w, word = some w ∧ NamesDestination w.toList t := by
  cases word with
  | none => simp [readDestination, eq_comm]
  | some w =>
    simp only [readDestination, ← ofName?_eq_some]
    cases hw : Destination.ofName? w <;> simp [hw]

/-- A spelling is read as what its parts mean. -/
theorem Spelling.read_eq_ok_iff {s : Spelling} {i : Action} : s.read = .ok i ↔ s.Means i := by
  constructor
  · intro h
    obtain ⟨hd, hc, hj⟩ := read_eq_ok h
    exact ⟨readDestination_eq_ok.1 hd, readComputation_eq_ok.1 hc, readJump_eq_ok.1 hj⟩
  · rintro ⟨hd, hc, hj⟩
    rw [Spelling.read, readDestination_eq_ok.2 hd, readComputation_eq_ok.2 hc,
      readJump_eq_ok.2 hj]
    rfl

namespace Spelling.Means

variable {s : Spelling} {i : Action} (h : s.Means i)
include h

/-- The parts of a spelling that means something have no marks. -/
theorem isPart :
    (∀ word ∈ s.destination, IsPart word.toList) ∧ IsPart s.computation.toList ∧
      ∀ word ∈ s.jump, IsPart word.toList := by
  refine ⟨?_, ?_, ?_⟩
  · intro word hword c hc
    rcases h.destination with ⟨hnone, -⟩ | ⟨word', hsome, hnames⟩
    · simp [hnone] at hword
    · rw [hsome, Option.mem_some] at hword
      subst hword
      have hall : ∀ c ∈ ['A', 'D', 'M'], c ∈ spellingChars := by decide
      exact hall c (hnames.letters c hc)
  · rcases h.computation with hname | hother
    · rw [hname]
      exact (computation_name i.computation).1
    · exact (computation_otherName hother).1
  · intro word hword
    rw [h.jump, Option.mem_def, Option.map_eq_some_iff] at hword
    obtain ⟨j, -, rfl⟩ := hword
    exact (jump_name j).1

theorem mem_chars {c : Char} (hc : c ∈ s.chars) : c ∈ spellingChars ++ ['=', ';'] := by
  obtain ⟨hd, hcomp, hj⟩ := h.isPart
  rw [Spelling.chars, List.mem_append, List.mem_append] at hc
  rw [List.mem_append]
  rcases hc with (hc | hc) | hc
  · cases hs : s.destination with
    | none => simp [hs] at hc
    | some word =>
      rw [hs, Option.elim_some, List.mem_append] at hc
      exact hc.imp (hd word hs c) (fun hc => by simp [List.mem_singleton.1 hc])
  · exact .inl (hcomp c hc)
  · cases hs : s.jump with
    | none => simp [hs] at hc
    | some word =>
      rw [hs, Option.elim_some, List.mem_cons] at hc
      exact hc.symm.imp (hj word hs c) (fun hc => by simp [hc])

/-- The marks tell the parts of a spelling that means something apart. -/
theorem ofChars_chars : Spelling.ofChars s.chars = s := by
  obtain ⟨hd, hcomp, hj⟩ := h.isPart
  have hmark {u : List Char} (hu : IsPart u) : '=' ∉ u ∧ ';' ∉ u :=
    ⟨fun h => absurd (hu _ h) (by decide), fun h => absurd (hu _ h) (by decide)⟩
  have hc := hmark hcomp
  obtain ⟨destination, computation, jump⟩ := s
  -- What stands behind the destination has no mark of a destination, and is cut at the jump.
  have hrest : '=' ∉ computation.toList ++ jump.elim [] fun word => ';' :: word.toList := by
    cases jump with
    | none => simpa using hc.1
    | some word => simpa using ⟨hc.1, (hmark (hj word rfl)).1⟩
  have hsplit :
      splitAtMark ';' (computation.toList ++ jump.elim [] fun word => ';' :: word.toList) =
        jump.map fun word => (computation.toList, word.toList) := by
    cases jump with
    | none => simpa using splitAtMark_of_not_mem hc.2
    | some word => simpa using splitAtMark_append hc.2 word.toList
  unfold Spelling.ofChars Spelling.chars
  simp only
  cases destination with
  | none =>
    rw [Option.elim_none, List.nil_append, splitAtMark_of_not_mem hrest]
    simp only [hsplit]
    cases jump with
    | none => simp
    | some word => simp
  | some word =>
    rw [Option.elim_some, List.append_assoc, List.append_assoc, List.singleton_append,
      splitAtMark_append (hmark (hd word rfl)).1]
    simp only [hsplit]
    cases jump with
    | none => simp
    | some word => simp

end Spelling.Means

/-! ## Statements -/

/-- A text that does not end with a blank is what is left of it behind blanks. -/
theorem exists_trim {s : List Char} (h : ∀ c ∈ s.getLast?, isBlank c = false) :
    ∃ before, AllBlank before ∧ s = before ++ trim s := by
  obtain ⟨before, hbefore, hs⟩ := exists_trimLeft s
  refine ⟨before, hbefore, ?_⟩
  rw [trim, trimRight_eq_self, ← hs]
  intro c hc
  refine h c ?_
  rw [hs, List.getLast?_append, Option.mem_def.1 hc]
  rfl

/-- What is read is of the grammar. -/
theorem form_of_ofChars {text : List Char} {s : Statement} (htrimmed : Trimmed text)
    (h : Statement.ofChars text = .ok s) : Form text s := by
  -- The last character of what follows the first is the last of the whole.
  have hlast {c : Char} {rest : List Char} (htext : text = c :: rest) :
      ∀ d ∈ rest.getLast?, isBlank d = false := by
    intro d hd
    refine htrimmed.last d ?_
    rw [htext, List.getLast?_cons, Option.mem_def.1 hd]
    rfl
  have hcases := h
  unfold Statement.ofChars at hcases
  split at hcases
  · next rest =>
    obtain ⟨hclosed, hname, rfl⟩ := ofChars_paren h
    obtain ⟨-, before, after, hbefore, hafter, hrest⟩ :=
      trim_eq_iff.1 (rfl : trim rest.dropLast = trim rest.dropLast)
    have hparen : rest = rest.dropLast ++ [')'] := by
      cases hr : rest.getLast? with
      | none =>
        rw [List.getLast?_eq_none_iff.1 hr] at hclosed
        exact absurd hclosed (by decide)
      | some d =>
        rw [List.getLast?_cons, hr] at hclosed
        obtain rfl : d = ')' := by simpa using hclosed
        exact (List.dropLast_append_getLast? _ hr).symm
    generalize trim rest.dropLast = name at hname hrest ⊢
    rw [hparen, hrest]
    exact .label hbefore hafter hname
  · next rest =>
    obtain ⟨rfl, hoperand⟩ := readOperand_eq_ok (ofChars_at h)
    obtain ⟨before, hbefore, hrest⟩ := exists_trim (hlast rfl)
    generalize trim rest = operand at hoperand hrest
    subst hrest
    rcases hoperand with ⟨hnumeral, hvalue⟩ | hsymbol
    · exact .constant hbefore hnumeral hvalue
    · exact .symbol hbefore hsymbol
  · simp only at hcases
    split at hcases
    · next action hread =>
      obtain rfl := Except.ok.inj hcases
      exact .compute (Spelling.chars_ofChars _).symm (Spelling.read_eq_ok_iff.1 hread)
    · cases hcases

theorem readOperand_of_isSymbol {name : List Char} (h : isSymbol name = true) :
    readOperand name = .ok (.load (String.ofList name)) := by
  have hne : name.isEmpty = false := by
    cases name with
    | nil => exact absurd h (by decide)
    | cons c name => rfl
  simp [readOperand, hne, isNumeral_of_isSymbol h, readSymbol, h]

theorem readOperand_of_isNumeral {digits : List Char} (h : Decimal.isNumeral digits = true)
    (hvalue : Decimal.value digits ≤ maxConstant) (hshort : digits.length ≤ Decimal.maxDigits) :
    readOperand digits = .ok (.load (String.ofList digits)) := by
  have hne : digits.isEmpty = false := by
    cases digits with
    | nil => exact absurd h (by decide)
    | cons c digits => rfl
  simp [readOperand, hne, h, Decimal.read, hshort, hvalue]

theorem not_isBlank_of_isDigit {c : Char} (h : Decimal.isDigit c = true) : isBlank c = false :=
  (isBlank_of_isSymbolRest (by rw [isSymbolRest, h, Bool.or_true])).1

theorem trimmed_of_isSymbol {name : List Char} (h : isSymbol name = true) : Trimmed name :=
  trimmed_of_not_isBlank (not_isBlank_of_isSymbol h)

theorem trimmed_of_isNumeral {digits : List Char} (h : Decimal.isNumeral digits = true) :
    Trimmed digits := by
  rw [Decimal.isNumeral, Bool.and_eq_true, List.all_eq_true] at h
  exact trimmed_of_not_isBlank fun c hc => not_isBlank_of_isDigit (h.2 c hc)

/-- What is of the grammar is read. -/
theorem ofChars_of_form {text : List Char} {s : Statement} (htrimmed : Trimmed text)
    (hshort : ∀ before digits, text = '@' :: (before ++ digits) → AllBlank before →
      Decimal.isNumeral digits = true → digits.length ≤ Decimal.maxDigits)
    (h : Form text s) : Statement.ofChars text = .ok s := by
  cases h with
  | @label before name after hbefore hafter hname =>
    have htrim : trim (before ++ name ++ after) = name :=
      trim_eq_iff.2 ⟨trimmed_of_isSymbol hname, before, after, hbefore, hafter, rfl⟩
    have hclosed : ('(' :: (before ++ name ++ after ++ [')'])).getLast? = some ')' := by
      rw [← List.cons_append, List.getLast?_append]
      rfl
    simp only [Statement.ofChars, hclosed, List.dropLast_concat, htrim, readSymbol, hname, if_true]
  | @constant before digits hbefore hdigits hvalue =>
    rw [Statement.ofChars, trim_append hbefore (trimmed_of_isNumeral hdigits)]
    exact readOperand_of_isNumeral hdigits hvalue (hshort before digits rfl hbefore hdigits)
  | @symbol before name hbefore hname =>
    rw [Statement.ofChars, trim_append hbefore (trimmed_of_isSymbol hname)]
    exact readOperand_of_isSymbol hname
  | @compute _ spelling action hchars hmeans =>
    -- The first character is in the spelling, and starts neither a definition nor a load.
    have hfirst {c : Char} {rest : List Char} (htext : text = c :: rest) :
        c ∈ spellingChars ++ ['=', ';'] := by
      refine hmeans.mem_chars ?_
      rw [← hchars, List.mem_filter, htext]
      exact ⟨List.mem_cons_self, by simp [htrimmed.first c (by rw [htext]; rfl)]⟩
    unfold Statement.ofChars
    split
    · exact absurd (hfirst rfl) (by decide)
    · exact absurd (hfirst rfl) (by decide)
    · simp only [hchars, hmeans.ofChars_chars, Spelling.read_eq_ok_iff.2 hmeans]

/-! ## Rows -/

/-- A statement is the only one that the grammar has for a row, which is given with its number, and
knows its place and the row. -/
structure StandsOn (file : String) (row : List Char × Nat) (s : LocatedStatement) : Prop where
  form : Form (content row.1) s.statement
  only : ∀ t, Form (content row.1) t → t = s.statement
  location : ∃ column, StartsAt row.1 column ∧ s.location = { file, line := row.2, column }
  sourceLine : s.sourceLine = String.ofList row.1

/-- An error is about the syntax of a row, which is given with its number, and knows its place and
the row. -/
structure ComplainsOf (file : String) (row : List Char × Nat) (e : Located Cause) : Prop where
  kind : e.cause.kind = .assemblySyntax
  location : ∃ column, StartsAt row.1 column ∧ e.location = some { file, line := row.2, column }
  sourceLine : e.sourceLine = some (String.ofList row.1)

/-- The rows that say something, with their numbers. -/
def saying (number : Nat) (lines : List (List Char)) : List (List Char × Nat) :=
  (lines.zipIdx number).filter fun row => content row.1 ≠ []

section Lines

variable {row : List Char} {lines : List (List Char)} (file : String) (number : Nat)

theorem readLine_of_content_eq_nil (h : content row = []) :
    readLine file number row = .ok none := by
  simp [readLine, h]

theorem readLine_of_form {s : Statement} (hshort : LoadsShort row) (hne : content row ≠ [])
    (h : Form (content row) s) :
    ∃ found, readLine file number row = .ok (some found) ∧ StandsOn file (row, number) found := by
  have hread {t : Statement} (ht : Form (content row) t) :=
    ofChars_of_form (trimmed_content row) hshort ht
  refine ⟨⟨s, { file, line := number, column := firstColumn row }, String.ofList row⟩, ?_,
    h, fun t ht => ?_, ⟨_, startsAt_of_content hne, rfl⟩, rfl⟩
  · have := hread h
    unfold readLine
    split
    · next hnil => exact absurd hnil hne
    · simp only [this]
  · have := (hread ht).symm.trans (hread h)
    exact Except.ok.inj this

theorem readLine_of_not_inGrammar (hshort : LoadsShort row) (h : ¬InGrammar row) :
    ∃ e, readLine file number row = .error (.rejected e) ∧ ComplainsOf file (row, number) e := by
  obtain ⟨hne, hform⟩ := not_or.1 h
  cases hs : Statement.ofChars (content row) with
  | ok s => exact absurd ⟨s, form_of_ofChars (trimmed_content row) hs⟩ hform
  | error f =>
    rcases fault_of_ofChars hs with ⟨c, rfl, hkind⟩ | ⟨rest, htext, hnumeral, hlong, -⟩
    · refine ⟨⟨c, some { file, line := number, column := firstColumn row }, String.ofList row⟩, ?_,
        hkind, ⟨_, startsAt_of_content hne, rfl⟩, rfl⟩
      unfold readLine
      split
      · next hnil => exact absurd hnil hne
      · simp only [hs]
        rfl
    · -- A row that loads a numeral is of the grammar or short.
      have hlast : ∀ c ∈ rest.getLast?, isBlank c = false := by
        intro c hc
        refine (trimmed_content row).last c ?_
        rw [htext, List.getLast?_cons, Option.mem_def.1 hc]
        rfl
      obtain ⟨before, hbefore, hrest⟩ := exists_trim hlast
      rw [hrest] at htext
      exact absurd (hshort before _ htext hbefore hnumeral) (Nat.not_le.2 hlong)

/-- Whether a row is of the grammar is found out by reading it. -/
theorem inGrammar_iff (hshort : LoadsShort row) : InGrammar row ↔ (readRow row).isSome := by
  unfold readRow
  constructor
  · intro h
    split
    · rfl
    · next hne =>
      obtain ⟨s, hs⟩ := h.resolve_left hne
      rw [ofChars_of_form (trimmed_content row) hshort hs]
      rfl
  · intro h
    split at h
    · next hnil => exact .inl hnil
    · split at h
      · next s hs => exact .inr ⟨s, form_of_ofChars (trimmed_content row) hs⟩
      · exact absurd h (by decide)

/-- A row with a numeral that is too long to be read is neither read nor complained of. -/
theorem ofChars_of_not_loadsShort (h : ¬LoadsShort row) :
    ∃ c text n, content row = c :: text ∧
      Statement.ofChars (c :: text) = .error (.number (.tooLongToRead n)) := by
  simp only [LoadsShort, not_forall] at h
  obtain ⟨before, digits, hcontent, hbefore, hdigits, hlong⟩ := h
  have htrim : trim (before ++ digits) = digits :=
    trim_append hbefore (trimmed_of_isNumeral hdigits)
  have hne : digits.isEmpty = false := by
    cases digits with
    | nil => exact absurd hdigits (by decide)
    | cons c digits => rfl
  have hread : Decimal.read digits = .error (.tooLongToRead digits.length) := if_neg hlong
  refine ⟨_, _, digits.length, hcontent, ?_⟩
  simp [Statement.ofChars, htrim, readOperand, hne, hdigits, hread]

/-- A row that is read has no numeral that is too long to be read. -/
theorem loadsShort_of_readRow (h : (readRow row).isSome) : LoadsShort row := by
  by_contra hlong
  obtain ⟨c, text, n, hcontent, hchars⟩ := ofChars_of_not_loadsShort hlong
  simp [readRow, hcontent, hchars] at h

/-- A row with a numeral that is too long to be read ends the reading, and that is no complaint. -/
theorem readLine_of_not_loadsShort (h : ¬LoadsShort row) :
    ∃ f, readLine file number row = .error (.number f) := by
  obtain ⟨c, text, n, hcontent, hchars⟩ := ofChars_of_not_loadsShort h
  exact ⟨.tooLongToRead n, by simp only [readLine, hcontent, hchars]⟩

theorem saying_cons : saying number (row :: lines) =
    (if content row = [] then [] else [(row, number)]) ++ saying (number + 1) lines := by
  unfold saying
  rw [List.zipIdx_cons, List.filter_cons]
  by_cases h : content row = []
  · simp [h]
  · simp [h]

/-- Rows of the grammar are read one after the other, whatever stands behind them. -/
theorem readLines_of_inGrammar (hshort : ∀ row ∈ lines, LoadsShort row)
    (h : ∀ row ∈ lines, InGrammar row) (out : Array LocatedStatement) :
    ∃ found, List.Forall₂ (StandsOn file) (saying number lines) found ∧
      ∀ after, readLines file number out (lines ++ after) =
        readLines file (number + lines.length) (out ++ found.toArray) after := by
  induction lines generalizing number out with
  | nil => exact ⟨[], .nil, fun after => by simp⟩
  | cons row lines ih =>
    have ih (out : Array LocatedStatement) := ih (number + 1)
      (fun r hr => hshort r (List.mem_cons_of_mem _ hr))
      (fun r hr => h r (List.mem_cons_of_mem _ hr)) out
    rw [saying_cons]
    by_cases hc : content row = []
    · obtain ⟨found, hfound, hread⟩ := ih out
      refine ⟨found, by simpa [hc] using hfound, fun after => ?_⟩
      rw [List.cons_append, readLines, readLine_of_content_eq_nil file number hc]
      simp only
      rw [hread, List.length_cons, Nat.add_assoc, Nat.add_comm 1]
    · obtain ⟨s, hs⟩ := (h row List.mem_cons_self).resolve_left hc
      obtain ⟨first, hfirst, hstands⟩ :=
        readLine_of_form file number (hshort row List.mem_cons_self) hc hs
      obtain ⟨found, hfound, hread⟩ := ih (out.push first)
      refine ⟨first :: found, by simpa [hc] using ⟨hstands, hfound⟩, fun after => ?_⟩
      rw [List.cons_append, readLines, hfirst]
      simp only
      rw [hread, List.length_cons, Nat.add_assoc, Nat.add_comm 1]
      simp

end Lines

/-! ## Sources -/

theorem readSource_of_inGrammar {source : String} (file : String)
    (hshort : ∀ row ∈ rows source.toList, LoadsShort row)
    (h : ∀ row ∈ rows source.toList, InGrammar row) :
    ∃ statements, readSource source file = .ok statements ∧
      List.Forall₂ (StandsOn file) (saying 1 (rows source.toList)) statements := by
  obtain ⟨found, hfound, hread⟩ := readLines_of_inGrammar file 1 hshort h #[]
  refine ⟨found, ?_, hfound⟩
  have := hread []
  rw [List.append_nil] at this
  simp [readSource, this, readLines, Except.map]

theorem readSource_of_not_inGrammar {source : String} (file : String)
    (hshort : ∀ row ∈ rows source.toList, LoadsShort row) {before after : List (List Char)}
    {row : List Char} (hrows : rows source.toList = before ++ row :: after)
    (hbefore : ∀ r ∈ before, InGrammar r) (hrow : ¬InGrammar row) :
    ∃ e, readSource source file = .error (.rejected e) ∧
      ComplainsOf file (row, before.length + 1) e := by
  rw [hrows] at hshort
  obtain ⟨found, -, hread⟩ := readLines_of_inGrammar file 1
    (fun r hr => hshort r (List.mem_append_left _ hr)) hbefore #[]
  obtain ⟨e, he, hcomplains⟩ := readLine_of_not_inGrammar file (before.length + 1)
    (hshort row (List.mem_append_right _ List.mem_cons_self)) hrow
  refine ⟨e, ?_, hcomplains⟩
  rw [readSource, hrows, hread, Nat.add_comm, readLines, he]
  rfl

/-- The assembler accepts exactly its grammar. A source in which no numeral that is loaded is too
long to be read is accepted if and only if every row of it is of the grammar. Then the statements
are those of the rows that say something, in order, each the only one that the grammar has for its
row. Otherwise the first row that is not of the grammar is complained of. -/
theorem readSource_exact (source file : String)
    (hshort : ∀ row ∈ rows source.toList, LoadsShort row) :
    ((∃ statements, readSource source file = .ok statements) ↔
        ∀ row ∈ rows source.toList, InGrammar row) ∧
      (∀ statements, readSource source file = .ok statements →
        List.Forall₂ (StandsOn file) (saying 1 (rows source.toList)) statements) ∧
      ∀ before row after, rows source.toList = before ++ row :: after →
        (∀ r ∈ before, InGrammar r) → ¬InGrammar row →
        ∃ e, readSource source file = .error (.rejected e) ∧
          ComplainsOf file (row, before.length + 1) e := by
  have hrejected {before after : List (List Char)} {row : List Char}
      (hrows : rows source.toList = before ++ row :: after)
      (hbefore : ∀ r ∈ before, InGrammar r) (hrow : ¬InGrammar row) :=
    readSource_of_not_inGrammar file hshort hrows hbefore hrow
  have hall {statements : List LocatedStatement} (h : readSource source file = .ok statements) :
      ∀ row ∈ rows source.toList, InGrammar row := by
    rcases forall_or_exists_first InGrammar (rows source.toList) with
      hall | ⟨before, row, after, hrows, hbefore, hrow⟩
    · exact hall
    · obtain ⟨e, he, -⟩ := hrejected hrows hbefore hrow
      rw [h] at he
      cases he
  refine ⟨⟨fun ⟨statements, h⟩ => hall h, fun h => ?_⟩, fun statements h => ?_,
    fun before row after hrows hbefore hrow => hrejected hrows hbefore hrow⟩
  · obtain ⟨statements, hs, -⟩ := readSource_of_inGrammar file hshort h
    exact ⟨statements, hs⟩
  · obtain ⟨statements', hs, hstand⟩ := readSource_of_inGrammar file hshort (hall h)
    rw [h] at hs
    exact Except.ok.inj hs ▸ hstand

theorem loadsShort_of_length {row : List Char} (h : (content row).length ≤ 4300) :
    LoadsShort row := by
  intro before digits hcontent _ _
  rw [hcontent, List.length_cons, List.length_append] at h
  omega

/-- A source whose fifth row has the sign that loads twice. -/
def brokenSource : String := "( LOOP )\n// a number\n@ 0021\nM A = M + D ; JLT\n  @@1 // no\n0;JMP"

theorem readSource_exact_brokenSource :
    (∀ row ∈ rows brokenSource.toList, LoadsShort row) ∧
      ∃ e, readSource brokenSource "a.asm" = .error (.rejected e) ∧
        ComplainsOf "a.asm" ("  @@1 // no".toList, 5) e := by
  have hrows : rows brokenSource.toList =
      ["( LOOP )".toList, "// a number".toList, "@ 0021".toList, "M A = M + D ; JLT".toList] ++
        "  @@1 // no".toList :: ["0;JMP".toList] := by
    decide +kernel
  have hlength : ∀ row ∈ rows brokenSource.toList, (content row).length ≤ 4300 := by decide +kernel
  have hshort : ∀ row ∈ rows brokenSource.toList, LoadsShort row :=
    fun row hrow => loadsShort_of_length (hlength row hrow)
  refine ⟨hshort, (readSource_exact brokenSource "a.asm" hshort).2.2 _ _ _ hrows ?_ ?_⟩
  · intro row hrow
    have hsaid : ∀ row ∈ ["( LOOP )".toList, "// a number".toList, "@ 0021".toList,
        "M A = M + D ; JLT".toList], (readRow row).isSome := by
      decide +kernel
    exact (inGrammar_iff (hshort row (hrows ▸ List.mem_append_left _ hrow))).2 (hsaid row hrow)
  · rw [inGrammar_iff (hshort _ (hrows ▸ List.mem_append_right _ List.mem_cons_self))]
    decide +kernel

end HackToolchain.Asm
