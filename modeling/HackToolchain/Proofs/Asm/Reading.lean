import HackToolchain.Asm.Statement
import HackToolchain.Proofs.Text.Numerals
import HackToolchain.Proofs.Text.Rows

/-!
# Reading assembly

What the rows of a source say, without the places where they say it (`readRows`). A source is read
exactly when its rows are, and with the same statements (`readRows_of_readSource`,
`exists_readSource`). The names in the statements are symbols, or numerals where a number is loaded.
-/

set_option autoImplicit false

namespace HackToolchain.Asm

open Text Machine

/-! ## Rows without their places -/

/-- What a row says: a statement, or nothing if it is blank but for a comment. -/
def readRow (row : List Char) : Option (List Statement) :=
  match content row with
  | [] => some []
  | text =>
    match Statement.ofChars text with
    | .ok s => some [s]
    | .error _ => none

/-- What rows say. -/
def readRows : List (List Char) → Option (List Statement)
  | [] => some []
  | row :: rest => (readRow row).bind fun a => (readRows rest).map (a ++ ·)

theorem readRows_cons_eq_some {row : List Char} {rest : List (List Char)}
    {statements : List Statement} :
    readRows (row :: rest) = some statements ↔
      ∃ a b, readRow row = some a ∧ readRows rest = some b ∧ statements = a ++ b := by
  simp only [readRows, Option.bind_eq_some_iff, Option.map_eq_some_iff]
  exact ⟨fun ⟨a, ha, b, hb, h⟩ => ⟨a, b, ha, hb, h.symm⟩,
    fun ⟨a, b, ha, hb, h⟩ => ⟨a, ha, b, hb, h.symm⟩⟩

theorem readRows_append_eq_some {xs ys : List (List Char)} {statements : List Statement} :
    readRows (xs ++ ys) = some statements ↔
      ∃ a b, readRows xs = some a ∧ readRows ys = some b ∧ statements = a ++ b := by
  induction xs generalizing statements with
  | nil => simp [readRows]
  | cons row xs ih =>
    rw [List.cons_append, readRows_cons_eq_some]
    constructor
    · rintro ⟨a, b, ha, hb, rfl⟩
      obtain ⟨c, d, hc, hd, rfl⟩ := ih.1 hb
      exact ⟨a ++ c, d, readRows_cons_eq_some.2 ⟨a, c, ha, hc, rfl⟩, hd,
        (List.append_assoc a c d).symm⟩
    · rintro ⟨e, d, he, hd, rfl⟩
      obtain ⟨a, c, ha, hc, rfl⟩ := readRows_cons_eq_some.1 he
      exact ⟨a, c ++ d, ha, ih.2 ⟨c, d, hc, hd, rfl⟩, List.append_assoc a c d⟩

/-- The statements without their places. -/
def bare (statements : List LocatedStatement) : List Statement := statements.map (·.statement)

/-- A line is read exactly when its row is. -/
theorem isSome_readRow_of_mem {lines : List (List Char)} {statements : List Statement}
    (h : readRows lines = some statements) {row : List Char} (hrow : row ∈ lines) :
    (readRow row).isSome := by
  obtain ⟨xs, ys, rfl⟩ := List.append_of_mem hrow
  obtain ⟨_, b, _, hb, _⟩ := readRows_append_eq_some.1 h
  obtain ⟨a, _, ha, _, _⟩ := readRows_cons_eq_some.1 hb
  rw [ha]
  rfl

theorem readRow_of_readLine {file : String} {number : Nat} {line : List Char}
    {out : Option LocatedStatement} (h : readLine file number line = .ok out) :
    readRow line = some (bare out.toList) := by
  unfold readLine at h
  unfold readRow
  generalize content line = text at h
  cases text with
  | nil =>
    simp only [Except.ok.injEq] at h
    subst h
    rfl
  | cons c text =>
    simp only at h ⊢
    cases hs : Statement.ofChars (c :: text) with
    | ok s =>
      simp only [hs, Except.ok.injEq] at h
      subst h
      rfl
    | error f =>
      rw [hs] at h
      cases f <;> simp at h

theorem exists_readLine {line : List Char} {a : List Statement} (h : readRow line = some a)
    (file : String) (number : Nat) :
    ∃ out, readLine file number line = .ok out ∧ bare out.toList = a := by
  unfold readRow at h
  unfold readLine
  generalize content line = text at h ⊢
  cases text with
  | nil => exact ⟨none, rfl, by simpa [bare] using h⟩
  | cons c text =>
    simp only at h ⊢
    cases hs : Statement.ofChars (c :: text) with
    | ok s =>
      simp only [hs, Option.some.injEq] at h
      exact ⟨_, rfl, h⟩
    | error f => simp [hs] at h

theorem readRows_of_readLines {file : String} {number : Nat} {out result : Array LocatedStatement}
    {lines : List (List Char)} (h : readLines file number out lines = .ok result) :
    ∃ a, readRows lines = some a ∧ bare result.toList = bare out.toList ++ a := by
  induction lines generalizing number out with
  | nil =>
    simp only [readLines, Except.ok.injEq] at h
    subst h
    exact ⟨[], rfl, by simp⟩
  | cons line lines ih =>
    simp only [readLines] at h
    cases hl : readLine file number line with
    | error f => simp [hl] at h
    | ok found =>
      have hrow := readRow_of_readLine hl
      rw [hl] at h
      cases found with
      | none =>
        obtain ⟨b, hb, hr⟩ := ih h
        exact ⟨b, readRows_cons_eq_some.2 ⟨_, b, hrow, hb, rfl⟩, hr⟩
      | some s =>
        obtain ⟨b, hb, hr⟩ := ih h
        refine ⟨_, readRows_cons_eq_some.2 ⟨_, b, hrow, hb, rfl⟩, ?_⟩
        rw [hr]
        simp [bare]

theorem exists_readLines {lines : List (List Char)} {a : List Statement}
    (h : readRows lines = some a) (file : String) (number : Nat) (out : Array LocatedStatement) :
    ∃ result, readLines file number out lines = .ok result ∧
      bare result.toList = bare out.toList ++ a := by
  induction lines generalizing number out a with
  | nil =>
    simp only [readRows, Option.some.injEq] at h
    subst h
    exact ⟨out, rfl, by simp⟩
  | cons line lines ih =>
    obtain ⟨b, c, hb, hc, rfl⟩ := readRows_cons_eq_some.1 h
    obtain ⟨found, hfound, rfl⟩ := exists_readLine hb file number
    simp only [readLines, hfound]
    cases found with
    | none => simpa [bare] using ih hc (number + 1) out
    | some s =>
      obtain ⟨result, hr, hb⟩ := ih hc (number + 1) (out.push s)
      exact ⟨result, hr, by rw [hb]; simp [bare]⟩

theorem readRows_of_readSource {source file : String} {statements : List LocatedStatement}
    (h : readSource source file = .ok statements) :
    readRows (rows source.toList) = some (bare statements) := by
  unfold readSource at h
  cases hl : readLines file 1 #[] (rows source.toList) with
  | error f => simp [hl, Except.map] at h
  | ok result =>
    simp only [hl, Except.map, Except.ok.injEq] at h
    subst h
    obtain ⟨a, ha, hb⟩ := readRows_of_readLines hl
    rw [ha, hb]
    rfl

/-- A source whose rows say something is read. -/
theorem exists_readSource {source : String} {a : List Statement}
    (h : readRows (rows source.toList) = some a) (file : String) :
    ∃ statements, readSource source file = .ok statements ∧ bare statements = a := by
  obtain ⟨result, hr, hb⟩ := exists_readLines h file 1 #[]
  exact ⟨result.toList, by simp [readSource, hr, Except.map], by simpa [bare] using hb⟩

/-! ## Faults -/

/-- The fault is that a label is defined already. -/
def Fault.isDuplicate : Fault → Bool
  | .rejected e => e.cause.kind = .duplicateSymbol
  | .number _ => false

theorem kind_of_readSymbol {s : List Char} {c : Cause} (h : readSymbol s = .error c) :
    c.kind = .assemblySyntax := by
  unfold readSymbol at h
  split at h
  · simp at h
  · rw [← Except.error.inj h]
    rfl

theorem kind_of_read {s : Spelling} {c : Cause} (h : s.read = .error c) :
    c.kind = .assemblySyntax := by
  unfold Spelling.read at h
  cases hd : readDestination s.destination with
  | error e =>
    rw [hd] at h
    obtain rfl := Except.error.inj h
    unfold readDestination at hd
    split at hd
    · simp at hd
    · split at hd
      · simp at hd
      · rw [← Except.error.inj hd]
        rfl
  | ok d =>
    rw [hd] at h
    cases hc : readComputation s.computation with
    | error e =>
      rw [hc] at h
      obtain rfl := Except.error.inj h
      unfold readComputation at hc
      split at hc
      · simp at hc
      · rw [← Except.error.inj hc]
        rfl
    | ok k =>
      rw [hc] at h
      cases hj : readJump s.jump with
      | error e =>
        rw [hj] at h
        obtain rfl := Except.error.inj h
        unfold readJump at hj
        split at hj
        · simp at hj
        · split at hj
          · simp at hj
          · rw [← Except.error.inj hj]
            rfl
      | ok j =>
        rw [hj] at h
        simp [bind, Except.bind, pure, Except.pure] at h

/-- What is wrong with a text that is no statement is its syntax, or a numeral after the sign that
loads is too long to be read. -/
theorem fault_of_ofChars {s : List Char} {f : Fault} (h : Statement.ofChars s = .error f) :
    (∃ c : Cause, f = .rejected { cause := c } ∧ c.kind = .assemblySyntax) ∨
      ∃ rest, s = '@' :: rest ∧ Decimal.isNumeral (trim rest) = true ∧
        Decimal.maxDigits < (trim rest).length ∧
        f = .number (.tooLongToRead (trim rest).length) := by
  unfold Statement.ofChars at h
  split at h
  · refine .inl ?_
    split at h
    · cases hr : readSymbol (trim (List.dropLast _)) with
      | error c =>
        rw [hr] at h
        exact ⟨c, (Except.error.inj h).symm, kind_of_readSymbol hr⟩
      | ok name => simp [hr] at h
    · exact ⟨_, (Except.error.inj h).symm, rfl⟩
  · next rest =>
    unfold readOperand at h
    split at h
    · exact .inl ⟨_, (Except.error.inj h).symm, rfl⟩
    · split at h
      · next hn =>
        unfold Decimal.read at h
        by_cases hl : (trim rest).length ≤ Decimal.maxDigits
        · rw [if_pos hl] at h
          simp only at h
          split at h
          · simp at h
          · exact .inl ⟨_, (Except.error.inj h).symm, rfl⟩
        · rw [if_neg hl] at h
          exact .inr ⟨rest, rfl, hn, Nat.lt_of_not_le hl, (Except.error.inj h).symm⟩
      · split at h
        · simp at h
        · next c hr => exact .inl ⟨c, (Except.error.inj h).symm, kind_of_readSymbol hr⟩
  · simp only at h
    split at h
    · simp at h
    · next c hr => exact .inl ⟨c, (Except.error.inj h).symm, kind_of_read hr⟩

theorem isDuplicate_of_ofChars {s : List Char} {f : Fault} (h : Statement.ofChars s = .error f) :
    f.isDuplicate = false := by
  rcases fault_of_ofChars h with ⟨c, rfl, hc⟩ | ⟨rest, -, -, -, rfl⟩
  · rw [Fault.isDuplicate, hc]
    rfl
  · rfl

theorem isDuplicate_of_readLines {file : String} {number : Nat} {out : Array LocatedStatement}
    {lines : List (List Char)} {f : Fault} (h : readLines file number out lines = .error f) :
    f.isDuplicate = false := by
  induction lines generalizing number out with
  | nil => simp [readLines] at h
  | cons line lines ih =>
    simp only [readLines] at h
    cases hl : readLine file number line with
    | error e =>
      simp only [hl, Except.error.injEq] at h
      subst h
      unfold readLine at hl
      split at hl
      · simp at hl
      · simp only at hl
        split at hl
        · simp at hl
        · next g hg =>
          have hdup := isDuplicate_of_ofChars hg
          split at hl
          · rw [← Except.error.inj hl, Fault.isDuplicate, Located.cause_locate]
            exact hdup
          · rw [← Except.error.inj hl]
            rfl
    | ok found =>
      rw [hl] at h
      cases found with
      | none => exact ih h
      | some s => exact ih h

theorem isDuplicate_of_readSource {source file : String} {f : Fault}
    (h : readSource source file = .error f) : f.isDuplicate = false := by
  unfold readSource at h
  cases hl : readLines file 1 #[] (rows source.toList) with
  | error e =>
    simp only [hl, Except.map, Except.error.injEq] at h
    exact h ▸ isDuplicate_of_readLines hl
  | ok result => simp [hl, Except.map] at h

/-! ## Names -/

theorem toNat_of_isSymbolStart {c : Char} (h : isSymbolStart c = true) :
    c.toNat = 36 ∨ c.toNat = 46 ∨ c.toNat = 58 ∨ (65 ≤ c.toNat ∧ c.toNat ≤ 90) ∨ c.toNat = 95 ∨
      (97 ≤ c.toNat ∧ c.toNat ≤ 122) := by
  simp only [isSymbolStart, Bool.or_eq_true, Bool.and_eq_true, decide_eq_true_eq, beq_iff_eq] at h
  rcases h with ((((h | h) | rfl) | rfl) | rfl) | rfl
  · have h1 : 65 ≤ c.toNat := h.1
    have h2 : c.toNat ≤ 90 := h.2
    omega
  · have h1 : 97 ≤ c.toNat := h.1
    have h2 : c.toNat ≤ 122 := h.2
    omega
  all_goals decide

theorem toNat_of_isSymbolRest {c : Char} (h : isSymbolRest c = true) :
    c.toNat = 36 ∨ c.toNat = 46 ∨ (48 ≤ c.toNat ∧ c.toNat ≤ 58) ∨
      (65 ≤ c.toNat ∧ c.toNat ≤ 90) ∨ c.toNat = 95 ∨ (97 ≤ c.toNat ∧ c.toNat ≤ 122) := by
  rw [isSymbolRest, Bool.or_eq_true] at h
  rcases h with h | h
  · have := toNat_of_isSymbolStart h
    omega
  · have := Decimal.toNat_of_isDigit h
    omega

/-- The characters of a symbol are no blanks, no slashes and no parentheses. -/
theorem isBlank_of_isSymbolRest {c : Char} (h : isSymbolRest c = true) :
    isBlank c = false ∧ c ≠ '/' ∧ c ≠ ')' := by
  have hcode := toNat_of_isSymbolRest h
  refine ⟨?_, ?_, ?_⟩
  · simp only [isBlank, Bool.or_eq_false_iff, Bool.and_eq_false_iff, decide_eq_false_iff_not,
      beq_eq_false_iff_ne]
    omega
  · rintro rfl
    revert hcode
    decide
  · rintro rfl
    revert hcode
    decide

theorem isSymbolRest_of_mem {s : List Char} (h : isSymbol s = true) {c : Char} (hc : c ∈ s) :
    isSymbolRest c = true := by
  cases s with
  | nil => simp at hc
  | cons b s =>
    simp only [isSymbol, Bool.and_eq_true, List.all_eq_true] at h
    rcases List.mem_cons.1 hc with rfl | hc
    · rw [isSymbolRest, h.1, Bool.true_or]
    · exact h.2 c hc

theorem not_isBlank_of_isSymbol {s : List Char} (h : isSymbol s = true) :
    ∀ c ∈ s, isBlank c = false := by
  intro c hc
  exact (isBlank_of_isSymbolRest (isSymbolRest_of_mem h hc)).1

theorem isNumeral_of_isSymbol {s : List Char} (h : isSymbol s = true) :
    Decimal.isNumeral s = false := by
  cases s with
  | nil => rfl
  | cons c s =>
    simp only [isSymbol, Bool.and_eq_true] at h
    have hd : Decimal.isDigit c = false := by
      cases hd : Decimal.isDigit c with
      | false => rfl
      | true =>
        have hcode := toNat_of_isSymbolStart h.1
        have hdigit := Decimal.toNat_of_isDigit hd
        omega
    simp [Decimal.isNumeral, hd]

theorem readSymbol_eq_ok {s : List Char} {name : String} (h : readSymbol s = .ok name) :
    isSymbol s = true ∧ name = String.ofList s := by
  unfold readSymbol at h
  split at h
  · next hs => exact ⟨hs, (Except.ok.inj h).symm⟩
  · simp at h

/-- What is loaded is a number that one instruction can load, or a symbol. -/
theorem readOperand_eq_ok {s : List Char} {t : Statement} (h : readOperand s = .ok t) :
    t = .load (String.ofList s) ∧
      (Decimal.isNumeral s = true ∧ Decimal.value s ≤ maxConstant ∨ isSymbol s = true) := by
  unfold readOperand at h
  split at h
  · simp at h
  · split at h
    · next hn =>
      cases hr : Decimal.read s with
      | error f => simp [hr] at h
      | ok n =>
        have hvalue : Decimal.value s = n := by
          unfold Decimal.read at hr
          split at hr
          · exact Except.ok.inj hr
          · simp at hr
        simp only [hr] at h
        split at h
        · next hle => exact ⟨(Except.ok.inj h).symm, .inl ⟨hn, hvalue ▸ hle⟩⟩
        · simp at h
    · cases hr : readSymbol s with
      | error c => simp [hr] at h
      | ok name =>
        obtain ⟨hs, rfl⟩ := readSymbol_eq_ok hr
        simp only [hr, Except.ok.injEq] at h
        exact ⟨h.symm, .inr hs⟩

/-- A text that starts like the definition of a label is one, of a symbol. -/
theorem ofChars_paren {rest : List Char} {t : Statement}
    (h : Statement.ofChars ('(' :: rest) = .ok t) :
    ('(' :: rest).getLast? = some ')' ∧ isSymbol (trim rest.dropLast) = true ∧
      t = .label (String.ofList (trim rest.dropLast)) := by
  simp only [Statement.ofChars] at h
  split at h
  · next hl =>
    cases hr : readSymbol (trim rest.dropLast) with
    | error c => simp [hr] at h
    | ok name =>
      obtain ⟨hs, rfl⟩ := readSymbol_eq_ok hr
      simp only [hr, Except.ok.injEq] at h
      exact ⟨hl, hs, h.symm⟩
  · simp at h

theorem ofChars_at {rest : List Char} {t : Statement}
    (h : Statement.ofChars ('@' :: rest) = .ok t) : readOperand (trim rest) = .ok t := h

/-- What is read is told by how the text starts: a label, an operand or an instruction. -/
theorem ofChars_cases {s : List Char} {t : Statement} (h : Statement.ofChars s = .ok t) :
    (∃ rest, s = '(' :: rest ∧ s.getLast? = some ')' ∧ isSymbol (trim rest.dropLast) = true ∧
        t = .label (String.ofList (trim rest.dropLast))) ∨
      (∃ rest, s = '@' :: rest ∧ readOperand (trim rest) = .ok t) ∨
      ∃ spelling action, spelling.read = .ok action ∧ t = .compute spelling action := by
  have hcases := h
  unfold Statement.ofChars at hcases
  split at hcases
  · next rest =>
    obtain ⟨hlast, hsymbol, ht⟩ := ofChars_paren h
    exact .inl ⟨rest, rfl, hlast, hsymbol, ht⟩
  · next rest => exact .inr (.inl ⟨rest, rfl, ofChars_at h⟩)
  · simp only at hcases
    split at hcases
    · next action hread => exact .inr (.inr ⟨_, action, hread, (Except.ok.inj hcases).symm⟩)
    · simp at hcases

/-- The names in a statement are well formed, and its spelling is read as what it means. -/
def Statement.WellFormed : Statement → Prop
  | .label name => isSymbol name.toList = true
  | .load operand =>
    Decimal.isNumeral operand.toList = true ∧ Decimal.value operand.toList ≤ maxConstant ∨
      isSymbol operand.toList = true
  | .compute spelling action => spelling.read = .ok action

/-- What is read is well formed. -/
theorem wellFormed_of_ofChars {s : List Char} {t : Statement} (h : Statement.ofChars s = .ok t) :
    t.WellFormed := by
  obtain ⟨rest, -, -, hs, rfl⟩ | ⟨rest, -, hoperand⟩ | ⟨spelling, action, hread, rfl⟩ :=
    ofChars_cases h
  · simpa [Statement.WellFormed] using hs
  · obtain ⟨rfl, hs⟩ := readOperand_eq_ok hoperand
    simpa [Statement.WellFormed] using hs
  · exact hread

theorem wellFormed_of_readRows {lines : List (List Char)} {a : List Statement}
    (h : readRows lines = some a) : ∀ s ∈ a, s.WellFormed := by
  induction lines generalizing a with
  | nil =>
    simp only [readRows, Option.some.injEq] at h
    subst h
    simp
  | cons line lines ih =>
    obtain ⟨b, c, hb, hc, rfl⟩ := readRows_cons_eq_some.1 h
    intro s hs
    rcases List.mem_append.1 hs with hs | hs
    · unfold readRow at hb
      split at hb
      · simp only [Option.some.injEq] at hb
        subst hb
        simp at hs
      · split at hb
        · next ht =>
          simp only [Option.some.injEq] at hb
          subst hb
          rw [List.mem_singleton.1 hs]
          exact wellFormed_of_ofChars ht
        · simp at hb
    · exact ih hc s hs

end HackToolchain.Asm
