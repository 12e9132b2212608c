import HackToolchain.Proofs.Asm.Passes
import HackToolchain.Proofs.Asm.Spellings
import HackToolchain.Proofs.Machine.Steps

/-!
# Instructions as they are spelled

What an instruction that computes means, read off its letters without any table of codes: the
computation is an arithmetic expression over A, D and M, the letters before the first mark are where
the value goes, and the jump is a condition on its sign. An assembled instruction does just that
when the computer steps over it (`step_of_row`).
-/

set_option autoImplicit false

namespace HackToolchain.Asm

open Text Machine

namespace Spelling

variable (s : Spelling)

/-- The letters before the mark of the destination. -/
def targets : List Char := (s.destination.getD "").toList

/-- The characters of a spelling, with its marks. -/
def chars : List Char :=
  (s.destination.elim [] fun word => word.toList ++ ['=']) ++ s.computation.toList ++
    s.jump.elim [] fun word => ';' :: word.toList

/-- An instruction that is spelled so reads or writes the memory. -/
def UsesMemory : Prop := 'M' ∈ s.targets ∨ 'M' ∈ s.computation.toList

/-- What a letter of a computation stands for. -/
def operandValue? (r : Registers) (ram : Ram) : Char → Option Word
  | '0' => some 0
  | '1' => some 1
  | 'A' => some r.a
  | 'D' => some r.d
  | 'M' => some (ram.get r.a.toNat)
  | _ => none

/-- The value of an expression: an operand, one with a sign in front, or two with a sign in
between. -/
def expressionValue? (value? : Char → Option Word) : List Char → Option Word
  | [x] => value? x
  | ['!', x] => (value? x).map fun x => ~~~x
  | ['-', x] => (value? x).map fun x => -x
  | [x, '+', y] => (value? x).bind fun x => (value? y).map fun y => x + y
  | [x, '-', y] => (value? x).bind fun x => (value? y).map fun y => x - y
  | [x, '&', y] => (value? x).bind fun x => (value? y).map fun y => x &&& y
  | [x, '|', y] => (value? x).bind fun x => (value? y).map fun y => x ||| y
  | _ => none

/-- The value that the computation spells. -/
def value? (r : Registers) (ram : Ram) : Option Word :=
  expressionValue? (operandValue? r ram) s.computation.toList

/-- The jump is taken for a number. -/
def Jumps (n : Int) : Prop :=
  match s.jump with
  | some "JGT" => 0 < n
  | some "JEQ" => n = 0
  | some "JGE" => 0 ≤ n
  | some "JLT" => n < 0
  | some "JNE" => n ≠ 0
  | some "JLE" => n ≤ 0
  | some "JMP" => True
  | _ => False

instance (n : Int) : Decidable (s.Jumps n) := by
  unfold Jumps
  split <;> infer_instance

/-! ## The parts of a spelling -/

variable {s}

theorem expressionValue?_name (c : Computation) (r : Registers) (ram : Ram) :
    expressionValue? (operandValue? r ram) c.name.toList =
      some (c.eval r.d (if c.usesMemory then ram.get r.a.toNat else r.a)) := by
  cases c with
  | zero | one | minusOne | d | notD | negD | incD | decD => rfl
  | y o | notY o | negY o | incY o | decY o | add o | dMinusY o | yMinusD o | and o | or o =>
    cases o <;> rfl

theorem expressionValue?_otherName {c : Computation} {word : String} (h : c.otherName? = some word)
    (r : Registers) (ram : Ram) :
    expressionValue? (operandValue? r ram) word.toList =
      some (c.eval r.d (if c.usesMemory then ram.get r.a.toNat else r.a)) := by
  have hcomm : ∀ x y : Word, x + y = y + x ∧ x &&& y = y &&& x ∧ x ||| y = y ||| x :=
    fun x y => ⟨BitVec.add_comm x y, BitVec.and_comm x y, BitVec.or_comm x y⟩
  cases c with
  | zero | one | minusOne | d | notD | negD | decD => simp [Computation.otherName?] at h
  | y o | notY o | negY o | decY o | dMinusY o | yMinusD o => simp [Computation.otherName?] at h
  | incD =>
    obtain rfl := Option.some.inj h
    exact congrArg some (hcomm _ _).1
  | incY o =>
    obtain rfl := Option.some.inj h
    cases o <;> exact congrArg some (hcomm _ _).1
  | add o =>
    obtain rfl := Option.some.inj h
    cases o <;> exact congrArg some (hcomm _ _).1
  | and o =>
    obtain rfl := Option.some.inj h
    cases o <;> exact congrArg some (hcomm _ _).2.1
  | or o =>
    obtain rfl := Option.some.inj h
    cases o <;> exact congrArg some (hcomm _ _).2.2

/-- Adding the letters of a destination gives the registers that they name. -/
theorem of_insertAll? {letters : List Char} {t u : Destination}
    (h : t.insertAll? letters = some u) :
    (u.a = true ↔ t.a = true ∨ 'A' ∈ letters) ∧ (u.d = true ↔ t.d = true ∨ 'D' ∈ letters) ∧
      (u.m = true ↔ t.m = true ∨ 'M' ∈ letters) := by
  induction letters generalizing t with
  | nil =>
    obtain rfl := Option.some.inj h
    simp
  | cons c letters ih =>
    obtain ⟨t', hinsert, hrest⟩ := Option.bind_eq_some_iff.1 h
    obtain ⟨ha, hd, hm⟩ := ih hrest
    unfold Destination.insert? at hinsert
    split at hinsert
    all_goals try split at hinsert
    all_goals simp only [reduceCtorEq, Option.some.injEq] at hinsert
    all_goals subst hinsert
    all_goals simp_all

theorem of_readDestination {t : Destination} (h : readDestination s.destination = .ok t) :
    (t.a = true ↔ 'A' ∈ s.targets) ∧ (t.d = true ↔ 'D' ∈ s.targets) ∧
      (t.m = true ↔ 'M' ∈ s.targets) := by
  unfold readDestination at h
  unfold targets
  cases hs : s.destination with
  | none =>
    rw [hs] at h
    obtain rfl := Except.ok.inj h
    decide
  | some word =>
    rw [hs] at h
    cases ht : Destination.ofName? word with
    | none => simp [ht] at h
    | some u =>
      simp only [ht, Except.ok.injEq] at h
      subst h
      unfold Destination.ofName? at ht
      cases hw : word.toList with
      | nil => simp [hw] at ht
      | cons c letters =>
        rw [hw] at ht
        simpa [hw] using of_insertAll? ht

theorem usesMemory_iff (c : Computation) :
    (c.usesMemory = true ↔ 'M' ∈ c.name.toList) ∧
      ∀ word ∈ c.otherName?, (c.usesMemory = true ↔ 'M' ∈ word.toList) := by
  cases c with
  | zero | one | minusOne | d | notD | negD | incD | decD => decide
  | y o | notY o | negY o | incY o | decY o | add o | dMinusY o | yMinusD o | and o | or o =>
    cases o <;> decide

/-- What is read as a computation has the value that is spelled, and M is in it if it uses the
memory. -/
theorem of_readComputation {c : Computation} (h : readComputation s.computation = .ok c) :
    (c.usesMemory = true ↔ 'M' ∈ s.computation.toList) ∧
      ∀ r ram, s.value? r ram =
        some (c.eval r.d (if c.usesMemory then ram.get r.a.toNat else r.a)) := by
  unfold readComputation at h
  cases hc : Computation.ofName? s.computation with
  | none => simp [hc] at h
  | some c' =>
    simp only [hc, Except.ok.injEq] at h
    subst h
    have hname := List.find?_some hc
    rw [Bool.or_eq_true, decide_eq_true_eq, decide_eq_true_eq] at hname
    unfold value?
    rcases hname with hname | hother
    · rw [← hname]
      exact ⟨(usesMemory_iff c').1, expressionValue?_name c'⟩
    · exact ⟨(usesMemory_iff c').2 _ hother, expressionValue?_otherName hother⟩

theorem of_readJump {j : Option Jump} (h : readJump s.jump = .ok j) (n : Int) :
    (j.any fun j => j.holds n) = true ↔ s.Jumps n := by
  unfold readJump at h
  unfold Jumps
  cases hs : s.jump with
  | none =>
    rw [hs] at h
    obtain rfl := Except.ok.inj h
    simp
  | some word =>
    rw [hs] at h
    cases hj : Jump.ofName? word with
    | none => simp [hj] at h
    | some k =>
      simp only [hj, Except.ok.injEq] at h
      subst h
      unfold Jump.ofName? at hj
      have hname := List.find?_some hj
      rw [decide_eq_true_eq] at hname
      subst hname
      cases k <;> simp [Jump.name, Jump.holds]

theorem of_splitAtMark {mark : Char} {cs before after : List Char}
    (h : splitAtMark mark cs = some (before, after)) : cs = before ++ mark :: after := by
  unfold splitAtMark at h
  cases hd : cs.dropWhile (· != mark) with
  | nil => simp [hd] at h
  | cons c rest =>
    simp only [hd, Option.some.injEq, Prod.mk.injEq] at h
    obtain ⟨rfl, rfl⟩ := h
    have hc : c = mark := by
      have := List.head_dropWhile_not (· != mark) (l := cs) (by simp [hd])
      simpa [hd] using this
    have hwhole := List.takeWhile_append_dropWhile (p := (· != mark)) (l := cs)
    rw [hd, hc] at hwhole
    exact hwhole.symm

/-- The parts that a text is taken apart into make it up again. -/
theorem chars_ofChars (cs : List Char) : (Spelling.ofChars cs).chars = cs := by
  unfold Spelling.ofChars chars
  cases hd : splitAtMark '=' cs with
  | none =>
    cases hj : splitAtMark ';' cs with
    | none => simp [hj]
    | some p => simpa [hj] using (of_splitAtMark hj).symm
  | some q =>
    have hwhole := of_splitAtMark hd
    cases hj : splitAtMark ';' q.2 with
    | none => simpa [hj] using hwhole.symm
    | some p =>
      rw [of_splitAtMark hj] at hwhole
      simpa [hj] using hwhole.symm

theorem read_eq_ok {i : Action} (h : s.read = .ok i) :
    readDestination s.destination = .ok i.destination ∧
      readComputation s.computation = .ok i.computation ∧ readJump s.jump = .ok i.jump := by
  unfold Spelling.read at h
  cases hd : readDestination s.destination with
  | error e => simp [hd, bind, Except.bind] at h
  | ok t =>
    cases hc : readComputation s.computation with
    | error e => simp [hd, hc, bind, Except.bind] at h
    | ok c =>
      cases hj : readJump s.jump with
      | error e => simp [hd, hc, hj, bind, Except.bind] at h
      | ok j =>
        simp only [hd, hc, hj, bind, Except.bind, pure, Except.pure, Except.ok.injEq] at h
        subst h
        exact ⟨rfl, rfl, rfl⟩

/-- What an instruction computes is what its spelling says, and it stores and jumps accordingly. -/
theorem execute_of_read {i : Action} (h : s.read = .ok i) (r : Registers) (ram : Ram)
    (hm : s.UsesMemory → r.a.toNat < ram.size) :
    ∃ v, s.value? r ram = some v ∧
      execute i.encode r ram =
        (.ok (),
          { a := if 'A' ∈ s.targets then v else r.a
            d := if 'D' ∈ s.targets then v else r.d
            pc := if s.Jumps v.signed then r.a else r.pc + 1 },
          if 'M' ∈ s.targets then ram.set r.a.toNat v else ram) := by
  obtain ⟨hd, hc, hj⟩ := read_eq_ok h
  obtain ⟨ha', hd', hm'⟩ := of_readDestination hd
  obtain ⟨huses, hvalue⟩ := of_readComputation hc
  -- The cell is needed for an M on either side of the sign of equality.
  have hcell : i.needsCell = true → r.a.toNat < ram.size := by
    intro hneeds
    rw [Action.needsCell, Bool.or_eq_true] at hneeds
    exact hm (hneeds.symm.imp hm'.1 huses.1)
  refine ⟨_, hvalue r ram, ?_⟩
  rw [execute_encode i r ram hcell]
  have hjumps : ∀ v : Word, i.jumps v = true ↔ s.Jumps v.signed := by
    intro v
    rw [← of_readJump hj v.signed]
    unfold Action.jumps
    cases i.jump <;> simp
  simp only [Action.after, Action.stored, ha', hd', hm', hjumps]
  rfl

end Spelling

/-! ## Assembled rows -/

/-- The parts of the instruction on a row. -/
def spellingOn (row : List Char) : Spelling :=
  .ofChars ((content row).filter fun c => !isBlank c)

/-- A row that is neither the definition of a label nor a load says an instruction that computes,
if it says anything. -/
theorem readRow_eq_compute {line : List Char} {c : Char} {rest : List Char}
    {statements : List Statement} (hcontent : content line = c :: rest) (hlabel : c ≠ '(')
    (hload : c ≠ '@') (h : readRow line = some statements) :
    ∃ i, statements = [.compute (spellingOn line) i] ∧ (spellingOn line).read = .ok i := by
  unfold spellingOn
  unfold readRow at h
  rw [hcontent] at h ⊢
  simp only at h
  cases hs : Statement.ofChars (c :: rest) with
  | error f => simp [hs] at h
  | ok statement =>
    simp only [hs, Option.some.injEq] at h
    subst h
    unfold Statement.ofChars at hs
    split at hs
    · next heq => exact absurd (List.cons.inj heq).1 hlabel
    · next heq => exact absurd (List.cons.inj heq).1 hload
    · cases hread : (Spelling.ofChars ((c :: rest).filter fun c => !isBlank c)).read with
      | error e => simp [hread] at hs
      | ok i =>
        simp only [hread, Except.ok.injEq] at hs
        subst hs
        exact ⟨i, rfl, rfl⟩

theorem step_of_execute {c : Computer} {w : Word} {registers : Registers} {ram : Ram}
    (hw : c.watch = none) (hcurrent : c.current = some w)
    (h : execute w c.registers c.ram = (.ok (), registers, ram)) :
    c.step = (.ok true, { c with registers, ram, cycles := c.cycles + 1 }) := by
  simp only [Computer.step, hcurrent, Computer.observe, hw, Computer.perform, h]

/-- The assembler and the computer agree on what an instruction that computes means. A text without
breaks that says such an instruction, wherever its blanks are, is assembled to one word; the
computer that steps over it computes the value that is spelled from A, D and M as they were, stores
it in the registers that are named, M being the cell that A pointed at, and jumps to where A pointed
if the value is as asked. Nothing else changes. -/
theorem step_of_row {source file : String} {base : Int} {p : Assembly} {first : Char}
    {rest : List Char} (hb : ∀ c ∈ source.toList, isBreak c = false)
    (hcontent : content source.toList = first :: rest) (hlabel : first ≠ '(') (hload : first ≠ '@')
    (hp : assemble source file base = .ok p) :
    ∃ (s : Spelling) (w : Word), s = spellingOn source.toList ∧
      s.chars = (content source.toList).filter (fun c => !isBlank c) ∧ p.words = #[w] ∧
      ∀ c : Computer, c.watch = none → c.current = some w →
        (s.UsesMemory → c.registers.a.toNat < c.ram.size) →
        ∃ v, s.value? c.registers c.ram = some v ∧
          c.step = (.ok true,
            { c with
              registers :=
                { a := if 'A' ∈ s.targets then v else c.registers.a
                  d := if 'D' ∈ s.targets then v else c.registers.d
                  pc := if s.Jumps v.signed then c.registers.a else c.registers.pc + 1 }
              ram := if 'M' ∈ s.targets then c.ram.set c.registers.a.toNat v else c.ram
              cycles := c.cycles + 1 }) := by
  obtain ⟨statements, hrows, ha⟩ := exists_assembled hp
  have hne : source.toList ≠ [] := by
    intro hnil
    rw [hnil] at hcontent
    simp [content, uncomment_nil, trim, trimLeft, trimRight] at hcontent
  rw [rows_of_no_break hb hne] at hrows
  obtain ⟨said, others, hrow, hothers, rfl⟩ := readRows_cons_eq_some.1 hrows
  obtain rfl := Option.some.inj hothers
  obtain ⟨i, rfl, hread⟩ := readRow_eq_compute hcontent hlabel hload hrow
  have hwords : p.words = #[i.encode] := Array.ext' (by rw [ha.words]; rfl)
  refine ⟨_, i.encode, rfl, Spelling.chars_ofChars _, hwords, fun c hw hcurrent hm => ?_⟩
  obtain ⟨v, hv, hexecute⟩ := (spellingOn source.toList).execute_of_read hread c.registers c.ram hm
  exact ⟨v, hv, step_of_execute hw hcurrent hexecute⟩

/-- Two blanks, registers in an unusual order, the other spelling of a sum, and a jump. -/
theorem step_of_row_sum :
    ∃ (p : Assembly) (w : Word), assemble "M A = M + D ; JLT // sum" "<input>" 16 = .ok p ∧
      p.words = #[w] ∧
      ∀ c : Computer, c.watch = none → c.current = some w → c.registers.a.toNat < c.ram.size →
        c.step = (.ok true, { c with
          registers :=
            { a := c.ram.get c.registers.a.toNat + c.registers.d, d := c.registers.d
              pc := if (c.ram.get c.registers.a.toNat + c.registers.d).signed < 0
                then c.registers.a else c.registers.pc + 1 }
          ram := c.ram.set c.registers.a.toNat (c.ram.get c.registers.a.toNat + c.registers.d)
          cycles := c.cycles + 1 }) := by
  have hcontent : content "M A = M + D ; JLT // sum".toList = 'M' :: " A = M + D ; JLT".toList := by
    decide +kernel
  have hs : spellingOn "M A = M + D ; JLT // sum".toList = ⟨some "MA", "M+D", some "JLT"⟩ := by
    decide +kernel
  have hread : readRows (rows "M A = M + D ; JLT // sum".toList) =
      some [.compute ⟨some "MA", "M+D", some "JLT"⟩
        { destination := { a := true, m := true }, computation := .add .m, jump := some .lt }] := by
    decide +kernel
  obtain ⟨p, hp⟩ := exists_assemble hread (by decide) (by simp [labelNames, Statement.label?])
    "<input>" 16
  obtain ⟨s, w, hspelled, -, hwords, hstep⟩ :=
    step_of_row (by decide +kernel) hcontent (by decide) (by decide) hp
  rw [hs] at hspelled
  subst hspelled
  refine ⟨p, w, hp, hwords, fun c hw hcurrent ha => ?_⟩
  obtain ⟨v, hv, hc⟩ := hstep c hw hcurrent fun _ => ha
  obtain rfl : c.ram.get c.registers.a.toNat + c.registers.d = v := Option.some.inj hv
  simpa [Spelling.targets, Spelling.Jumps] using hc

end HackToolchain.Asm
