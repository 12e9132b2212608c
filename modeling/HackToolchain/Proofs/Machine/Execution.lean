import HackToolchain.Machine.Computer

/-!
# Executing encoded instructions

A word is taken apart into the fields that an instruction was put together from, the arithmetic unit
computes what the instruction names, and the jump is taken for exactly the values it asks for. So
executing the word of an instruction does what the instruction says: `execute_encode` and
`execute_encodeLoad`.

The processor looks for the cell before it does anything. This comes to the same as reading the
cell, storing in it and changing the registers one after the other, each as far as it is asked for
(`execute_eq_inOrder`): whatever can fail comes before the first change.
-/

set_option autoImplicit false

namespace HackToolchain.Machine

/-! ## The parts of a word -/

theorem alu_control (c : Computation) (x y : Word) : alu x y c.control = c.eval x y := by
  have ones_and (v : Word) : 65535#16 &&& v = v := BitVec.allOnes_and
  have and_ones (v : Word) : v &&& 65535#16 = v := BitVec.and_allOnes
  cases c <;> simp [alu, Computation.control, Computation.eval, ones_and, and_ones,
    BitVec.not_and, BitVec.not_not]
  all_goals bv_omega

theorem getLsbD_append_high {m n : Nat} (x : BitVec m) (y : BitVec n) {i : Nat} (h : n ≤ i) :
    (x ++ y).getLsbD i = x.getLsbD (i - n) := by
  rw [BitVec.getLsbD_append, if_neg (by omega)]

theorem ofWord_append (memory : Bool) (control : BitVec 6) (destination jump : BitVec 3) :
    Fields.ofWord ((0b111 : BitVec 3) ++ (BitVec.ofBool memory ++ control) ++ destination ++ jump) =
      { memory, control, destination := .ofBits destination, jump } := by
  simp only [Fields.ofWord, Fields.mk.injEq]
  refine ⟨?_, ?_, ?_, ?_⟩
  · refine (getLsbD_append_high _ jump (by decide)).trans ?_
    refine (getLsbD_append_high _ destination (by decide)).trans ?_
    refine BitVec.getLsbD_append.trans ?_
    rw [if_pos (by decide)]
    refine (getLsbD_append_high _ control (by decide)).trans ?_
    simp
  · refine (BitVec.extractLsb'_append_eq_of_le (by decide)).trans ?_
    refine (BitVec.extractLsb'_append_eq_of_le (by decide)).trans ?_
    refine (BitVec.extractLsb'_append_eq_of_add_le (by decide)).trans ?_
    exact BitVec.extractLsb'_append_eq_right
  · congr 1
    refine (BitVec.extractLsb'_append_eq_of_le (by decide)).trans ?_
    exact BitVec.extractLsb'_append_eq_right
  · exact BitVec.extractLsb'_append_eq_right

/-- The fields of an encoded instruction are its parts. -/
theorem ofWord_encode (i : Action) :
    Fields.ofWord i.encode =
      { memory := i.computation.usesMemory, control := i.computation.control,
        destination := i.destination, jump := i.jumpBits } := by
  refine (ofWord_append _ _ _ _).trans ?_
  rw [Destination.ofBits_bits]

theorem isLoad_encode (i : Action) : isLoad i.encode = false := by
  have h : i.encode.getLsbD 15 = true := by
    refine (getLsbD_append_high _ i.jumpBits (by decide)).trans ?_
    refine (getLsbD_append_high _ i.destination.bits (by decide)).trans ?_
    refine (getLsbD_append_high _ i.computation.bits (by decide)).trans ?_
    decide
  rw [isLoad, h, Bool.not_true]

theorem isLoad_encodeLoad (n : Int) : isLoad (encodeLoad n) = true := by
  have h : (encodeLoad n).getLsbD 15 = false := by
    refine (getLsbD_append_high _ (BitVec.ofInt 15 n) (by decide)).trans ?_
    decide
  rw [isLoad, h, Bool.not_false]

theorem toNat_encodeLoad (n : Int) : (encodeLoad n).toNat = (n % 32768).toNat := by
  have h : (encodeLoad n).toNat = (BitVec.ofInt 15 n).toNat := by
    refine (BitVec.toNat_append _ _).trans ?_
    simp
  rw [h, BitVec.toNat_ofInt]
  rfl

theorem toNat_encodeLoad_of_lt {n : Nat} (h : n < 32768) : (encodeLoad n).toNat = n := by
  rw [toNat_encodeLoad]
  omega

theorem encodeLoad_of_lt {n : Nat} (h : n < 32768) : encodeLoad n = BitVec.ofNat 16 n := by
  apply BitVec.eq_of_toNat_eq
  rw [toNat_encodeLoad_of_lt h, BitVec.toNat_ofNat]
  omega

/-! ## Jumps -/

/-- An instruction jumps for a value: it has a jump, and the jump asks for the value. -/
def Action.jumps (i : Action) (value : Word) : Bool :=
  match i.jump with
  | none => false
  | some j => j.holds value.signed

/-- The jump bits of an instruction ask for what its jump asks for. -/
theorem takesJump_jumpBits (i : Action) (value : Word) :
    takesJump i.jumpBits value = i.jumps value := by
  unfold Action.jumps Action.jumpBits takesJump
  cases i.jump with
  | none => simp
  | some j =>
    simp only [Jump.holds]
    cases j <;> simp [Jump.bits] <;> grind

/-! ## Whole instructions -/

/-- The value that an instruction computes. -/
def Action.value (i : Action) (r : Registers) (ram : Ram) : Word :=
  i.computation.eval r.d (if i.computation.usesMemory then ram.get r.a.toNat else r.a)

/-- The registers after an instruction that computes. -/
def Action.after (i : Action) (r : Registers) (ram : Ram) : Registers where
  a := if i.destination.a then i.value r ram else r.a
  d := if i.destination.d then i.value r ram else r.d
  pc := if i.jumps (i.value r ram) then r.a else r.pc + 1

/-- The memory after an instruction that computes. -/
def Action.stored (i : Action) (r : Registers) (ram : Ram) : Ram :=
  if i.destination.m then ram.set r.a.toNat (i.value r ram) else ram

/-- An instruction reads or writes the cell that A points at. -/
def Action.needsCell (i : Action) : Bool := i.computation.usesMemory || i.destination.m

/-- Executing the word of an instruction that computes does what the instruction says, provided that
the cell it needs is there. -/
theorem execute_encode (i : Action) (r : Registers) (ram : Ram)
    (h : i.needsCell = true → r.a.toNat < ram.size) :
    execute i.encode r ram = (.ok (), i.after r ram, i.stored r ram) := by
  have hcell : (i.needsCell && !ram.holds r.a.toNat) = false := by
    cases hn : i.needsCell with
    | false => rfl
    | true => simp [Ram.holds, h hn]
  simp only [execute, isLoad_encode, ofWord_encode, Fields.needsCell, alu_control,
    Bool.false_eq_true, if_false]
  simp only [Action.needsCell] at hcell
  rw [if_neg (by simp [hcell])]
  simp only [Registers.after, takesJump_jumpBits]
  rfl

theorem execute_encodeLoad (n : Int) (r : Registers) (ram : Ram) :
    execute (encodeLoad n) r ram =
      (.ok (), { r with a := encodeLoad n, pc := r.pc + 1 }, ram) := by
  simp [execute, isLoad_encodeLoad]

/-! ## One effect after another -/

/-- What is computed with besides D: A, or what is read from the cell that A points at. -/
def Fields.operand (f : Fields) (r : Registers) (ram : Ram) : Except Error Word :=
  if f.memory then ram.read r.a.toNat else .ok r.a

/-- Writes a value to the cell that A points at, if that is a destination. -/
def Fields.deliver (f : Fields) (r : Registers) (value : Word) (ram : Ram) :
    Except Error Unit × Ram :=
  if f.destination.m then ram.write r.a.toNat value.toNat else (.ok (), ram)

/-- Executes a word one effect after another: the operand is fetched, the value is written to
memory, and the registers change last. -/
def executeInOrder (w : Word) (r : Registers) (ram : Ram) :
    Except Error Unit × Registers × Ram :=
  if isLoad w then (.ok (), { r with a := w, pc := r.pc + 1 }, ram)
  else
    let f := Fields.ofWord w
    match f.operand r ram with
    | .error e => (.error e, r, ram)
    | .ok y =>
      let value := alu r.d y f.control
      match f.deliver r value ram with
      | (.error e, ram) => (.error e, r, ram)
      | (.ok (), ram) => (.ok (), r.after f value, ram)

theorem ofInt_toNat (w : Word) : Word.ofInt (w.toNat : Int) = w := by
  rw [Word.ofInt, BitVec.ofInt_natCast, BitVec.ofNat_toNat, BitVec.setWidth_eq]

/-- Executing a word is one effect after another. -/
theorem execute_eq_inOrder (w : Word) (r : Registers) (ram : Ram) :
    execute w r ram = executeInOrder w r ram := by
  unfold execute executeInOrder
  by_cases hload : isLoad w = true
  · rw [if_pos hload, if_pos hload]
  · rw [if_neg hload, if_neg hload]
    generalize Fields.ofWord w = f
    -- Reading and writing use the same cell, so they fail together.
    by_cases hcell : ram.holds r.a.toNat = true
    · cases hm : f.memory <;> cases hd : f.destination.m <;>
        simp [Fields.needsCell, Fields.operand, Fields.deliver, Ram.read, Ram.write, hm, hd, hcell,
          ofInt_toNat]
    · cases hm : f.memory <;> cases hd : f.destination.m <;>
        simp [Fields.needsCell, Fields.operand, Fields.deliver, Ram.read, Ram.write, hm, hd, hcell]

end HackToolchain.Machine
