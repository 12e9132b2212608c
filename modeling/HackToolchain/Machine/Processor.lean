import HackToolchain.Machine.Instruction
import HackToolchain.Machine.Memory

/-!
# The processor

The arithmetic unit and the three registers. Executing an instruction changes the registers and at
most one memory cell, and it does so as a whole: if the instruction needs a cell that is not there,
nothing changes.
-/

set_option autoImplicit false

namespace HackToolchain.Machine

/-! ## The arithmetic unit -/

/-- The function that six control bits select. -/
def alu (x y : Word) (control : BitVec 6) : Word :=
  let x := if control.getLsbD 5 then 0 else x
  let x := if control.getLsbD 4 then ~~~x else x
  let y := if control.getLsbD 3 then 0 else y
  let y := if control.getLsbD 2 then ~~~y else y
  let out := if control.getLsbD 1 then x + y else x &&& y
  if control.getLsbD 0 then ~~~out else out

/-- The jump that three bits ask for is taken for a value. -/
def takesJump (jump : BitVec 3) (value : Word) : Bool :=
  (jump.getLsbD 2 && decide (value.signed < 0)) ||
    (jump.getLsbD 1 && decide (value.signed = 0)) ||
    (jump.getLsbD 0 && decide (0 < value.signed))

/-! ## Registers -/

/-- The registers. -/
structure Registers where
  a : Word := 0
  d : Word := 0
  pc : Word := 0
  deriving Repr, DecidableEq

/-- What a word asks for if it computes. -/
structure Fields where
  /-- The operand besides D is in memory. -/
  memory : Bool
  control : BitVec 6
  destination : Destination
  jump : BitVec 3
  deriving Repr, DecidableEq

/-- The parts of a word that computes. -/
def Fields.ofWord (w : Word) : Fields where
  memory := w.getLsbD 12
  control := w.extractLsb' 6 6
  destination := .ofBits (w.extractLsb' 3 3)
  jump := w.extractLsb' 0 3

/-- The word loads A; otherwise it computes. -/
def isLoad (w : Word) : Bool := !w.getLsbD 15

/-- The instruction reads or writes the cell that A points at. -/
def Fields.needsCell (f : Fields) : Bool := f.memory || f.destination.m

/-- The registers after an instruction that computed a value. -/
def Registers.after (r : Registers) (f : Fields) (value : Word) : Registers where
  a := if f.destination.a then value else r.a
  d := if f.destination.d then value else r.d
  pc := if takesJump f.jump value then r.a else r.pc + 1

/-- Executes a word. Registers and memory are given back also if there is an error, which is
then the only news. -/
def execute (w : Word) (r : Registers) (ram : Ram) : Except Error Unit × Registers × Ram :=
  if isLoad w then (.ok (), { r with a := w, pc := r.pc + 1 }, ram)
  else
    let f := Fields.ofWord w
    if f.needsCell && !ram.holds r.a.toNat then (.error (.addressOutOfRange r.a.toNat), r, ram)
    else
      let value := alu r.d (if f.memory then ram.get r.a.toNat else r.a) f.control
      (.ok (), r.after f value, if f.destination.m then ram.set r.a.toNat value else ram)

end HackToolchain.Machine
