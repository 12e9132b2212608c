import HackToolchain.Text.Similarity
import HackToolchain.Codegen.Code
import HackToolchain.Vm.Fault
import HackToolchain.Vm.Segment

/-!
# The code of a command

What code stands for each command. The stack grows upward from its base; the cell SP holds the
address of the first free cell, and values travel through D. An address that has to outlive a pop is
parked in R13.

A call leaves the stack as follows, from the bottom up: the arguments, the return address, the saved
LCL, ARG, THIS and THAT of the caller, and then the locals of the function. ARG points at the first
argument and LCL at the first local. A return finds everything from LCL.

Comparisons look at the sign of a difference of sixteen bits.
-/

set_option autoImplicit false

namespace HackToolchain.Codegen

open Text Machine Vm

/-- A piece of generated code. -/
abbrev Code := List Line

/-! ## The stack -/

/-- Frees a cell for a value, which the code before it stored. -/
def incrementSp : Code := [.load (.register .sp), .toM (.incY .m)]

/-- Gives back the topmost cell. -/
def decrementSp : Code := [.load (.register .sp), .toM (.decY .m)]

/-- Points A at the first free cell. -/
def pointAtTop : Code := [.load (.register .sp), .toA (.y .m)]

def pushD : Code := pointAtTop ++ [Line.toM .d] ++ incrementSp

/-- Pops into D. -/
def popD : Code := [.load (.register .sp), .toAM (.decY .m), .toD (.y .m)]

def numberToD (n : Int) : Code := [.number n, .toD (.y .a)]

/-! ## Operators -/

/-- What an operator of one operand, in M, computes; `none` for the others. -/
def unary? : Operator → Option Computation
  | .neg => some (.negY .m)
  | .not => some (.notY .m)
  | _ => none

/-- The jump that is taken if a comparison holds, from the difference of its operands. -/
def comparisonJump? : Operator → Option Jump
  | .eq => some .eq
  | .gt => some .gt
  | .lt => some .lt
  | _ => none

/-- What an operator of two operands, the first in M and the second in D, computes. -/
def binary : Operator → Computation
  | .sub => .yMinusD .m
  | .and => .and .m
  | .or => .or .m
  | _ => .add .m

/-- Compares M with D and stores the truth value where M was. -/
def comparison (j : Jump) (number : Int) : Code :=
  [Line.toD (.yMinusD .m), .load (.comparison .holds number), .jumpOnD j] ++
    pointAtTop ++ [Line.toM .zero, .load (.comparison .done number), .jump] ++
    [Line.define (.comparison .holds number)] ++
    pointAtTop ++ [Line.toM .minusOne, .define (.comparison .done number)]

/-- The part of an operator's code between fetching its operands and giving the stack pointer its
final value. `number` tells comparisons apart. -/
def combine (op : Operator) (number : Int) : Code :=
  match unary? op, comparisonJump? op with
  | some c, _ => [.toM c]
  | none, some j => comparison j number
  | none, none => [.toM (binary op)]

def operatorCode (op : Operator) (number : Int) : Code :=
  (if op.isUnary then [] else popD) ++ decrementSp ++ pointAtTop ++ combine op number ++ incrementSp

/-! ## Push and pop -/

/-- The register that holds the base of a segment; `none` for the others. -/
def baseRegister? : Segment → Option Register
  | .locals => some .lcl
  | .arguments => some .arg
  | .this => some .this
  | .that => some .that
  | _ => none

/-- The address at which a segment of fixed cells begins. -/
def fixedBase : Segment → Int
  | .temp => 5
  | _ => 3

/-- The static cell of an index, if it is known which module owns it. -/
def staticSymbol (module : Option String) (index : Int) : Except Cause Symbol :=
  match module with
  | some m => .ok (.static m index)
  | none => .error .unboundModule

def pushCode (module : Option String) (segment : Segment) (index : Int) : Except Cause Code :=
  match segment, baseRegister? segment with
  | .constant, _ => .ok (numberToD index ++ pushD)
  | .static, _ =>
      (staticSymbol module index).map fun s => [Line.load s, .toD (.y .m)] ++ pushD
  | _, some r =>
      .ok (numberToD index ++ [Line.load (.register r), .toA (.add .m), .toD (.y .m)] ++ pushD)
  | segment, none =>
      .ok (numberToD index ++
        [Line.number (fixedBase segment), .toA (.add .a), .toD (.y .m)] ++ pushD)

/-- The code that stores the popped value at the address in D. -/
def popToD : Code :=
  [Line.load (.register .r13), .toM .d] ++ popD ++
    [Line.load (.register .r13), .toA (.y .m), .toM .d]

def popCode (module : Option String) (segment : Segment) (index : Int) : Except Cause Code :=
  match segment, baseRegister? segment with
  | .constant, _ => .error .readOnlyConstant
  | .static, _ => (staticSymbol module index).map fun s => popD ++ [Line.load s, .toM .d]
  | _, some r => .ok (numberToD index ++ [Line.load (.register r), .toD (.add .m)] ++ popToD)
  | segment, none =>
      .ok (numberToD index ++ [Line.number (fixedBase segment), .toD (.add .a)] ++ popToD)

def readSegment (name : String) : Except Cause Segment :=
  match Segment.ofName? name with
  | some s => .ok s
  | none =>
      .error (.unknownSegment name
        (Similarity.closeWords name (Segment.all.map Segment.name)))

/-- The code of a push or a pop, as the kind says. The name of the segment is looked at first, then
the index, then the kind. An index out of range that is too long to be written is refused for its
length. -/
def moveCode (module : Option String) (kind : CommandKind) (segment : String) (index : Int) :
    Except Vm.Fault Code :=
  match readSegment segment with
  | .error c => .error c.fault
  | .ok s =>
    if 0 ≤ index ∧ index ≤ s.limit then
      let code :=
        match kind with
        | .push => pushCode module s index
        | .pop => popCode module s index
        | kind => .error (.notPushOrPop kind)
      code.mapError Cause.fault
    else if Decimal.fits index then .error (Cause.indexOutOfRange segment index s.limit).fault
    else .error (.number .tooLongToWrite)

/-! ## Program flow -/

def labelCode (module : Option String) (name : String) : Code := [.define (.label module name)]

/-- The code that goes to a label. -/
def gotoCode (module : Option String) (name : String) : Code :=
  [.load (.label module name), .jump]

/-- The code that pops a value and goes to a label unless it is zero. -/
def ifGotoCode (module : Option String) (name : String) : Code :=
  popD ++ [Line.load (.label module name), .jumpOnD .ne]

/-! ## Functions -/

/-- The registers that a call saves, in the order in which they are pushed. -/
def savedRegisters : List Register := [.lcl, .arg, .this, .that]

/-- The number of cells that a call saves: the return address and the registers. -/
def frameSize : Int := 5

def zeroLocals (count : Nat) : Code := (List.replicate count (.toD .zero :: pushD)).flatten

/-- The code at the entry of a function. -/
def functionCode (name : String) (localCount : Int) : Code :=
  .define (.function name) :: zeroLocals localCount.toNat

def saveCode (r : Register) : Code := [Line.load (.register r), .toD (.y .m)] ++ pushD

/-- The code of a call. `number` tells calls apart. -/
def callCode (module : Option String) (number : Int) (name : String) (argumentCount : Int) : Code :=
  [Line.load (.returnAddress module number), .toD (.y .a)] ++ pushD ++
    savedRegisters.flatMap saveCode ++
    [Line.load (.register .sp), .toD (.y .m), .number (argumentCount + frameSize),
      .toD (.dMinusY .a), .load (.register .arg), .toM .d] ++
    [Line.load (.register .sp), .toD (.y .m), .load (.register .lcl), .toM .d] ++
    [Line.load (.function name), .jump] ++
    [Line.define (.returnAddress module number)]

/-- The code that gives a register back its saved contents, so many cells below the frame's end. -/
def restoreCode (r : Register) (offset : Int) : Code :=
  [.load (.register .r13), .toD (.y .m), .number offset, .toA (.dMinusY .a), .toD (.y .m),
    .load (.register r), .toM .d]

/-- The code of a return. The return address is fetched before the result is stored, because the
two share a cell if there are no arguments. -/
def returnCode : Code :=
  [Line.load (.register .lcl), .toD (.y .m), .load (.register .r13), .toM .d] ++
    [Line.number frameSize, .toA (.dMinusY .a), .toD (.y .m), .load (.register .r14), .toM .d] ++
    popD ++ [Line.load (.register .arg), .toA (.y .m), .toM .d] ++
    [Line.load (.register .arg), .toD (.incY .m), .load (.register .sp), .toM .d] ++
    restoreCode .that 1 ++ restoreCode .this 2 ++ restoreCode .arg 3 ++ restoreCode .lcl 4 ++
    [Line.load (.register .r14), .toA (.y .m), .jump]

/-- The code that sets the stack pointer and calls a function without arguments. -/
def bootstrapCode (module : Option String) (number : Int) (entry : String) (stackBase : Int) :
    Code :=
  numberToD stackBase ++ [Line.load (.register .sp), .toM .d] ++ callCode module number entry 0

end HackToolchain.Codegen
