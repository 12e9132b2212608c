import HackToolchain.Machine.Word

/-!
# Instructions

The machine has two instructions. One loads a number of fifteen bits into the register A. The other
computes a value from D and one of A and M, M being the memory cell that A points at; it stores the
value in any of A, D and M, and jumps to A if the value compares with zero as asked.

Each part of an instruction is given here with its spelling in assembly and its bits in a word; what
a computation means is `Computation.eval`. The six control bits are, in this order: x is zero, x is
negated bitwise, y is zero, y is negated bitwise, the two are added rather than intersected, and the
result is negated bitwise.
-/

set_option autoImplicit false

namespace HackToolchain.Machine

/-! ## Computations -/

/-- The operand besides D. -/
inductive Operand where
  | a
  | m
  deriving Repr, DecidableEq

/-- The values that an instruction can compute; `y` is the operand besides D. -/
inductive Computation where
  | zero
  | one
  | minusOne
  | d
  | notD
  | negD
  | incD
  | decD
  | y (o : Operand)
  | notY (o : Operand)
  | negY (o : Operand)
  | incY (o : Operand)
  | decY (o : Operand)
  | add (o : Operand)
  | dMinusY (o : Operand)
  | yMinusD (o : Operand)
  | and (o : Operand)
  | or (o : Operand)
  deriving Repr, DecidableEq

def Operand.name : Operand → String
  | .a => "A"
  | .m => "M"

namespace Computation

/-- The computations, first those without M and then those with it. -/
def all : List Computation :=
  [.zero, .one, .minusOne, .d, .y .a, .notD, .notY .a, .negD, .negY .a, .incD, .incY .a, .decD,
    .decY .a, .add .a, .dMinusY .a, .yMinusD .a, .and .a, .or .a, .y .m, .notY .m, .negY .m,
    .incY .m, .decY .m, .add .m, .dMinusY .m, .yMinusD .m, .and .m, .or .m]

def name : Computation → String
  | .zero => "0"
  | .one => "1"
  | .minusOne => "-1"
  | .d => "D"
  | .notD => "!D"
  | .negD => "-D"
  | .incD => "D+1"
  | .decD => "D-1"
  | .y o => o.name
  | .notY o => "!" ++ o.name
  | .negY o => "-" ++ o.name
  | .incY o => o.name ++ "+1"
  | .decY o => o.name ++ "-1"
  | .add o => "D+" ++ o.name
  | .dMinusY o => "D-" ++ o.name
  | .yMinusD o => o.name ++ "-D"
  | .and o => "D&" ++ o.name
  | .or o => "D|" ++ o.name

/-- A second spelling, with the operands the other way round, where the order does not matter. -/
def otherName? : Computation → Option String
  | .incD => some "1+D"
  | .incY o => some ("1+" ++ o.name)
  | .add o => some (o.name ++ "+D")
  | .and o => some (o.name ++ "&D")
  | .or o => some (o.name ++ "|D")
  | _ => none

def ofName? (word : String) : Option Computation :=
  all.find? fun c => c.name = word || c.otherName? = some word

def operand? : Computation → Option Operand
  | .zero | .one | .minusOne | .d | .notD | .negD | .incD | .decD => none
  | .y o | .notY o | .negY o | .incY o | .decY o | .add o | .dMinusY o | .yMinusD o | .and o
  | .or o => some o

/-- The computation reads the memory. -/
def usesMemory (c : Computation) : Bool := c.operand? == some .m

def control : Computation → BitVec 6
  | .zero => 0b101010
  | .one => 0b111111
  | .minusOne => 0b111010
  | .d => 0b001100
  | .y _ => 0b110000
  | .notD => 0b001101
  | .notY _ => 0b110001
  | .negD => 0b001111
  | .negY _ => 0b110011
  | .incD => 0b011111
  | .incY _ => 0b110111
  | .decD => 0b001110
  | .decY _ => 0b110010
  | .add _ => 0b000010
  | .dMinusY _ => 0b010011
  | .yMinusD _ => 0b000111
  | .and _ => 0b000000
  | .or _ => 0b010101

/-- The seven bits of a computation in a word: whether it reads the memory, and its control bits. -/
def bits (c : Computation) : BitVec 7 := BitVec.ofBool c.usesMemory ++ c.control

/-- The value of a computation, from D and the operand besides it. -/
def eval (c : Computation) (d y : Word) : Word :=
  match c with
  | .zero => 0
  | .one => 1
  | .minusOne => -1
  | .d => d
  | .notD => ~~~d
  | .negD => -d
  | .incD => d + 1
  | .decD => d - 1
  | .y _ => y
  | .notY _ => ~~~y
  | .negY _ => -y
  | .incY _ => y + 1
  | .decY _ => y - 1
  | .add _ => d + y
  | .dMinusY _ => d - y
  | .yMinusD _ => y - d
  | .and _ => d &&& y
  | .or _ => d ||| y

end Computation

/-! ## Destinations -/

/-- Where a value is stored: in any of the three registers, M being the cell that A points at. -/
structure Destination where
  a : Bool := false
  d : Bool := false
  m : Bool := false
  deriving Repr, DecidableEq

namespace Destination

def letters (t : Destination) : List Char :=
  (if t.a then ['A'] else []) ++ (if t.d then ['D'] else []) ++ (if t.m then ['M'] else [])

/-- The three bits of a destination in a word. -/
def bits (t : Destination) : BitVec 3 :=
  BitVec.ofBool t.a ++ BitVec.ofBool t.d ++ BitVec.ofBool t.m

def ofBits (b : BitVec 3) : Destination := ⟨b.getLsbD 2, b.getLsbD 1, b.getLsbD 0⟩

/-- Adds a register that is not there yet. -/
def insert? (t : Destination) : Char → Option Destination
  | 'A' => if t.a then none else some { t with a := true }
  | 'D' => if t.d then none else some { t with d := true }
  | 'M' => if t.m then none else some { t with m := true }
  | _ => none

/-- Adds registers that are not there yet. -/
def insertAll? (t : Destination) : List Char → Option Destination
  | [] => some t
  | c :: rest => (t.insert? c).bind fun t => t.insertAll? rest

/-- The destination of a spelling: at least one register, in any order, none of them twice. -/
def ofName? (word : String) : Option Destination :=
  match word.toList with
  | [] => none
  | letters => insertAll? {} letters

theorem ofBits_bits (t : Destination) : ofBits t.bits = t := by
  obtain ⟨a, d, m⟩ := t
  cases a <;> cases d <;> cases m <;> decide

end Destination

/-! ## Jumps -/

/-- The conditions on a value under which an instruction jumps. -/
inductive Jump where
  | gt
  | eq
  | ge
  | lt
  | ne
  | le
  | always
  deriving Repr, DecidableEq

namespace Jump

/-- The jumps, in the order in which they are listed to the user. -/
def all : List Jump := [.gt, .eq, .ge, .lt, .ne, .le, .always]

def name : Jump → String
  | .gt => "JGT"
  | .eq => "JEQ"
  | .ge => "JGE"
  | .lt => "JLT"
  | .ne => "JNE"
  | .le => "JLE"
  | .always => "JMP"

def ofName? (word : String) : Option Jump := all.find? fun j => j.name = word

/-- The three bits of a jump in a word: it is taken for negative values, for zero, for positive
values. -/
def bits : Jump → BitVec 3
  | .gt => 0b001
  | .eq => 0b010
  | .ge => 0b011
  | .lt => 0b100
  | .ne => 0b101
  | .le => 0b110
  | .always => 0b111

/-- The jump is taken for a value. -/
def holds (j : Jump) (value : Int) : Bool :=
  match j with
  | .gt => 0 < value
  | .eq => value = 0
  | .ge => 0 ≤ value
  | .lt => value < 0
  | .ne => value ≠ 0
  | .le => value ≤ 0
  | .always => true

end Jump

/-! ## Whole instructions -/

/-- An instruction that computes. -/
structure Action where
  destination : Destination := {}
  computation : Computation
  jump : Option Jump := none
  deriving Repr, DecidableEq

namespace Action

/-- The spelling of an instruction that computes: the parts that are there, with their marks. -/
def render (i : Action) : String :=
  (match i.destination.letters with
    | [] => ""
    | letters => String.ofList letters ++ "=") ++
    i.computation.name ++
    (match i.jump with
    | none => ""
    | some j => ";" ++ j.name)

/-- The bits that say when to jump. -/
def jumpBits (i : Action) : BitVec 3 :=
  match i.jump with
  | none => 0
  | some j => j.bits

def encode (i : Action) : Word :=
  (0b111 : BitVec 3) ++ i.computation.bits ++ i.destination.bits ++ i.jumpBits

end Action

/-- The word that loads a number into A, of which the low fifteen bits remain. -/
def encodeLoad (n : Int) : Word := (0 : BitVec 1) ++ BitVec.ofInt 15 n

end HackToolchain.Machine
