import HackToolchain.Machine.Instruction
import HackToolchain.Text.Decimal

/-!
# Generated code

The assembly that the translator writes, line by line and before it is text. Symbols are kept apart
by what they stand for, because the names of all of them end up in one space: `Symbol.name` is the
only place where a name is made.
-/

set_option autoImplicit false

namespace HackToolchain.Codegen

open Text Machine

/-! ## Symbols -/

/-- The cells that generated code refers to by name: the stack pointer, the bases of four segments,
and two cells for its own use. -/
inductive Register where
  | sp
  | lcl
  | arg
  | this
  | that
  | r13
  | r14
  deriving Repr, DecidableEq

def Register.name : Register → String
  | .sp => "SP"
  | .lcl => "LCL"
  | .arg => "ARG"
  | .this => "THIS"
  | .that => "THAT"
  | .r13 => "R13"
  | .r14 => "R14"

/-- The two places in the code of a comparison that are jumped to. -/
inductive Branch where
  /-- Where the comparison is known to hold. -/
  | holds
  /-- Where the code of the comparison ends. -/
  | done
  deriving Repr, DecidableEq

/-- The symbols in generated code. -/
inductive Symbol where
  | register (r : Register)
  /-- The entry of a function. -/
  | function (name : String)
  /-- A label of a program, which belongs to its module. -/
  | label (module : Option String) (name : String)
  /-- A static cell of a module. -/
  | static (module : String) (index : Int)
  /-- A place in the code of a comparison. -/
  | comparison (branch : Branch) (number : Int)
  /-- Where a call goes on after it returned. -/
  | returnAddress (module : Option String) (number : Int)
  deriving Repr, DecidableEq

namespace Symbol

def within (module : Option String) (name : String) : String :=
  match module with
  | none => name
  | some m => m ++ "$" ++ name

def name : Symbol → String
  | .register r => r.name
  | .function name => name
  | .label module name => within module name
  | .static module index => module ++ "." ++ Decimal.render index
  | .comparison .holds number => "IF_TRUE_" ++ Decimal.render number
  | .comparison .done number => "END_COMP_" ++ Decimal.render number
  | .returnAddress module number => within module ("ret." ++ Decimal.render number)

def number? : Symbol → Option Int
  | .static _ n | .comparison _ n | .returnAddress _ n => some n
  | .register _ | .function _ | .label _ _ => none

end Symbol

/-! ## Lines -/

/-- The lines of generated code. -/
inductive Line where
  | comment (text : String)
  /-- Defines a symbol. -/
  | define (s : Symbol)
  /-- Loads the address of a symbol. -/
  | load (s : Symbol)
  /-- Loads a number. -/
  | number (n : Int)
  /-- Computes. -/
  | act (i : Action)
  deriving Repr, DecidableEq

namespace Line

def render : Line → String
  | .comment text => "// " ++ text
  | .define s => "(" ++ s.name ++ ")"
  | .load s => "@" ++ s.name
  | .number n => "@" ++ Decimal.render n
  | .act i => i.render

def number? : Line → Option Int
  | .define s | .load s => s.number?
  | .number n => some n
  | .comment _ | .act _ => none

/-- The line can be written: the number on it is not too long. -/
def fits (l : Line) : Bool := l.number?.all Decimal.fits

/-- Stores a value in D. -/
def toD (c : Computation) : Line := .act { destination := { d := true }, computation := c }

/-- Stores a value in A. -/
def toA (c : Computation) : Line := .act { destination := { a := true }, computation := c }

/-- Stores a value in the cell that A points at. -/
def toM (c : Computation) : Line := .act { destination := { m := true }, computation := c }

/-- Stores a value in A and in the cell that A pointed at. -/
def toAM (c : Computation) : Line :=
  .act { destination := { a := true, m := true }, computation := c }

/-- Jumps if D compares with zero as asked. -/
def jumpOnD (j : Jump) : Line := .act { computation := .d, jump := some j }

/-- Jumps in any case. -/
def jump : Line := .act { computation := .zero, jump := some .always }

end Line

/-- The text of lines, each ended by a newline. -/
def renderLines (ls : List Line) : String := String.join (ls.map fun l => l.render ++ "\n")

end HackToolchain.Codegen
