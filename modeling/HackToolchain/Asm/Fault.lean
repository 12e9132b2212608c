import HackToolchain.Diagnostic.Kind
import HackToolchain.Diagnostic.Report
import HackToolchain.Machine.Instruction
import HackToolchain.Text.Decimal

/-!
# What can be wrong with an assembly source

The causes for which the assembler rejects a line, with their kinds, messages and hints.
-/

set_option autoImplicit false

namespace HackToolchain.Asm

open Text Machine

/-- The largest constant that an instruction can load. -/
def maxConstant : Nat := 32767

/-- Why a line is rejected. -/
inductive Cause where
  /-- A label definition without its closing parenthesis. -/
  | unterminatedLabel
  /-- Nothing after the sign that loads. -/
  | missingOperand
  /-- A constant too large to be loaded, as it is written. -/
  | constantTooLarge (operand : String)
  | invalidSymbol (name : String)
  | invalidDestination (word : String)
  | invalidComputation (word : String)
  | invalidJump (word : String)
  /-- A label that is defined already: at a place, or by the machine. -/
  | duplicateLabel (name : String) (first : Option Location)
  deriving Repr, DecidableEq

namespace Cause

def kind : Cause → ErrorKind
  | .duplicateLabel _ _ => .duplicateSymbol
  | _ => .assemblySyntax

def message : Cause → String
  | .unterminatedLabel => "unterminated label definition"
  | .missingOperand => "missing operand after '@'"
  | .constantTooLarge operand => "constant " ++ operand ++ " does not fit in an A-instruction"
  | .invalidSymbol name => "invalid symbol '" ++ name ++ "'"
  | .invalidDestination word => "invalid destination '" ++ word ++ "'"
  | .invalidComputation word => "invalid computation '" ++ word ++ "'"
  | .invalidJump word => "invalid jump '" ++ word ++ "'"
  | .duplicateLabel name _ => "duplicate label '" ++ name ++ "'"

def hint : Cause → Option String
  | .unterminatedLabel => some "label definitions have the form (NAME)"
  | .constantTooLarge _ =>
      some ("A-instruction constants range from 0 to " ++ toString maxConstant)
  | .invalidSymbol _ =>
      some ("symbols use letters, digits, '_', '.', '$' and ':' " ++
        "and do not start with a digit")
  | .invalidDestination _ => some "destinations combine A, D and M"
  | .invalidJump _ => some ("valid jumps: " ++ ", ".intercalate (Jump.all.map Jump.name))
  | .duplicateLabel name (some l) =>
      some ("'" ++ name ++ "' was first defined at " ++ l.render)
  | .duplicateLabel _ none | .missingOperand | .invalidComputation _ => none

end Cause

/-- A line rejected, or a number on it refused for its length. -/
inductive Fault where
  | rejected (error : Located Cause)
  | number (fault : Decimal.Fault)
  deriving Repr, DecidableEq

def Fault.message : Fault → String
  | .rejected e => (e.report Cause.message Cause.hint).render
  | .number f => f.message

end HackToolchain.Asm
