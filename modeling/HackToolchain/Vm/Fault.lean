import HackToolchain.Diagnostic.Kind
import HackToolchain.Diagnostic.Report
import HackToolchain.Vm.Operator
import HackToolchain.Vm.Command

/-!
# What can be wrong with a command

The causes for which a command is rejected, by the reader because it cannot be read or by the
translator because there is no code for it. Each cause has its kind, its message and, where there is
something to suggest, a hint.
-/

set_option autoImplicit false

namespace HackToolchain.Vm

open Text

/-- Why a command is rejected. -/
inductive Cause where
  /-- The first word starts no command. -/
  | unknownCommand (word : String) (similar : List String)
  /-- A command has too many or too few arguments. -/
  | wrongArgumentCount (word : String) (expected given : Nat)
  /-- The last word is no number. -/
  | invalidIndex (word token : String)
  | unknownOperator (name : String)
  | unknownSegment (name : String) (similar : List String)
  /-- An index is negative or larger than the last one of its segment. -/
  | indexOutOfRange (segment : String) (index limit : Int)
  /-- A static cell was meant, but no module is known that could own it. -/
  | unboundModule
  /-- A value was to be popped into the constants. -/
  | readOnlyConstant
  /-- Code for a push or a pop was asked for under another kind. -/
  | notPushOrPop (kind : CommandKind)
  deriving Repr, DecidableEq

namespace Cause

def kind : Cause → ErrorKind
  | .unknownCommand _ _ | .wrongArgumentCount _ _ _ | .invalidIndex _ _ => .malformedInstruction
  | .unknownOperator _ => .unknownOperator
  | .unknownSegment _ _ => .unknownSegment
  | .indexOutOfRange _ _ _ => .segmentRange
  | .unboundModule => .unboundModule
  | .readOnlyConstant | .notPushOrPop _ => .unsupportedOperation

def message : Cause → String
  | .unknownCommand word _ => "unknown command '" ++ word ++ "'"
  | .wrongArgumentCount word expected given =>
      "'" ++ word ++ "' takes " ++ toString expected ++
        (if expected = 1 then " argument" else " arguments") ++ ", got " ++ toString given
  | .invalidIndex word token =>
      "'" ++ word ++ "' expects a non-negative integer, got '" ++ token ++ "'"
  | .unknownOperator name => "unknown arithmetic operator '" ++ name ++ "'"
  | .unknownSegment name _ => "unknown memory segment '" ++ name ++ "'"
  | .indexOutOfRange segment index _ =>
      "index " ++ Decimal.render index ++ " is out of range for segment '" ++ segment ++ "'"
  | .unboundModule => "static segment accessed before a module name was set"
  | .readOnlyConstant => "cannot pop into the constant segment"
  | .notPushOrPop kind => kind.title ++ " is not a push or pop command"

def hint : Cause → Option String
  | .unknownCommand _ similar | .unknownSegment _ similar => suggestion similar
  | .unknownOperator _ =>
      some ("valid operators: " ++ ", ".intercalate (Operator.all.map Operator.name))
  | .indexOutOfRange segment _ limit =>
      some ("'" ++ segment ++ "' accepts indices 0 to " ++ Decimal.render limit)
  | .unboundModule => some "call set_module_name() before translating a module"
  | .readOnlyConstant => some "constants are read-only; pop into temp to discard a value"
  | .wrongArgumentCount _ _ _ | .invalidIndex _ _ | .notPushOrPop _ => none

end Cause

/-- A command rejected, or a number in it refused for its length. -/
inductive Fault where
  | rejected (error : Located Cause)
  | number (fault : Decimal.Fault)
  deriving Repr, DecidableEq

/-- The fault of a cause at a place yet to be told. -/
def Cause.fault (c : Cause) : Fault := .rejected { cause := c }

/-- Says where a rejected command stands, unless that is known already. -/
def Fault.locate (location : Option Location) (sourceLine : Option String) : Fault → Fault
  | .rejected e => .rejected (e.locate location sourceLine)
  | .number f => .number f

def Fault.message : Fault → String
  | .rejected e => (e.report Cause.message Cause.hint).render
  | .number f => f.message

end HackToolchain.Vm
