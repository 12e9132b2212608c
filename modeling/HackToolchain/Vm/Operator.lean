/-!
# Operators

The arithmetic and logical operators of the stack language. Two of them change the value on top of
the stack; the others replace the two topmost values by one, and three of these compare.
-/

set_option autoImplicit false

namespace HackToolchain.Vm

/-- The operators. -/
inductive Operator where
  | add
  | sub
  | neg
  | eq
  | gt
  | lt
  | and
  | or
  | not
  deriving Repr, DecidableEq

namespace Operator

/-- All operators, in the order in which they are listed to the user. -/
def all : List Operator := [.add, .sub, .neg, .eq, .gt, .lt, .and, .or, .not]

def name : Operator → String
  | .add => "add"
  | .sub => "sub"
  | .neg => "neg"
  | .eq => "eq"
  | .gt => "gt"
  | .lt => "lt"
  | .and => "and"
  | .or => "or"
  | .not => "not"

def ofName? (word : String) : Option Operator := all.find? fun op => op.name = word

/-- The operator takes one operand. -/
def isUnary : Operator → Bool
  | .neg | .not => true
  | _ => false

/-- The operator yields a truth value. -/
def isComparison : Operator → Bool
  | .eq | .gt | .lt => true
  | _ => false

theorem mem_all (op : Operator) : op ∈ all := by cases op <;> decide

theorem ofName?_name (op : Operator) : ofName? op.name = some op := by cases op <;> decide

theorem name_of_ofName? {word : String} {op : Operator} (h : ofName? word = some op) :
    op.name = word := by
  simpa using List.find?_some h

end Operator

end HackToolchain.Vm
