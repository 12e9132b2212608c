/-!
# Memory segments

The segments of memory that a program pushes from and pops into. A segment either is reached through
a register that holds its base, or begins at a fixed address, or consists of named cells; the
constants are values and no memory at all.
-/

set_option autoImplicit false

namespace HackToolchain.Vm

/-- The memory segments. -/
inductive Segment where
  | constant
  | locals
  | arguments
  | this
  | that
  | pointer
  | temp
  | static
  deriving Repr, DecidableEq

namespace Segment

/-- All segments, in the order in which they are documented. -/
def all : List Segment :=
  [.constant, .locals, .arguments, .this, .that, .pointer, .temp, .static]

def name : Segment → String
  | .constant => "constant"
  | .locals => "local"
  | .arguments => "argument"
  | .this => "this"
  | .that => "that"
  | .pointer => "pointer"
  | .temp => "temp"
  | .static => "static"

def ofName? (word : String) : Option Segment := all.find? fun s => s.name = word

/-- The largest value that one instruction can load. -/
def maxIndex : Int := 32767

/-- The largest index into a segment. -/
def limit : Segment → Int
  | .pointer => 1
  | .temp => 7
  | _ => maxIndex

theorem ofName?_name (s : Segment) : ofName? s.name = some s := by cases s <;> decide

theorem name_of_ofName? {word : String} {s : Segment} (h : ofName? word = some s) :
    s.name = word := by
  simpa using List.find?_some h

end Segment

end HackToolchain.Vm
