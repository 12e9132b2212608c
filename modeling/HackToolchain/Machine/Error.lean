import HackToolchain.Diagnostic.Kind

/-!
# What can go wrong on the machine
-/

set_option autoImplicit false

namespace HackToolchain.Machine

/-- Why the machine refuses a program, an address or a label. -/
inductive Error where
  /-- There is no memory cell at the address. -/
  | addressOutOfRange (address : Int)
  /-- A program is longer than the instruction memory. -/
  | programTooLong (words : Nat) (capacity : Int)
  /-- A number does not fit into a word. -/
  | invalidWord (word : Int)
  /-- The program has no such label. -/
  | unknownLabel (name : String)
  deriving Repr, DecidableEq

namespace Error

def message : Error → String
  | .addressOutOfRange address => "RAM address out of range: " ++ toString address
  | .programTooLong words capacity =>
      "program of " ++ toString words ++ " words does not fit in " ++ toString capacity ++
        "-word ROM"
  | .invalidWord word => "invalid machine word: " ++ toString word
  | .unknownLabel name => "unknown label: " ++ name

def kind (_ : Error) : ErrorKind := .emulator

end Error

end HackToolchain.Machine
