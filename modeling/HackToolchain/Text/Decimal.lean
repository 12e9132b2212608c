/-!
# Decimal numbers

Numbers are unbounded, but only numbers of at most `maxDigits` decimal digits are read or written.
When reading, every digit counts, leading zeros too; when writing, the sign does not.
-/

set_option autoImplicit false

namespace HackToolchain.Text.Decimal

/-- The most digits that a number may have in a text. -/
def maxDigits : Nat := 4300

/-- A number refused for its length. -/
inductive Fault where
  /-- A text of this many digits was to be read. -/
  | tooLongToRead (digits : Nat)
  /-- A number with more than `maxDigits` digits was to be written. -/
  | tooLongToWrite
  deriving Repr, DecidableEq

/-- What is told of a number refused for its length. -/
def Fault.message : Fault → String
  | .tooLongToRead digits =>
      "Exceeds the limit (" ++ toString maxDigits ++
        " digits) for integer string conversion: value has " ++ toString digits ++
        " digits; use sys.set_int_max_str_digits() to increase the limit"
  | .tooLongToWrite =>
      "Exceeds the limit (" ++ toString maxDigits ++
        " digits) for integer string conversion; " ++
        "use sys.set_int_max_str_digits() to increase the limit"

/-! ## Digits -/

/-- The ten ASCII digits, and nothing else, are digits. -/
def isDigit (c : Char) : Bool := '0' ≤ c && c ≤ '9'

def digitValue (c : Char) : Nat := c.toNat - '0'.toNat

/-- A text is a numeral when it has at least one character and all of them are digits. -/
def isNumeral (s : List Char) : Bool := !s.isEmpty && s.all isDigit

/-- The number that a string of digits denotes. -/
def value (s : List Char) : Nat := s.foldl (fun n c => n * 10 + digitValue c) 0

def read (s : List Char) : Except Fault Nat :=
  if s.length ≤ maxDigits then .ok (value s) else .error (.tooLongToRead s.length)

/-! ## Writing -/

/-- The first number with more than `maxDigits` digits. -/
def tooLarge : Nat := Nat.pow 10 maxDigits

/-- A number may be written. -/
def fits (n : Int) : Bool := n.natAbs < tooLarge

def render (n : Int) : String := toString n

/-- The decimal text of a number that may be written. -/
def write (n : Int) : Except Fault String :=
  if fits n then .ok (render n) else .error .tooLongToWrite

theorem write_of_fits {n : Int} (h : fits n = true) : write n = .ok (render n) := by
  simp [write, h]

end HackToolchain.Text.Decimal
