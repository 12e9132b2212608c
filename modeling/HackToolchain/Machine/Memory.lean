import HackToolchain.Capacity
import HackToolchain.Machine.Error
import HackToolchain.Machine.Word

/-!
# Memory

The data memory is a number of cells, each holding a word; the instruction memory holds a program.
Addresses are numbers: whoever asks for a cell that is not there is told so.
-/

set_option autoImplicit false

namespace HackToolchain.Machine

/-- The number of cells of a memory, unless it is told otherwise. -/
def memoryWords : Nat := 32768

/-! ## Data memory -/

/-- Why there can be no memory of a certain size. -/
inductive SizeError where
  | negative
  /-- There is no block of memory for the cells. -/
  | shortage (s : Shortage)
  deriving Repr, DecidableEq

/-- What is told of a size that a memory cannot have. -/
def SizeError.message : SizeError → String
  | .negative => "negative count"
  | .shortage s => s.message

/-- Data memory. -/
structure Ram where
  cells : Array Word
  deriving Repr, DecidableEq

namespace Ram

/-- Memory of a size, all zero. -/
def zeros (size : Nat) : Ram := ⟨Array.replicate size 0⟩

/-- Memory of a size, all zero, at two bytes for a cell. -/
def ofSize (size : Int) : Except SizeError Ram :=
  match blockShortage? (2 * size) with
  | some s => .error (.shortage s)
  | none => if size < 0 then .error .negative else .ok (zeros size.toNat)

def size (r : Ram) : Nat := r.cells.size

/-- There is a cell at an address. -/
def holds (r : Ram) (address : Int) : Bool := 0 ≤ address && address < r.size

/-- The word in a cell, and zero where there is none. -/
def get (r : Ram) (address : Nat) : Word := r.cells.getD address 0

/-- Stores a word in a cell, if it is there. -/
def set (r : Ram) (address : Nat) (w : Word) : Ram := ⟨r.cells.setIfInBounds address w⟩

def read (r : Ram) (address : Int) : Except Error Word :=
  if r.holds address then .ok (r.get address.toNat) else .error (.addressOutOfRange address)

/-- Reads a cell in two's complement. -/
def readSigned (r : Ram) (address : Int) : Except Error Int := (r.read address).map Word.signed

/-- Writes a number to a cell, of which its low sixteen bits remain. If there is no such cell the
memory is given back with the error. -/
def write (r : Ram) (address value : Int) : Except Error Unit × Ram :=
  if r.holds address then (.ok (), r.set address.toNat (Word.ofInt value))
  else (.error (.addressOutOfRange address), r)

/-- The memory with all cells zero. -/
def clear (r : Ram) : Ram := zeros r.size

theorem size_set (r : Ram) (address : Nat) (w : Word) : (r.set address w).size = r.size := by
  simp [set, size]

theorem get_set (r : Ram) (i j : Nat) (w : Word) :
    (r.set i w).get j = if i = j ∧ j < r.size then w else r.get j := by
  simp only [set, get, size, Array.getD_eq_getD_getElem?, Array.getElem?_setIfInBounds]
  by_cases h : i = j
  · subst h
    by_cases hs : i < r.cells.size <;> simp [hs]
  · simp [h]

end Ram

/-! ## Instruction memory -/

/-- Instruction memory and the program in it. -/
structure Rom where
  /-- The most words that a program may have. -/
  capacity : Int := memoryWords
  words : Array Word := #[]
  deriving Repr, DecidableEq

namespace Rom

/-- A number fits into a word. -/
def isWord (n : Int) : Bool := 0 ≤ n && n < 65536

/-- Loads a program. A program that is too long is refused before any of its words is looked at, and
of several numbers that fit into no word the first is named. -/
def load (r : Rom) (program : Array Int) : Except Error Rom :=
  if r.capacity < program.size then .error (.programTooLong program.size r.capacity)
  else
    match program.find? fun n => !isWord n with
    | some n => .error (.invalidWord n)
    | none => .ok { r with words := program.map Word.ofInt }

/-- The instruction at an address, if the program reaches that far. -/
def fetch (r : Rom) (address : Int) : Option Word :=
  if address < 0 then none else r.words[address.toNat]?

end Rom

end HackToolchain.Machine
