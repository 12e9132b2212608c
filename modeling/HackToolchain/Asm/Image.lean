import HackToolchain.Asm.Assembly

/-!
# Images

The texts that an assembled program is written as: its words in binary, one on a line, and its
symbols with their addresses, in the order of the addresses.
-/

set_option autoImplicit false

namespace HackToolchain.Asm

open Machine

/-! ## Words -/

/-- The binary digits of a number, with zeros in front up to a width. -/
def binaryDigits (width n : Nat) : List Char :=
  let digits := Nat.toDigits 2 n
  List.replicate (width - digits.length) '0' ++ digits

/-- The line of a number: sixteen characters, or more if it needs more; a sign is one of them. -/
def imageLine (n : Int) : String :=
  String.ofList ((if n < 0 then '-' :: binaryDigits 15 n.natAbs else binaryDigits 16 n.natAbs) ++
    ['\n'])

def imageOfInts (words : List Int) : String := String.join (words.map imageLine)

def Assembly.image (p : Assembly) : String :=
  imageOfInts (p.words.toList.map fun w => w.toNat)

/-! ## Symbols -/

/-- A symbol is listed no later than another: at a lower address, or at the same address and not
after it in the alphabet. -/
def listedBefore (x y : String × Int) : Bool :=
  x.2 < y.2 || (x.2 == y.2 && x.1 ≤ y.1)

/-- The listing of the symbols of a program. -/
def Assembly.listing (p : Assembly) : String :=
  let entries := p.symbols.toList.mergeSort listedBefore
  "\n".intercalate (entries.map fun e => e.1 ++ " " ++ toString e.2) ++ "\n"

end HackToolchain.Asm
