import HackToolchain.Text.Printable

/-!
# Quoted text

A text as it is shown inside a message: between single quotes, or between double quotes when it
holds a single quote and no double one. Backslashes and the quote in use are escaped, the three
common controls have their letters, and any other character that is not printable is written with
two, four or eight hexadecimal digits, the fewest that hold its code point.
-/

set_option autoImplicit false

namespace HackToolchain.Text

/-- The lowest hexadecimal digits of a number, `width` of them. -/
def hexDigits (width n : Nat) : List Char :=
  let digits := Nat.toDigits 16 n
  List.replicate (width - digits.length) '0' ++ digits

def quoteFor (s : List Char) : Char :=
  if s.contains '\'' && !s.contains '"' then '"' else '\''

def quoteChar (quote c : Char) : List Char :=
  if c = quote || c = '\\' then ['\\', c]
  else if c = '\t' then ['\\', 't']
  else if c = '\n' then ['\\', 'n']
  else if c = '\r' then ['\\', 'r']
  else if isPrintable c then [c]
  else if c.toNat < 0x100 then '\\' :: 'x' :: hexDigits 2 c.toNat
  else if c.toNat < 0x10000 then '\\' :: 'u' :: hexDigits 4 c.toNat
  else '\\' :: 'U' :: hexDigits 8 c.toNat

def quoted (s : String) : String :=
  let quote := quoteFor s.toList
  String.ofList (quote :: (s.toList.flatMap (quoteChar quote) ++ [quote]))

end HackToolchain.Text
