/-!
# Capacity

Texts and memories have a size, and not every number is a size that can be had: it has to be an
index, which is a signed number of 64 bits, and what is asked for has to find room.
-/

set_option autoImplicit false

namespace HackToolchain

/-- Why something of a certain size cannot be had. -/
inductive Shortage where
  /-- The size is no index. -/
  | unindexable
  /-- The size is an index, but with its header a block of that size goes beyond the last one. -/
  | oversized
  /-- There is not that much room. -/
  | exhausted
  deriving Repr, DecidableEq

def Shortage.message : Shortage → String
  | .unindexable => "cannot fit 'int' into an index-sized integer"
  | .oversized => "byte string is too large"
  | .exhausted => ""

/-- The first number that is too large for an index: 2 to the power of 63. -/
def indexBound : Int := 0x8000000000000000

def isIndex (n : Int) : Bool := -indexBound ≤ n && n < indexBound

def blockHeader : Int := 33

/-- The largest text, in characters, and the largest block, in bytes, that there is room for:
2 to the power of 32. -/
def room : Int := 0x100000000

/-- Why a text cannot have so many characters, if it cannot. -/
def textShortage? (characters : Int) : Option Shortage :=
  if !isIndex characters then some .unindexable
  else if room < characters then some .exhausted
  else none

/-- Why a block cannot have so many bytes, if it cannot. -/
def blockShortage? (bytes : Int) : Option Shortage :=
  if !isIndex bytes then some .unindexable
  else if indexBound ≤ bytes + blockHeader then some .oversized
  else if room < bytes then some .exhausted
  else none

end HackToolchain
