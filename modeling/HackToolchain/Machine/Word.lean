/-!
# Machine words

The machine computes with words of sixteen bits. A word is an unsigned number to the memory and a
two's complement number to the stack language.
-/

set_option autoImplicit false

namespace HackToolchain.Machine

abbrev Word := BitVec 16

namespace Word

/-- The low sixteen bits of a number. -/
def ofInt (n : Int) : Word := BitVec.ofInt 16 n

/-- The number that a word stands for in two's complement. -/
def signed (w : Word) : Int := w.toInt

end Word

end HackToolchain.Machine
