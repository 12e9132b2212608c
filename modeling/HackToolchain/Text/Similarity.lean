/-!
# Similar words

Which words of a vocabulary are close to a word that is not in it. Two words are compared by their
matching characters: the longest block of characters that both contain is taken, the leftmost one of
the candidate and then of the word if there are several, and what lies to the left of it in both is
compared in the same way, as is what lies to the right. With `m` matching characters in words of
`l` characters together, the likeness is `2 * m / l`, and one for two empty words.
-/

set_option autoImplicit false

namespace HackToolchain.Text.Similarity

/-! ## Matching characters -/

/-- The number of characters that two texts have in common at their beginning. -/
def commonStart : List Char → List Char → Nat
  | a :: as, b :: bs => if a = b then commonStart as bs + 1 else 0
  | _, _ => 0

/-- A stretch of `size` characters at `left` of one text and at `right` of another. -/
structure Block where
  left : Nat
  right : Nat
  size : Nat
  deriving Repr, DecidableEq

/-- The longer of two blocks, the first one if they are equally long. -/
def Block.longer (x y : Block) : Block := if x.size < y.size then y else x

/-- The best block that starts at a fixed place of the first text, over all places of the second
from `right` on. -/
def longestAt (as : List Char) (left right : Nat) (best : Block) : List Char → Block
  | [] => best
  | b :: bs =>
      longestAt as left (right + 1) (best.longer ⟨left, right, commonStart as (b :: bs)⟩) bs

/-- The longest block of two texts, leftmost in the first and then in the second. -/
def longestFrom (bs : List Char) (left : Nat) (best : Block) : List Char → Block
  | [] => best
  | a :: as => longestFrom bs (left + 1) (longestAt (a :: as) left 0 best bs) as

def longestBlock (as bs : List Char) : Block := longestFrom bs 0 ⟨0, 0, 0⟩ as

/-- The number of matching characters, with `fuel` for the length of the first text. -/
def matchingWithin : Nat → List Char → List Char → Nat
  | 0, _, _ => 0
  | fuel + 1, as, bs =>
      let block := longestBlock as bs
      if block.size = 0 then 0
      else
        -- Both stretches of `as` are shorter than `as`, so the fuel suffices for them.
        block.size
          + matchingWithin fuel (as.take block.left) (bs.take block.right)
          + matchingWithin fuel (as.drop (block.left + block.size))
              (bs.drop (block.right + block.size))

def matching (as bs : List Char) : Nat := matchingWithin as.length as bs

/-! ## Likeness -/

/-- A likeness as a fraction; the denominator is never zero. -/
structure Likeness where
  num : Nat
  den : Nat
  deriving Repr, DecidableEq

/-- Close enough to be suggested: three fifths or more. -/
def Likeness.isClose (l : Likeness) : Bool := 3 * l.den ≤ 5 * l.num

/-- The likeness of a candidate to a word. A candidate that would not be close even if all the
characters of the shorter word matched is not compared, and is as unlike as can be. -/
def likeness (candidate word : List Char) : Likeness :=
  let total := candidate.length + word.length
  if total = 0 then ⟨1, 1⟩
  else if Likeness.isClose ⟨2 * min candidate.length word.length, total⟩ then
    ⟨2 * matching candidate word, total⟩
  else ⟨0, total⟩

/-- The first likeness is the greater one. -/
def Likeness.above (x y : Likeness) : Bool := y.num * x.den < x.num * y.den

/-! ## Suggestions -/

/-- Puts a candidate into a list that falls in likeness and, at equal likeness, in the words. -/
def rank (entry : Likeness × String) : List (Likeness × String) → List (Likeness × String)
  | [] => [entry]
  | other :: rest =>
      if entry.1.above other.1 || (!other.1.above entry.1 && other.2 < entry.2)
      then entry :: other :: rest
      else other :: rank entry rest

/-- At most three words of a vocabulary that are close to a word, the closest first. -/
def closeWords (word : String) (vocabulary : List String) : List String :=
  let scored := vocabulary.map fun candidate => (likeness candidate.toList word.toList, candidate)
  (((scored.filter fun entry => entry.1.isClose).foldr rank []).take 3).map (·.2)

end HackToolchain.Text.Similarity
