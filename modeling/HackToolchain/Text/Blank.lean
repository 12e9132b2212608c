/-!
# Blank characters, words and comments

Both languages of the toolchain are read line by line, and both ignore the same things: blank
characters around a line and everything from the first `//` on. This module says which characters
are blank, and cuts a line down to what counts.

The functions work on lists of characters. Each of them walks the line once from its right end, so
that its value on `c :: s` is given by its value on `s`; the lemmas say how.
-/

set_option autoImplicit false

namespace HackToolchain.Text

/-- The characters that separate words: the tab and the line and page controls, the four
information separators, the space, and the Unicode separators. -/
def isBlank (c : Char) : Bool :=
  let n := c.toNat
  (9 ≤ n && n ≤ 13) || (28 ≤ n && n ≤ 32) || n == 0x85 || n == 0xA0 || n == 0x1680 ||
    (0x2000 ≤ n && n ≤ 0x200A) || n == 0x2028 || n == 0x2029 || n == 0x202F || n == 0x205F ||
    n == 0x3000

/-! ## Trimming -/

def trimLeft (s : List Char) : List Char := s.dropWhile isBlank

def trimRight (s : List Char) : List Char := (s.reverse.dropWhile isBlank).reverse

/-- The text without the blanks at its two ends. -/
def trim (s : List Char) : List Char := trimRight (trimLeft s)

/-- The text without its trailing line ends: carriage returns and newlines, in any number. -/
def chomp (s : List Char) : List Char :=
  (s.reverse.dropWhile fun c => c == '\r' || c == '\n').reverse

/-- The column, counted from one, at which the text of a line starts; one for a blank line. -/
def firstColumn (s : List Char) : Nat :=
  match trimLeft s with
  | [] => 1
  | rest => s.length - rest.length + 1

/-! ## Words -/

/-- One character in front of the stretches after it: `joined` tells whether it touches the first of
them. -/
def stretchesStep (separates : Char → Bool) (c : Char) :
    List (List Char) × Bool → List (List Char) × Bool
  | (ws, joined) =>
    if separates c then (ws, false)
    else match joined, ws with
      | true, w :: rest => ((c :: w) :: rest, true)
      | _, _ => ([c] :: ws, true)

/-- The longest stretches of a text without a separating character, in order. -/
def stretches (separates : Char → Bool) (s : List Char) : List (List Char) :=
  (s.foldr (stretchesStep separates) ([], false)).1

/-- The words of a text: its longest stretches without a blank. -/
def words (s : List Char) : List (List Char) := stretches isBlank s

/-! ## Comments -/

/-- One character in front of a text that is already cut; `next` is the character after it in the
uncut text. -/
def uncommentStep (c : Char) : List Char × Option Char → List Char × Option Char
  | (kept, next) => if c = '/' ∧ next = some '/' then ([], some c) else (c :: kept, some c)

/-- The text up to its first `//`. -/
def uncomment (s : List Char) : List Char := (s.foldr uncommentStep ([], none)).1

/-! ## What counts on a line -/

/-- What a line says: the line without its comment and without the blanks around the rest. -/
def content (line : List Char) : List Char := trim (uncomment line)

theorem words_nil : words [] = [] := rfl

theorem uncomment_nil : uncomment [] = [] := rfl

theorem snd_foldr_uncommentStep (s : List Char) :
    (s.foldr uncommentStep ([], none)).2 = s.head? := by
  cases s with
  | nil => rfl
  | cons c s =>
      simp only [List.foldr_cons, uncommentStep]
      split <;> rfl

/-- A character is kept together with what is kept after it, unless it starts a comment. -/
theorem uncomment_cons (c : Char) (s : List Char) :
    uncomment (c :: s) = if c = '/' ∧ s.head? = some '/' then [] else c :: uncomment s := by
  simp only [uncomment, List.foldr_cons, uncommentStep, snd_foldr_uncommentStep]
  split <;> rfl

end HackToolchain.Text
