/-!
# Lines

Ways in which text falls into lines.

* `lines` cuts after every newline and keeps it, so the lines of a text put together are the text.
* `rows` cuts at every line break there is and drops the breaks; a carriage return and the newline
  after it are one break.
* `unifyBreaks` writes the three usual line ends, carriage return, newline, and the two in this
  order, as newlines.
* `unifyPairs` does so with carriage returns that a newline follows, and leaves the others alone.
-/

set_option autoImplicit false

namespace HackToolchain.Text

/-! ## Lines that end with a newline -/

/-- One character in front of the lines after it. -/
def linesStep (c : Char) (ls : List (List Char)) : List (List Char) :=
  if c = '\n' then [c] :: ls
  else match ls with
    | [] => [[c]]
    | l :: rest => (c :: l) :: rest

/-- The lines of a text, each with the newline that ends it. Only the last may lack one, and no
line is empty. -/
def lines (s : List Char) : List (List Char) := s.foldr linesStep []

theorem flatten_linesStep (c : Char) (ls : List (List Char)) :
    (linesStep c ls).flatten = c :: ls.flatten := by
  unfold linesStep
  split
  · simp_all
  · cases ls <;> simp

/-- Cutting a text into lines loses nothing. -/
theorem flatten_lines (s : List Char) : (lines s).flatten = s := by
  induction s with
  | nil => rfl
  | cons c s ih =>
      rw [lines, List.foldr_cons, flatten_linesStep]
      exact congrArg (c :: ·) ih

/-! ## Rows -/

def isBreak (c : Char) : Bool :=
  let n := c.toNat
  (10 ≤ n && n ≤ 13) || (28 ≤ n && n ≤ 30) || n == 0x85 || n == 0x2028 || n == 0x2029

/-- One character in front of the rows after it; `next` is the character that follows it. A
carriage return before a newline adds nothing to the break that the newline makes. -/
def rowsStep (c : Char) : List (List Char) × Option Char → List (List Char) × Option Char
  | (ls, next) =>
    if isBreak c then
      if c = '\r' ∧ next = some '\n' then (ls, some c) else ([] :: ls, some c)
    else match ls with
      | [] => ([[c]], some c)
      | l :: rest => ((c :: l) :: rest, some c)

/-- The rows of a text, without their breaks. A break at the very end opens no further row. -/
def rows (s : List Char) : List (List Char) := (s.foldr rowsStep ([], none)).1

/-! ## Line ends of files -/

/-- One character in front of a text whose line ends are already unified. -/
def unifyStep (c : Char) : List Char × Option Char → List Char × Option Char
  | (out, next) =>
    if c = '\r' then
      if next = some '\n' then (out, some c) else ('\n' :: out, some c)
    else (c :: out, some c)

/-- The text with every line end written as a newline. -/
def unifyBreaks (s : List Char) : List Char := (s.foldr unifyStep ([], none)).1

/-! ## Line ends of printed text -/

/-- One character in front of a text in which no pair is left; `next` is the character that follows
it. -/
def unifyPairStep (c : Char) : List Char × Option Char → List Char × Option Char
  | (out, next) => if c = '\r' ∧ next = some '\n' then (out, some c) else (c :: out, some c)

/-- The text with every carriage return left out that a newline follows. -/
def unifyPairs (s : List Char) : List Char := (s.foldr unifyPairStep ([], none)).1

end HackToolchain.Text
