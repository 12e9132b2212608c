/-!
# Terminal escapes

A terminal takes some sequences of characters as commands: an escape, an opening bracket, any number
of parameter characters, any number of intermediate characters, and a final character. The three
kinds of characters are three stretches of the printable ASCII characters, so a sequence can be read
in one way only. Sequences mean nothing where text is not shown on a terminal, and are left out
there; what only begins like a sequence stays.
-/

set_option autoImplicit false

namespace HackToolchain.Text

/-- The character that starts a sequence. -/
def escapeChar : Char := '\x1b'

/-- A parameter character of a sequence: a digit or one of `:;<=>?`. -/
def isEscapeParameter (c : Char) : Bool := '0' ≤ c && c ≤ '?'

/-- An intermediate character of a sequence: a space or a punctuation mark before the digits. -/
def isEscapeIntermediate (c : Char) : Bool := ' ' ≤ c && c ≤ '/'

/-- A character that ends a sequence: a letter or one of the marks around the letters. -/
def isEscapeEnd (c : Char) : Bool := '@' ≤ c && c ≤ '~'

/-- What is kept of a text so far, and the beginning of a sequence that may or may not be completed;
both with their last characters first. -/
structure EscapeScan where
  kept : List Char := []
  begun : List Char := []

/-- Gives up the sequence that was begun and goes on with a character that did not fit it. -/
def EscapeScan.resume (s : EscapeScan) (c : Char) : EscapeScan :=
  if c = escapeChar then { kept := s.begun ++ s.kept, begun := [c] }
  else { kept := c :: (s.begun ++ s.kept) }

/-- A character goes on with a sequence whose last character so far is given: after an intermediate
character there are no more parameters. -/
def continuesEscape (last c : Char) : Bool :=
  isEscapeIntermediate c || (isEscapeParameter c && !isEscapeIntermediate last)

def EscapeScan.take (s : EscapeScan) (c : Char) : EscapeScan :=
  match s.begun with
  | [] => s.resume c
  | [_] => if c = '[' then { s with begun := c :: s.begun } else s.resume c
  | last :: _ :: _ =>
    if continuesEscape last c then { s with begun := c :: s.begun }
    else if isEscapeEnd c then { s with begun := [] }
    else s.resume c

def withoutEscapes (s : List Char) : List Char :=
  let scan := s.foldl EscapeScan.take {}
  (scan.begun ++ scan.kept).reverse

end HackToolchain.Text
