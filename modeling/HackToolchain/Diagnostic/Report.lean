import HackToolchain.Capacity
import HackToolchain.Diagnostic.Location

/-!
# Reports

How an error is shown to the user: what is wrong and where, the line of the source with a caret
below the place, and a hint. Only the message is always there.
-/

set_option autoImplicit false

namespace HackToolchain

/-- An error as it is shown. -/
structure Report where
  message : String
  location : Option Location := none
  hint : Option String := none
  sourceLine : Option String := none
  deriving Repr, DecidableEq

namespace Report

/-- The message, after the place if there is one. -/
def headline (r : Report) : String :=
  match r.location with
  | some l => l.render ++ ": error: " ++ r.message
  | none => "error: " ++ r.message

/-- The width of the margin in front of a source line. -/
def margin : Nat := 4

/-- The line with the caret; a column before the first has none. -/
def caret (column : Int) : List String :=
  if 0 < column then
    [String.ofList (List.replicate (margin + column.toNat - 1) ' ' ++ ['^'])]
  else []

/-- The source line and its caret; both need a location to refer to. -/
def excerpt (r : Report) : List String :=
  match r.location, r.sourceLine with
  | some l, some line => (String.ofList (List.replicate margin ' ') ++ line) :: caret l.column
  | _, _ => []

/-- The line with the hint; an empty hint is no hint. -/
def hintLine (r : Report) : List String :=
  match r.hint with
  | some h => if h = "" then [] else ["hint: " ++ h]
  | none => []

def renderLines (r : Report) : List String := r.headline :: (r.excerpt ++ r.hintLine)

/-- Why the report cannot be written, if it cannot: a caret may stand too far to the right. -/
def shortage? (r : Report) : Option Shortage :=
  match r.location, r.sourceLine with
  | some l, some _ => if 0 < l.column then textShortage? (margin + l.column - 1) else none
  | _, _ => none

def render (r : Report) : String := "\n".intercalate r.renderLines

/-- Says where the error is, with the source line, unless that is known already. -/
def locate (r : Report) (location : Option Location) (sourceLine : Option String) : Report :=
  match r.location, location with
  | none, some l => { r with location := some l, sourceLine }
  | _, _ => r

end Report

/-- A hint that offers similar words, if there are any; at most three are named. -/
def suggestion (similar : List String) : Option String :=
  match similar.take 3 with
  | [] => none
  | words => some ("did you mean " ++ ", ".intercalate (words.map fun w => "'" ++ w ++ "'") ++ "?")

/-- Something that went wrong for a known cause, at a place that is known or not. -/
structure Located (α : Type) where
  cause : α
  location : Option Location := none
  sourceLine : Option String := none
  deriving Repr, DecidableEq

/-- Says where it went wrong, with the source line, unless that is known already. -/
def Located.locate {α : Type} (e : Located α) (location : Option Location)
    (sourceLine : Option String) : Located α :=
  match e.location, location with
  | none, some l => { e with location := some l, sourceLine }
  | _, _ => e

theorem Located.cause_locate {α : Type} (e : Located α) (location : Option Location)
    (sourceLine : Option String) : (e.locate location sourceLine).cause = e.cause := by
  unfold Located.locate
  split <;> rfl

/-- The report of an error whose message and hint follow from its cause. -/
def Located.report {α : Type} (message : α → String) (hint : α → Option String)
    (e : Located α) : Report :=
  { message := message e.cause, location := e.location, hint := hint e.cause,
    sourceLine := e.sourceLine }

end HackToolchain
