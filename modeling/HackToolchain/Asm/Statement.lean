import HackToolchain.Asm.Fault
import HackToolchain.Text.Blank
import HackToolchain.Text.Lines

/-!
# Statements

What a line of an assembly source says: it defines a label, it loads a number or a symbol, or it
computes. Comments and blanks count for nothing; within an instruction that computes no blank counts
at all.
-/

set_option autoImplicit false

namespace HackToolchain.Asm

open Text Machine

/-- The parts of an instruction that computes, as they are written, without their marks. -/
structure Spelling where
  destination : Option String := none
  computation : String
  jump : Option String := none
  deriving Repr, DecidableEq

/-- The statements. -/
inductive Statement where
  /-- Defines a label. -/
  | label (name : String)
  /-- Loads a number or the address of a symbol. -/
  | load (operand : String)
  /-- Computes; the spelling is kept beside what it means. -/
  | compute (spelling : Spelling) (action : Action)
  deriving Repr, DecidableEq

/-- A statement with its place and the line it stands on. -/
structure LocatedStatement where
  statement : Statement
  location : Location
  sourceLine : String
  deriving Repr, DecidableEq

/-! ## Symbols and constants -/

def isSymbolStart (c : Char) : Bool :=
  ('A' ≤ c && c ≤ 'Z') || ('a' ≤ c && c ≤ 'z') || c == '_' || c == '.' || c == '$' || c == ':'

def isSymbolRest (c : Char) : Bool := isSymbolStart c || Decimal.isDigit c

/-- A text is a symbol: letters, digits and four signs, no digit first. -/
def isSymbol : List Char → Bool
  | [] => false
  | c :: rest => isSymbolStart c && rest.all isSymbolRest

/-- An operand is a constant: a numeral, which a newline may follow. -/
def isConstant (operand : List Char) : Bool :=
  Decimal.isNumeral operand || (operand.getLast? = some '\n' && Decimal.isNumeral operand.dropLast)

/-! ## Lines -/

def readSymbol (s : List Char) : Except Cause String :=
  if isSymbol s then .ok (String.ofList s) else .error (.invalidSymbol (String.ofList s))

/-- Reads what follows the sign that loads. -/
def readOperand (s : List Char) : Except Fault Statement :=
  let reject (c : Cause) : Except Fault Statement := .error (.rejected { cause := c })
  if s.isEmpty then reject .missingOperand
  else if Decimal.isNumeral s then
    match Decimal.read s with
    | .error f => .error (.number f)
    | .ok n =>
      if n ≤ maxConstant then .ok (.load (String.ofList s))
      else reject (.constantTooLarge (String.ofList s))
  else
    match readSymbol s with
    | .ok name => .ok (.load name)
    | .error c => reject c

/-- What stands before and after the first occurrence of a mark. -/
def splitAtMark (mark : Char) (s : List Char) : Option (List Char × List Char) :=
  match s.dropWhile (· != mark) with
  | [] => none
  | _ :: after => some (s.takeWhile (· != mark), after)

/-- Takes an instruction that computes apart, which has no blanks any more. -/
def Spelling.ofChars (s : List Char) : Spelling :=
  let (destination, rest) :=
    match splitAtMark '=' s with
    | some (before, after) => (some before, after)
    | none => (none, s)
  let (computation, jump) :=
    match splitAtMark ';' rest with
    | some (before, after) => (before, some after)
    | none => (rest, none)
  { destination := destination.map String.ofList
    computation := String.ofList computation
    jump := jump.map String.ofList }

/-- Reads a destination, which need not be there. -/
def readDestination : Option String → Except Cause Destination
  | none => .ok {}
  | some word =>
    match Destination.ofName? word with
    | some t => .ok t
    | none => .error (.invalidDestination word)

def readComputation (word : String) : Except Cause Computation :=
  match Computation.ofName? word with
  | some c => .ok c
  | none => .error (.invalidComputation word)

/-- Reads a jump, which need not be there. -/
def readJump : Option String → Except Cause (Option Jump)
  | none => .ok none
  | some word =>
    match Jump.ofName? word with
    | some j => .ok (some j)
    | none => .error (.invalidJump word)

/-- What a spelling means. The destination is looked at first, then the computation, then the
jump. -/
def Spelling.read (s : Spelling) : Except Cause Action := do
  let destination ← readDestination s.destination
  let computation ← readComputation s.computation
  let jump ← readJump s.jump
  return { destination, computation, jump }

/-- Reads the content of a line, which is not blank. -/
def Statement.ofChars (s : List Char) : Except Fault Statement :=
  match s with
  | '(' :: rest =>
    if s.getLast? = some ')' then
      match readSymbol (trim rest.dropLast) with
      | .ok name => .ok (.label name)
      | .error c => .error (.rejected { cause := c })
    else .error (.rejected { cause := .unterminatedLabel })
  | '@' :: rest => readOperand (trim rest)
  | _ =>
    let spelling := Spelling.ofChars (s.filter fun c => !isBlank c)
    match spelling.read with
    | .ok action => .ok (.compute spelling action)
    | .error c => .error (.rejected { cause := c })

/-- Reads a line of a source, whose lines are counted from one. The result is the statement on it,
or none if the line is blank but for a comment. -/
def readLine (file : String) (number : Nat) (line : List Char) :
    Except Fault (Option LocatedStatement) :=
  match content line with
  | [] => .ok none
  | text =>
    let location : Location := { file, line := number, column := firstColumn line }
    let sourceLine := String.ofList line
    match Statement.ofChars text with
    | .ok statement => .ok (some { statement, location, sourceLine })
    | .error f =>
      match f with
      | .rejected e => .error (.rejected (e.locate (some location) (some sourceLine)))
      | .number f => .error (.number f)

/-- Reads lines one after the other; `out` holds the statements so far. -/
def readLines (file : String) (number : Nat) (out : Array LocatedStatement) :
    List (List Char) → Except Fault (Array LocatedStatement)
  | [] => .ok out
  | line :: rest =>
    match readLine file number line with
    | .error f => .error f
    | .ok none => readLines file (number + 1) out rest
    | .ok (some s) => readLines file (number + 1) (out.push s) rest

/-- The statements of a source in order. The first line that says nothing sensible is rejected. -/
def readSource (source : String) (file : String := "<input>") :
    Except Fault (List LocatedStatement) :=
  (readLines file 1 #[] (rows source.toList)).map Array.toList

end HackToolchain.Asm
