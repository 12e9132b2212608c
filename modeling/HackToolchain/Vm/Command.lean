import HackToolchain.Diagnostic.Location
import HackToolchain.Text.Decimal

/-!
# Commands

The commands of the stack language. A command carries the names that stand in the program; whether
an operator or a segment of that name exists is found out when code is generated for it. Numbers are
unbounded.

An instruction is a command together with the place it was read from and its text there.
-/

set_option autoImplicit false

namespace HackToolchain.Vm

open Text

/-! ## Kinds of commands -/

/-- The kinds of commands. -/
inductive CommandKind where
  | arithmetic
  | push
  | pop
  | label
  | goto
  | ifGoto
  | function
  | return
  | call
  deriving Repr, DecidableEq

namespace CommandKind

/-- The name under which a kind is reported. -/
def title : CommandKind → String
  | .arithmetic => "ARITHMETIC"
  | .push => "PUSH"
  | .pop => "POP"
  | .label => "LABEL"
  | .goto => "GOTO"
  | .ifGoto => "IF_GOTO"
  | .function => "FUNCTION"
  | .return => "RETURN"
  | .call => "CALL"

/-- The kinds that start with a keyword, in the order of the vocabulary. -/
def keywordKinds : List CommandKind :=
  [.push, .pop, .label, .goto, .ifGoto, .function, .call, .return]

/-- The word that starts a command of a kind; an arithmetic command starts with its operator. -/
def keyword? : CommandKind → Option String
  | .arithmetic => none
  | .push => some "push"
  | .pop => some "pop"
  | .label => some "label"
  | .goto => some "goto"
  | .ifGoto => some "if-goto"
  | .function => some "function"
  | .return => some "return"
  | .call => some "call"

def ofKeyword? (word : String) : Option CommandKind :=
  keywordKinds.find? fun k => k.keyword? = some word

/-- The number of words in a command of a kind, the first one included. -/
def arity : CommandKind → Nat
  | .arithmetic | .return => 1
  | .label | .goto | .ifGoto => 2
  | .push | .pop | .function | .call => 3

def hasIndex (k : CommandKind) : Bool := k.arity == 3

end CommandKind

/-! ## Commands -/

/-- The commands. -/
inductive Command where
  | arithmetic (operator : String)
  | push (segment : String) (index : Int)
  | pop (segment : String) (index : Int)
  | label (name : String)
  | goto (label : String)
  | ifGoto (label : String)
  | function (name : String) (localCount : Int)
  | call (name : String) (argumentCount : Int)
  | return
  deriving Repr, DecidableEq

/-- Why a kind and its arguments do not make a command. -/
inductive Misfit where
  /-- A number is missing, or there is one too many. -/
  | number (kind : CommandKind)
  /-- A name is missing, or there is one too many. -/
  | name (kind : CommandKind)
  deriving Repr, DecidableEq

/-- What is told of arguments that do not fit. -/
def Misfit.message : Misfit → String
  | .number kind =>
      kind.title ++ (if kind.hasIndex then " requires" else " does not take") ++
        " a numeric argument"
  | .name kind => kind.title ++ " has an invalid first argument"

namespace Command

def kind : Command → CommandKind
  | .arithmetic _ => .arithmetic
  | .push _ _ => .push
  | .pop _ _ => .pop
  | .label _ => .label
  | .goto _ => .goto
  | .ifGoto _ => .ifGoto
  | .function _ _ => .function
  | .call _ _ => .call
  | .return => .return

def name? : Command → Option String
  | .arithmetic name | .push name _ | .pop name _ | .label name | .goto name | .ifGoto name
  | .function name _ | .call name _ => some name
  | .return => none

/-- The number that a command carries. -/
def index? : Command → Option Int
  | .push _ n | .pop _ n | .function _ n | .call _ n => some n
  | _ => none

/-- The command of a kind with its arguments. A missing or surplus number is noticed first. -/
def ofParts (kind : CommandKind) (name : Option String) (index : Option Int) :
    Except Misfit Command :=
  match kind, name, index with
  | .arithmetic, some a, none => .ok (.arithmetic a)
  | .push, some a, some n => .ok (.push a n)
  | .pop, some a, some n => .ok (.pop a n)
  | .label, some a, none => .ok (.label a)
  | .goto, some a, none => .ok (.goto a)
  | .ifGoto, some a, none => .ok (.ifGoto a)
  | .function, some a, some n => .ok (.function a n)
  | .call, some a, some n => .ok (.call a n)
  | .return, none, none => .ok .return
  | kind, _, index =>
      if kind.hasIndex = index.isSome then .error (.name kind) else .error (.number kind)

/-- The words of a command but for its number. -/
def leadingWords (c : Command) : List String :=
  c.kind.keyword?.toList ++ c.name?.toList

/-- The words of a command as they are written. -/
def words (c : Command) : Except Decimal.Fault (List String) :=
  match c.index? with
  | none => .ok c.leadingWords
  | some n => (Decimal.write n).map fun digits => c.leadingWords ++ [digits]

def render (c : Command) : Except Decimal.Fault String := c.words.map (" ".intercalate ·)

/-- The parts of a command make it up again. -/
theorem ofParts_parts (c : Command) : ofParts c.kind c.name? c.index? = .ok c := by
  cases c <;> rfl

end Command

/-! ## Instructions -/

/-- A command of a program, the place it comes from and its text, empty if it was not read. -/
structure Instruction where
  command : Command
  location : Option Location := none
  text : String := ""
  deriving Repr, DecidableEq

/-- The text of an instruction: as it was read, or as it would be written. -/
def Instruction.render (i : Instruction) : Except Decimal.Fault String :=
  if i.text = "" then i.command.render else .ok i.text

end HackToolchain.Vm
