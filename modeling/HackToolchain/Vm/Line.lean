import HackToolchain.Text.Blank
import HackToolchain.Text.Similarity
import HackToolchain.Vm.Fault

/-!
# Reading a line

A line of a program holds one command at most. It is cut at its first `//`, its words are taken, and
the first of them decides which command it must be: an operator stands alone, a keyword has as many
words after it as its kind takes, and where a number is expected the last word must be a numeral.
-/

set_option autoImplicit false

namespace HackToolchain.Vm

open Text

/-- Every word that may start a command. -/
def vocabulary : List String :=
  CommandKind.keywordKinds.filterMap CommandKind.keyword? ++ Operator.all.map Operator.name

def kindOfWord? (word : String) : Option CommandKind :=
  match Operator.ofName? word with
  | some _ => some .arithmetic
  | none => CommandKind.ofKeyword? word

/-- Reads the number at the end of a command that starts with `word`. -/
def readIndex (word token : String) : Except Fault Nat :=
  if Decimal.isNumeral token.toList then
    match Decimal.read token.toList with
    | .ok n => .ok n
    | .error f => .error (.number f)
  else .error (Cause.invalidIndex word token).fault

/-- Reads the arguments of a command of a kind that starts with `word`. -/
def readArguments (kind : CommandKind) (word : String) (args : List String) :
    Except Fault Command :=
  match kind, args with
  | .arithmetic, [] => .ok (.arithmetic word)
  | .return, [] => .ok .return
  | .label, [name] => .ok (.label name)
  | .goto, [name] => .ok (.goto name)
  | .ifGoto, [name] => .ok (.ifGoto name)
  | .push, [name, token] => (readIndex word token).map fun n => .push name n
  | .pop, [name, token] => (readIndex word token).map fun n => .pop name n
  | .function, [name, token] => (readIndex word token).map fun n => .function name n
  | .call, [name, token] => (readIndex word token).map fun n => .call name n
  | kind, args => .error (Cause.wrongArgumentCount word (kind.arity - 1) args.length).fault

def readWords : List String → Except Fault (Option Command)
  | [] => .ok none
  | word :: args =>
    match kindOfWord? word with
    | none => .error (Cause.unknownCommand word (Similarity.closeWords word vocabulary)).fault
    | some kind => (readArguments kind word args).map some

/-- The words of a line that belong to its command. -/
def commandWords (line : String) : List String :=
  (words (content line.toList)).map String.ofList

/-- Reads a line that stands at a place, if it is known. The result is the instruction on it, or
none if the line is blank but for a comment. -/
def parseLine (line : String) (location : Option Location := none) :
    Except Fault (Option Instruction) :=
  let ws := commandWords line
  match readWords ws with
  | .ok none => .ok none
  | .ok (some command) => .ok (some { command, location, text := " ".intercalate ws })
  | .error (.rejected e) =>
      .error (.rejected { e with location, sourceLine := some (String.ofList (chomp line.toList)) })
  | .error (.number f) => .error (.number f)

/-- The place of the first word of a line of a source. -/
def locationOfLine (file : String) (number : Nat) (line : String) : Location :=
  { file, line := number, column := firstColumn line.toList }

/-- Reads a line of a source, whose lines are counted from one. -/
def readLine (file : String) (number : Nat) (line : String) :
    Except Fault (Option Instruction) :=
  parseLine line (some (locationOfLine file number line))

end HackToolchain.Vm
