import HackToolchain.CommandLine.Arguments
import HackToolchain.CommandLine.Exit
import HackToolchain.Journal
import HackToolchain.Text.Escapes
import HackToolchain.Text.Lines
import HackToolchain.Codegen.Options

/-!
# Runs of a tool

What a run of a tool starts from and what it leaves behind: the two texts that it prints, the files,
and the exit code. The tools have in common how they are told to be verbose, what they print, and
which paths they accept.
-/

set_option autoImplicit false

namespace HackToolchain.CommandLine

open Text

def version : String := "1.0.0"

/-- What a run starts from. -/
structure Invocation where
  arguments : List String
  environment : Codegen.Environment := []
  workspace : Workspace := {}

/-- What a run leaves behind. -/
structure Outcome where
  exitCode : ExitCode := .success
  /-- Why the arguments were refused, if they were. -/
  misuse : Option Misuse := none
  output : String := ""
  errors : String := ""
  workspace : Workspace

/-! ## Printing -/

/-- Lines as they are printed, without terminal escapes. -/
def printed (lines : List String) : String :=
  String.join (lines.map fun l => String.ofList (withoutEscapes l.toList) ++ "\n")

/-- The level from which on entries of the journal are shown. -/
def threshold (verbose : Bool) : Level := if verbose then .debug else .warning

def shownEntries (verbose : Bool) (journal : Journal) : String :=
  String.join
    ((journal.toList.filter (Entry.isShown (threshold verbose))).map fun e => e.render ++ "\n")

namespace Outcome

/-- The arguments of a tool were refused. A null character in a path ends a run without a word. -/
def refused (w : Workspace) (usage : String) : Misuse → Outcome
  | .nullCharacter => { exitCode := .buildError, workspace := w }
  | m =>
    let reminder := if m.callsForUsage then [usage] else []
    { exitCode := .invalidArguments, misuse := some m,
      errors := printed (reminder ++ ["Error: " ++ m.message]), workspace := w }

/-- Something was told instead of working. -/
def told (w : Workspace) (lines : List String) : Outcome :=
  { output := printed lines, workspace := w }

/-- The job was done. -/
def done (w : Workspace) (verbose : Bool) (journal : Journal) (lines : List String) : Outcome :=
  { output := printed lines, errors := shownEntries verbose journal, workspace := w }

/-- The job failed after some lines had been printed. -/
def failed (w : Workspace) (verbose : Bool) (journal : Journal) (lines : List String)
    (job : String) (f : Failure) : Outcome :=
  let (code, text) := describeFailure f (some job)
  { exitCode := code, output := printed lines,
    errors := shownEntries verbose journal ++ printed [text], workspace := w }

/-- The run reminded its user of how the tool is used. -/
def isUsageReminder (o : Outcome) : Bool := o.misuse.any Misuse.callsForUsage

/-- The output as it is read back: a carriage return and the newline after it are one line end. -/
def outputText (o : Outcome) : String := String.ofList (unifyPairs o.output.toList)

/-- The errors as they are read back: a carriage return and the newline after it are one line
end. -/
def errorText (o : Outcome) : String := String.ofList (unifyPairs o.errors.toList)

end Outcome

/-- How a tool is used. -/
def usageLine (tool arguments : String) : String := "Usage: " ++ tool ++ " " ++ arguments

/-- What is told on request of a tool. -/
def noticeLines (tool usage : String) : Notice → List String
  | .version => [tool ++ ", version " ++ version]
  | .help => [usage]

/-! ## Paths on the command line -/

/-- A path as it is written can only mean a directory: it ends in a stroke or a single dot. -/
def demandsDirectory (s : String) : Bool :=
  match s.toList.reverse with
  | '/' :: _ | '.' :: '/' :: _ | ['.'] => true
  | _ => false

/-- Where a path as it is written leads to. -/
def writtenSpot (w : Workspace) (s : String) : FileTree.Spot :=
  if s = "" then .missing
  else
    match FileTree.spotOfText? s, w.spot (Path.ofString s) with
    | some spot, _ => spot
    | none, .directory place => .directory place
    | none, spot => if demandsDirectory s then .missing else spot

/-- Accepts the path of an input, which must be there; a directory only if it may be one. -/
def acceptInput (w : Workspace) (directories : Bool) (s : String) : Except Misuse Path :=
  match writtenSpot w s with
  | .directory _ => if directories then .ok (Path.ofString s) else .error (.isDirectory s)
  | .file _ _ => .ok (Path.ofString s)
  | .vacant _ | .missing | .blocked | .tooLong => .error (.noSuchPath s)
  | .nowhere => .error .nullCharacter

/-- Accepts the path of an output, which must be no directory. -/
def acceptOutput (w : Workspace) (s : String) : Except Misuse Unit :=
  match writtenSpot w s with
  | .directory _ => .error (.isDirectory s)
  | .nowhere => .error .nullCharacter
  | _ => .ok ()

/-- Accepts the operands of a tool that works on one input. -/
def acceptOperands (w : Workspace) (directories : Bool) : List String → Except Misuse Path
  | [] => .error .missingOperand
  | [operand] => acceptInput w directories operand
  | operand :: surplus => do
    let _ ← acceptInput w directories operand
    .error (.surplusOperands surplus)

/-- Accepts the paths on the command line of a tool that works on one input: the outputs in their
order, then the input. That there are too many operands is noticed last. -/
def acceptPaths (w : Workspace) (directories : Bool) (outputs : Table String)
    (operands : List String) : Except Misuse Path := do
  outputs.toList.forM fun (_, s) => acceptOutput w s
  acceptOperands w directories operands

/-- The path of an output, if one was given. -/
def outputPath? (outputs : Table String) (name : String) : Option Path :=
  (outputs.find? name).map Path.ofString

end HackToolchain.CommandLine
