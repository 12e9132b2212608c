import HackToolchain.Journal
import HackToolchain.Text.Blank
import HackToolchain.Text.LetterCase

/-!
# Options

How a program is translated, and how the environment may change it. A setting of the environment is
read regardless of case and of blanks around it; one that is neither yes nor no changes nothing and
is noted down.
-/

set_option autoImplicit false

namespace HackToolchain.Codegen

open Text

/-- How a program is to be translated. -/
structure Options where
  /-- Whether to start with bootstrap code; undecided, it depends on the input. -/
  bootstrap : Option Bool := none
  /-- Whether each command is preceded by its text. -/
  comments : Bool := true
  /-- The function that the bootstrap code calls. -/
  entry : String := "Sys.init"
  /-- The first cell of the stack. -/
  stackBase : Int := 256
  deriving Repr, DecidableEq

/-- The environment: settings by name. -/
abbrev Environment := List (String × String)

/-- The value of a setting, if it is set. -/
def Environment.get? (env : Environment) (name : String) : Option String :=
  (env.find? fun e => e.1 = name).map (·.2)

def yesWords : List String := ["1", "true", "yes", "on"]

def noWords : List String := ["0", "false", "no", "off"]

/-- Reads a setting that is yes or no. -/
def readFlag (env : Environment) (name : String) (journal : Journal) : Option Bool × Journal :=
  match env.get? name with
  | none => (none, journal)
  | some value =>
    let word := String.ofList (lower (trim value.toList))
    if word ∈ yesWords then (some true, journal)
    else if word ∈ noWords then (some false, journal)
    else (none, journal.push (.settingIgnored name word))

/-- The options that an environment asks for. -/
def Options.ofEnvironment (env : Environment) (journal : Journal := #[]) : Options × Journal :=
  let (bootstrap, journal) := readFlag env "HACKVM_BOOTSTRAP" journal
  let (comments, journal) := readFlag env "HACKVM_COMMENTS" journal
  let plain : Options := {}
  let entry :=
    match env.get? "HACKVM_ENTRY" with
    | none | some "" => plain.entry
    | some name => name
  ({ plain with bootstrap, comments := comments.getD plain.comments, entry }, journal)

end HackToolchain.Codegen
