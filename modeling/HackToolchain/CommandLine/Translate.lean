import HackToolchain.CommandLine.Outcome
import HackToolchain.Codegen.Sources

/-!
# The translator's command line

`vmtranslate` translates a file or a directory and writes the assembly. The environment gives the
defaults, and the arguments have the last word.
-/

set_option autoImplicit false

namespace HackToolchain.CommandLine

open Codegen

/-- The settings of the translator. -/
structure TranslateSettings where
  bootstrap : Option Bool := none
  comments : Option Bool := none
  entry : Option String := none
  verbose : Bool := false
  deriving Repr, DecidableEq

/-- The options of the translator. -/
def translateGrammar : Grammar TranslateSettings :=
  [{ long := "output", letter := some 'o', effect := .value (.output "output") },
    { long := "bootstrap", effect := .flag fun s => { s with bootstrap := some true } },
    { long := "no-bootstrap", effect := .flag fun s => { s with bootstrap := some false } },
    { long := "comments", effect := .flag fun s => { s with comments := some true } },
    { long := "no-comments", effect := .flag fun s => { s with comments := some false } },
    { long := "entry", letter := some 'e',
      effect := .value (.setting fun v s => { s with entry := some v }) },
    { long := "verbose", letter := some 'v',
      effect := .flag fun s => { s with verbose := true } }] ++
    commonOptions

namespace TranslateSettings

/-- The options that result if the settings have the last word; an empty entry sets
nothing. -/
def override (s : TranslateSettings) (o : Options) : Options where
  bootstrap := s.bootstrap.or o.bootstrap
  comments := s.comments.getD o.comments
  entry :=
    match s.entry with
    | none | some "" => o.entry
    | some name => name
  stackBase := o.stackBase

end TranslateSettings

/-- What is said about the sources before they are translated. -/
def announcement (input : Path) (sources : List Path) : List String :=
  ("Translating " ++ toString sources.length ++ " module(s) from " ++ input.render ++ ":") ::
    sources.map fun p => "  - " ++ p.name

/-- What is said about the result. -/
def resultSummary (r : Result) : List String :=
  ["Translated " ++ toString r.instructionCount ++ " commands " ++
      (if r.bootstrapped then "with" else "without") ++ " bootstrap code",
    "Wrote " ++ toString r.lineCount ++ " lines"]

/-- The last line if all went well. -/
def translatedLine (input : Path) (r : Result) : String :=
  "Translated " ++ input.render ++ " -> " ++
    (match r.outputPath with
      | some out => out.render
      | none => "None")

def translateInput (s : TranslateSettings) (environment : Environment) (w : Workspace)
    (input : Path) (output : Option Path) : Outcome :=
  let job := "Translation"
  let (plain, journal) := Options.ofEnvironment environment
  let announced :=
    if s.verbose then (discover w input).map (announcement input) else .ok []
  match announced with
  | .error f => .failed w s.verbose journal [] job f
  | .ok before =>
    match translateToFile w (s.override plain) input output journal with
    | (.error f, w, journal) => .failed w s.verbose journal before job f
    | (.ok r, w, journal) =>
      let summary := if s.verbose then resultSummary r else []
      .done w s.verbose journal (before ++ summary ++ [translatedLine input r])

def runTranslate (i : Invocation) : Outcome :=
  let w := i.workspace
  let tool := "vmtranslate"
  let usage := usageLine tool "[OPTIONS] INPUT_PATH"
  match readArguments translateGrammar {} i.arguments with
  | .error m => .refused w usage m
  | .ok (.tell n) => .told w (noticeLines tool usage n)
  | .ok (.work s outputs operands) =>
    match acceptPaths w true outputs operands with
    | .error m => .refused w usage m
    | .ok input => translateInput s i.environment w input (outputPath? outputs "output")

end HackToolchain.CommandLine
