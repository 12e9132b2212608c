import HackToolchain.Asm.Files
import HackToolchain.Asm.Image
import HackToolchain.CommandLine.Outcome

/-!
# The assembler's command line

`hackasm` assembles a file and writes the image and, on request, a listing of its symbols. The image
is written before the listing, and stays if the listing cannot be written.
-/

set_option autoImplicit false

namespace HackToolchain.CommandLine

open Asm

/-- The settings of an assembly. -/
structure AssembleSettings where
  verbose : Bool := false
  deriving Repr, DecidableEq

/-- The options of the assembler. -/
def assembleGrammar : Grammar AssembleSettings :=
  [{ long := "output", letter := some 'o', effect := .value (.output "output") },
    { long := "symbols", letter := some 's', effect := .value (.output "symbols") },
    { long := "verbose", letter := some 'v',
      effect := .flag fun s => { s with verbose := true } }] ++
    commonOptions

/-- What is said about the result. -/
def assemblySummary (p : Assembly) : String :=
  "Assembly complete: " ++ toString p.words.size ++ " words, " ++ toString p.labels.size ++
    " labels, " ++ toString p.vars.size ++ " variables"

/-- The file that the image of a source is written to by default. -/
def defaultImage (input : Path) : Except Failure Path :=
  match input.withSuffix? ".hack" with
  | some out => .ok out
  | none => .error (.nameless input)

def writeListing (w : Workspace) (p : Assembly) : Option Path → Except Failure Workspace
  | none => .ok w
  | some path =>
    match w.write path p.listing with
    | .ok w => .ok w
    | .error e => .error (.file e)

def assembleInput (s : AssembleSettings) (w : Workspace) (input out : Path)
    (symbols : Option Path) : Outcome :=
  let job := "Assembly"
  let said (line : String) := if s.verbose then [line] else []
  let before := said ("Assembling " ++ input.render ++ "...")
  match assembleFile w input with
  | (.error f, journal) => .failed w s.verbose journal before job f
  | (.ok p, journal) =>
    match w.write out p.image with
    | .error e => .failed w s.verbose journal before job (.file e)
    | .ok w =>
      match writeListing w p symbols with
      | .error f => .failed w s.verbose journal before job f
      | .ok w =>
        let listed := symbols.toList.flatMap fun path => said ("Wrote symbols to " ++ path.render)
        .done w s.verbose journal
          (before ++ listed ++ said (assemblySummary p) ++
            ["Assembled " ++ input.render ++ " -> " ++ out.render])

def runAssemble (i : Invocation) : Outcome :=
  let w := i.workspace
  let tool := "hackasm"
  let usage := usageLine tool "[OPTIONS] INPUT_FILE"
  match readArguments assembleGrammar {} i.arguments with
  | .error m => .refused w usage m
  | .ok (.tell n) => .told w (noticeLines tool usage n)
  | .ok (.work s outputs operands) =>
    match acceptPaths w false outputs operands with
    | .error m => .refused w usage m
    | .ok input =>
      let out := (outputPath? outputs "output").map Except.ok |>.getD (defaultImage input)
      match out with
      | .error f => .failed w s.verbose #[] [] "Assembly" f
      | .ok out => assembleInput s w input out (outputPath? outputs "symbols")

end HackToolchain.CommandLine
