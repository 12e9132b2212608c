import HackToolchain.Asm.Assembly
import HackToolchain.Failure
import HackToolchain.Journal

/-!
# Assembling files
-/

set_option autoImplicit false

namespace HackToolchain.Asm

open Text

def Assembly.entry (p : Assembly) (file : String) : Entry :=
  .assembled file p.words.size p.labels.size p.vars.size

def assembleNoted (source : String) (file : String := "<input>")
    (variableBase : Int := defaultVariableBase) (journal : Journal := #[]) :
    Except Fault Assembly × Journal :=
  match assemble source file variableBase with
  | .error f => (.error f, journal)
  | .ok p => (.ok p, journal.push (p.entry file))

def assembleFile (w : Workspace) (p : Path) (journal : Journal := #[]) :
    Except Failure Assembly × Journal :=
  match w.exists? p with
  | .error e => (.error (.file e), journal)
  | .ok false => (.error (.missing (.assembly p)), journal)
  | .ok true =>
    match w.read p with
    | .error e => (.error (.file e), journal)
    | .ok content =>
      match Utf8.readText content.data.toList with
      | .error f => (.error (.undecodable f), journal)
      | .ok source =>
        let (outcome, journal) := assembleNoted source p.render defaultVariableBase journal
        (outcome.mapError .assembly, journal)

end HackToolchain.Asm
