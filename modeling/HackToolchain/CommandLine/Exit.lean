import HackToolchain.Failure

/-!
# Exit codes

How a tool tells its caller what became of the job. What the user is told depends on whose fault a
failure is: a fault in a source is reported as it is, with its own place; any other failure is
introduced by the name of the job or the word for it.
-/

set_option autoImplicit false

namespace HackToolchain.CommandLine

/-! ## Codes -/

/-- The ways in which a tool ends. -/
inductive ExitCode where
  | success
  /-- The job could not be done on these sources. -/
  | buildError
  /-- The arguments ask for nothing that can be done. -/
  | invalidArguments
  /-- Something failed that nobody expected to fail. -/
  | internalError
  deriving Repr, DecidableEq

namespace ExitCode

def code : ExitCode → Nat
  | .success => 0
  | .buildError => 1
  | .invalidArguments => 2
  | .internalError => 3

def name : ExitCode → String
  | .success => "SUCCESS"
  | .buildError => "BUILD_ERROR"
  | .invalidArguments => "INVALID_ARGS"
  | .internalError => "INTERNAL_ERROR"

end ExitCode

/-! ## Blame -/

/-- Whose fault a failure is. -/
inductive Blame where
  /-- The toolchain found an error of this kind. -/
  | toolchain (kind : ErrorKind)
  /-- A file that was named is not there or may not be used. -/
  | argument
  /-- Anything else. -/
  | unexpected
  deriving Repr, DecidableEq

namespace Blame

/-- What stands before the message of an error without a place. -/
def introduction (job : Option String) : String :=
  match job with
  | none | some "" => "Error: "
  | some job => job ++ " error: "

/-- The exit code for a failure and what the user is told, from the message of the failure and the
name of the job. -/
def describe (b : Blame) (message : String) (job : Option String := none) : ExitCode × String :=
  match b with
  | .toolchain kind =>
    if kind.isA .translatorInput then (.invalidArguments, message)
    else if kind.isA .located then (.buildError, message)
    else (.buildError, introduction job ++ message)
  | .argument => (.invalidArguments, "Error: " ++ message)
  | .unexpected => (.internalError, "Internal error: " ++ message)

end Blame

/-- Whose fault a failure is. -/
def blame (f : Failure) : Blame :=
  match f.kind? with
  | some kind => .toolchain kind
  | none =>
    match f with
    | .missing _ | .file (.noSuchFile _) => .argument
    | _ => .unexpected

/-- The exit code for a failure of a job and what the user is told. -/
def describeFailure (f : Failure) (job : Option String := none) : ExitCode × String :=
  (blame f).describe f.message job

end HackToolchain.CommandLine
