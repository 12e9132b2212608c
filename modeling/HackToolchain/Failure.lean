import HackToolchain.Asm.Fault
import HackToolchain.Files.Tree
import HackToolchain.Machine.Error
import HackToolchain.Codegen.Fault

/-!
# Failures

Everything that can make a job of the toolchain fail: a fault of the translator or the assembler, an
error on the machine, an input that is not there or not fit, a file that cannot be read or written.
-/

set_option autoImplicit false

namespace HackToolchain

open Text

/-- Why there is nothing to translate. -/
inductive InputError where
  /-- No files were given. -/
  | noFiles
  /-- A directory has no sources. -/
  | noSources (directory : Path)
  /-- A file has another suffix than sources have. -/
  | wrongSuffix (suffix : String)
  deriving Repr, DecidableEq

namespace InputError

def message : InputError → String
  | .noFiles => "no VM files to translate"
  | .noSources directory => "no .vm files found in directory: " ++ directory.render
  | .wrongSuffix suffix => "invalid file extension '" ++ suffix ++ "': expected .vm"

def hint : InputError → Option String
  | .wrongSuffix _ => some "pass a .vm file or a directory containing .vm files"
  | .noFiles | .noSources _ => none

/-- The report of an input that is not fit. -/
def report (e : InputError) : Report := { message := e.message, hint := e.hint }

end InputError

/-- A file that was named and is not there. -/
inductive MissingFile where
  /-- An input to discover sources in. -/
  | input (path : Path)
  /-- A source to translate. -/
  | source (path : Path)
  /-- A source to assemble. -/
  | assembly (path : Path)
  deriving Repr, DecidableEq

def MissingFile.message : MissingFile → String
  | .input p => "input not found: " ++ p.render
  | .source p => "VM file not found: " ++ p.render
  | .assembly p => "Source file not found: " ++ p.render

/-- Why a job failed. -/
inductive Failure where
  | codegen (fault : Codegen.Fault)
  | assembly (fault : Asm.Fault)
  | machine (error : Machine.Error)
  | input (error : InputError)
  | missing (file : MissingFile)
  | file (error : FileError)
  /-- A file to be read at once is not UTF-8. -/
  | undecodable (fault : Utf8.Fault)
  /-- A path without a last name was to get another suffix. -/
  | nameless (path : Path)
  deriving Repr, DecidableEq

namespace Failure

def message : Failure → String
  | .codegen f => f.message
  | .assembly f => f.message
  | .machine e => e.message
  | .input e => e.report.render
  | .missing f => f.message
  | .file e => e.message
  | .undecodable f => f.message
  | .nameless p => "PosixPath(" ++ quoted p.render ++ ") has an empty name"

/-- Why the report of a failure cannot be written, if it cannot. -/
def shortage? : Failure → Option Shortage
  | .codegen (.command (.rejected e)) => (e.report Vm.Cause.message Vm.Cause.hint).shortage?
  | .assembly (.rejected e) => (e.report Asm.Cause.message Asm.Cause.hint).shortage?
  | _ => none

/-- The kind of error of a failure that the toolchain itself found. -/
def kind? : Failure → Option ErrorKind
  | .codegen (.command (.rejected e)) => some e.cause.kind
  | .assembly (.rejected e) => some e.cause.kind
  | .machine e => some e.kind
  | .input _ => some .translatorInput
  | _ => none

end Failure

end HackToolchain
