import HackToolchain.Text.Quoted
import HackToolchain.Text.Utf8
import HackToolchain.Vm.Fault

/-!
# What can stop code generation
-/

set_option autoImplicit false

namespace HackToolchain.Codegen

open Text

/-- Why no code comes out. -/
inductive Fault where
  /-- A command has no code. -/
  | command (fault : Vm.Fault)
  /-- No module can be named like that. -/
  | moduleName (name : String)
  /-- Code was to be written after the end. -/
  | closed
  /-- A source is not UTF-8. -/
  | undecodable (fault : Utf8.Fault)
  deriving Repr, DecidableEq

def Fault.message : Fault → String
  | .command f => f.message
  | .moduleName name => "invalid module name: " ++ quoted name
  | .closed => "emitter is closed"
  | .undecodable f => f.message

end HackToolchain.Codegen
