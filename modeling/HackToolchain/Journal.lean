import HackToolchain.Files.Path
import HackToolchain.Text.Quoted
import HackToolchain.Vm.Command

/-!
# The journal

What the toolchain notes down while it works: one entry for everything of interest, each with a
level, the part of the toolchain that it comes from, and a text. Entries are collected in the order
in which things happen; which of them are shown depends on their level.
-/

set_option autoImplicit false

namespace HackToolchain

open Text Vm

/-- The levels of entries, from details to matters that the user should know of. -/
inductive Level where
  | debug
  | info
  | warning
  deriving Repr, DecidableEq

namespace Level

def name : Level → String
  | .debug => "DEBUG"
  | .info => "INFO"
  | .warning => "WARNING"

def weight : Level → Nat
  | .debug => 0
  | .info => 1
  | .warning => 2

end Level

/-- What is noted down. -/
inductive Entry where
  /-- Commands belong to this module from now on. -/
  | moduleEntered (module : String)
  /-- A command has been read. -/
  | commandRead (i : Instruction)
  | moduleTranslated (module : String) (commands : Nat)
  | readingFile (path : Path)
  | assemblyWritten (lines : Nat) (path : Path)
  /-- A setting has a value that makes no sense. -/
  | settingIgnored (name value : String)
  | assembled (file : String) (words labels vars : Nat)
  | programLoaded (words : Nat)
  /-- A run has ended elsewhere than it should. -/
  | stopped (pc cycles : Nat)
  deriving Repr, DecidableEq

namespace Entry

def level : Entry → Level
  | .moduleTranslated _ _ | .assemblyWritten _ _ => .info
  | .settingIgnored _ _ => .warning
  | _ => .debug

def source : Entry → String
  | .moduleEntered _ => "hackvm.translator.emitter"
  | .commandRead _ => "hackvm.translator.reader"
  | .moduleTranslated _ _ | .readingFile _ | .assemblyWritten _ _ | .settingIgnored _ _ =>
      "hackvm.translator.translator"
  | .assembled _ _ _ _ => "hackvm.assembler.assembler"
  | .programLoaded _ | .stopped _ _ => "hackvm.emulator.emulator"

def message : Entry → String
  | .moduleEntered module => "Module context: " ++ module
  | .commandRead i =>
      (match i.location with
        | some l => l.render
        | none => "None") ++ ": " ++ i.command.kind.title ++ " " ++ i.text
  | .moduleTranslated module commands =>
      "Translated module " ++ module ++ ": " ++ toString commands ++ " commands"
  | .readingFile path => "Reading " ++ path.render
  | .assemblyWritten lines path => "Wrote " ++ toString lines ++ " lines to " ++ path.render
  | .settingIgnored name value =>
      "Ignoring " ++ name ++ "=" ++ quoted value ++ ": expected a boolean"
  | .assembled file words labels vars =>
      "Assembled " ++ file ++ ": " ++ toString words ++ " words, " ++ toString labels ++
        " labels, " ++ toString vars ++ " variables"
  | .programLoaded words => "Loaded " ++ toString words ++ " words"
  | .stopped pc cycles =>
      "Stopped at PC=" ++ toString pc ++ " after " ++ toString cycles ++ " cycles"

def isShown (threshold : Level) (e : Entry) : Bool := threshold.weight ≤ e.level.weight

/-- An entry as a line, without its end. -/
def render (e : Entry) : String := e.level.name ++ " " ++ e.source ++ ": " ++ e.message

end Entry

/-- The entries so far, in order. -/
abbrev Journal := Array Entry

end HackToolchain
