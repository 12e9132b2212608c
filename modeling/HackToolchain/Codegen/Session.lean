import HackToolchain.Journal
import HackToolchain.Text.Utf8
import HackToolchain.Codegen.Emitter
import HackToolchain.Vm.Line

/-!
# Translating a module

A session is an emitter at work together with the journal of what it did. A module is translated by
entering it and writing its commands line by line, each as soon as it is read: the first line that
is rejected, by the reader or for want of code, ends the module, and what was written for the lines
before it stays.
-/

set_option autoImplicit false

namespace HackToolchain.Codegen

open Text Vm

/-- An emitter and the journal of its work. -/
structure Session where
  emitter : Emitter := {}
  journal : Journal := #[]
  deriving Repr, DecidableEq

namespace Session

/-- Notes something down. -/
def note (s : Session) (e : Entry) : Session := { s with journal := s.journal.push e }

def enterModule (s : Session) (name : String) : Except Fault Unit × Session :=
  let (outcome, emitter) := s.emitter.enterModule name
  let s := { s with emitter }
  match outcome with
  | .ok () => (.ok (), s.note (.moduleEntered (s.emitter.module.getD "")))
  | .error f => (.error f, s)

/-- A session with a new emitter, in a module if one is named. -/
def start (moduleName : Option String := none) (counters : Counters := {})
    (comments : Bool := true) : Except Fault Session :=
  match Emitter.start moduleName counters comments with
  | .error f => .error f
  | .ok emitter => .ok { emitter, journal := (emitter.module.map Entry.moduleEntered).toArray }

/-- Writes what is asked for. -/
def write (s : Session) (r : Request) : Except Fault Unit × Session :=
  let (outcome, emitter) := s.emitter.write r
  (outcome, { s with emitter })

/-- Translates a line of a source: reads it and writes its command. Says whether there was one. -/
def writeLine (s : Session) (file : String) (number : Nat) (line : String) :
    Except Fault Bool × Session :=
  match readLine file number line with
  | .error f => (.error (.command f), s)
  | .ok none => (.ok false, s)
  | .ok (some i) =>
    -- The command was read whether or not there is code for it.
    match (s.note (.commandRead i)).write (.instruction i) with
    | (.ok (), s) => (.ok true, s)
    | (.error f, s) => (.error f, s)

/-- Translates lines up to the first that is rejected; `number` lines came before them, with `count`
commands. Gives the number of commands with those. -/
def writeLines (file : String) (number count : Nat) (s : Session) :
    List String → Except Fault Nat × Session
  | [] => (.ok count, s)
  | line :: rest =>
    match s.writeLine file (number + 1) line with
    | (.error f, s) => (.error f, s)
    | (.ok found, s) => writeLines file (number + 1) (if found then count + 1 else count) s rest

/-- Translates a module and gives the number of its commands. Without a name of its own, the source
is named after the module. -/
def translateModule (s : Session) (source : Utf8.Stream) (moduleName : String)
    (file : Option String := none) : Except Fault Nat × Session :=
  match s.enterModule moduleName with
  | (.error f, s) => (.error f, s)
  | (.ok (), s) =>
    let module := s.emitter.module.getD ""
    let file :=
      match file with
      | none | some "" => module ++ ".vm"
      | some name => name
    -- The lines before a fault of the source are translated before the fault is told.
    match writeLines file 0 0 s source.lines with
    | (.error f, s) => (.error f, s)
    | (.ok count, s) =>
      match source.fault with
      | some f => (.error (.undecodable f), s)
      | none => (.ok count, s.note (.moduleTranslated module count))

end Session

end HackToolchain.Codegen
