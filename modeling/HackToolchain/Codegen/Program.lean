import HackToolchain.Codegen.Options
import HackToolchain.Codegen.Session

/-!
# Translating a program

A program is translated module by module through one emitter, after bootstrap code if it is wanted.
With comments, a headline announces each module.
-/

set_option autoImplicit false

namespace HackToolchain.Codegen

open Text

/-- A source to translate: the name of its module, its text, and where it comes from if that is
known; a file is opened just before it is read. -/
structure SourceUnit where
  moduleName : String
  source : Utf8.Stream
  path : Option Path := none
  deriving Repr, DecidableEq

/-- The result of translating a program. -/
structure Result where
  /-- The assembly. -/
  assembly : String := ""
  /-- The modules in order. -/
  modules : List String := []
  /-- The number of commands. -/
  instructionCount : Nat := 0
  /-- The number of lines of assembly. -/
  lineCount : Nat := 0
  /-- Whether it begins with bootstrap code. -/
  bootstrapped : Bool := false
  /-- The file that the assembly was written to, if it was. -/
  outputPath : Option Path := none
  deriving Repr, DecidableEq

namespace Session

/-- Translates one source of a program, after its headline if comments are on. -/
def translateUnit (s : Session) (u : SourceUnit) : Except Fault Nat × Session :=
  let s :=
    match u.path with
    | some path => s.note (.readingFile path)
    | none => s
  let (headline, s) :=
    if s.emitter.scope.comments then s.write (.comment ("=== " ++ u.moduleName ++ ".vm ==="))
    else (.ok (), s)
  match headline with
  | .error f => (.error f, s)
  | .ok () => s.translateModule u.source u.moduleName (u.path.map Path.render)

/-- Translates sources up to the first that stops. `modules` and `count` tell what came before
them, the last module first. -/
def translateUnits (modules : List String) (count : Nat) (s : Session) :
    List SourceUnit → Except Fault (List String × Nat) × Session
  | [] => (.ok (modules.reverse, count), s)
  | u :: rest =>
    match s.translateUnit u with
    | (.error f, s) => (.error f, s)
    | (.ok n, s) => translateUnits (s.emitter.module.getD "" :: modules) (count + n) s rest

end Session

/-- Translates the sources of a program. What happened is added to the journal. -/
def translateProgram (options : Options) (bootstrap : Bool) (units : List SourceUnit)
    (journal : Journal := #[]) : Except Fault Result × Journal :=
  let s : Session := { emitter := { scope := { comments := options.comments } }, journal }
  let (started, s) :=
    if bootstrap then s.write (.bootstrap options.entry options.stackBase) else (.ok (), s)
  match started with
  | .error f => (.error f, s.journal)
  | .ok () =>
    match Session.translateUnits [] 0 s units with
    | (.error f, s) => (.error f, s.journal)
    | (.ok (modules, count), s) =>
      (.ok
        { assembly := s.emitter.text, modules, instructionCount := count,
          lineCount := s.emitter.lineCount, bootstrapped := bootstrap },
        s.journal)

/-- Translates a text as a program of one module. Bootstrap code is written if this call or else the
options ask for it. -/
def translateSource (options : Options) (source : String) (moduleName : String := "Main")
    (bootstrap : Option Bool := none) (journal : Journal := #[]) :
    Except Fault Result × Journal :=
  translateProgram options (bootstrap.getD (options.bootstrap.getD false))
    [{ moduleName, source := .ofString source }] journal

end HackToolchain.Codegen
