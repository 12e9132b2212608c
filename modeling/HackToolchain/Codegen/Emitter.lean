import HackToolchain.Files.Path
import HackToolchain.Codegen.Fault
import HackToolchain.Codegen.Lowering

/-!
# Emitters

An emitter collects the code of a program command by command. It knows the current module, which
owns static cells and labels, and two counters that keep generated labels apart; the counters run on
over all modules.

A command is one unit. Its code is drafted first, together with the counters after it; only a draft
that has been completed, all of whose lines can be written, changes the emitter. A closed emitter
takes no more code. It notices that when a completed draft arrives, so the counters have moved.
Where the text goes is no part of an emitter: an open one takes all that is written.
-/

set_option autoImplicit false

namespace HackToolchain.Codegen

open Text Vm

/-! ## Drafts -/

/-- The numbers that the next comparison and the next call get. -/
structure Counters where
  comparisons : Int := 0
  calls : Int := 0
  deriving Repr, DecidableEq

/-- Code that is ready to be written, and the counters after it. -/
structure Draft where
  code : Code
  counters : Counters
  deriving Repr, DecidableEq

/-- What an emitter can be asked to write. -/
inductive Request where
  | operator (name : String)
  /-- A push or a pop, as the kind says. -/
  | move (kind : CommandKind) (segment : String) (index : Int)
  | label (name : String)
  | goto (label : String)
  | ifGoto (label : String)
  | function (name : String) (localCount : Int)
  | call (name : String) (argumentCount : Int)
  | return
  /-- Sets the stack pointer and calls a function. -/
  | bootstrap (entry : String) (stackBase : Int)
  | comment (text : String)
  /-- A command with its place and text. -/
  | instruction (i : Instruction)
  deriving Repr, DecidableEq

/-- What code depends on besides the request: the current module, and whether each command is to be
preceded by its text. -/
structure Scope where
  module : Option String := none
  comments : Bool := true
  deriving Repr, DecidableEq

namespace Scope

/-- A draft that leaves the counters alone. -/
def plain (counters : Counters) (code : Code) : Draft := { code, counters }

def draftOperator (counters : Counters) (name : String) : Except Vm.Fault Draft :=
  match Operator.ofName? name with
  | none => .error (Cause.unknownOperator name).fault
  | some op =>
    let next := counters.comparisons + (if op.isComparison then 1 else 0)
    .ok { code := operatorCode op counters.comparisons,
          counters := { counters with comparisons := next } }

def draftCall (s : Scope) (counters : Counters) (name : String) (argumentCount : Int) : Draft where
  code := callCode s.module counters.calls name argumentCount
  counters := { counters with calls := counters.calls + 1 }

def draftCommand (s : Scope) (counters : Counters) : Command → Except Vm.Fault Draft
  | .arithmetic name => draftOperator counters name
  | .push segment index => (moveCode s.module .push segment index).map (plain counters)
  | .pop segment index => (moveCode s.module .pop segment index).map (plain counters)
  | .label name => .ok (plain counters (labelCode s.module name))
  | .goto name => .ok (plain counters (gotoCode s.module name))
  | .ifGoto name => .ok (plain counters (ifGotoCode s.module name))
  | .function name n => .ok (plain counters (functionCode name n))
  | .call name n => .ok (s.draftCall counters name n)
  | .return => .ok (plain counters returnCode)

/-- Puts a comment in front of a draft, if comments are wanted. -/
def annotate (s : Scope) (text : String) (d : Draft) : Draft :=
  if s.comments then { d with code := .comment text :: d.code } else d

/-- Drafts the bootstrap code, with its comment. The stack base has to be written in the comment
first. -/
def draftBootstrap (s : Scope) (counters : Counters) (entry : String) (stackBase : Int) :
    Except Vm.Fault Draft :=
  let d : Draft :=
    { code := bootstrapCode s.module counters.calls entry stackBase,
      counters := { counters with calls := counters.calls + 1 } }
  if Decimal.fits stackBase then
    .ok (s.annotate
      ("bootstrap: SP=" ++ Decimal.render stackBase ++ "; call " ++ entry ++ " 0") d)
  else .error (.number .tooLongToWrite)

/-- Drafts an instruction, with its text as a comment. If the command is rejected, the instruction
tells where. -/
def draftInstruction (s : Scope) (counters : Counters) (i : Instruction) :
    Except Vm.Fault Draft :=
  let draft :=
    (s.draftCommand counters i.command).mapError
      (·.locate i.location (if i.text = "" then none else some i.text))
  if s.comments then
    match i.render with
    | .error f => .error (.number f)
    | .ok text => draft.map (s.annotate text)
  else draft

def draft (s : Scope) (counters : Counters) : Request → Except Vm.Fault Draft
  | .operator name => draftOperator counters name
  | .move kind segment index => (moveCode s.module kind segment index).map (plain counters)
  | .label name => s.draftCommand counters (.label name)
  | .goto name => s.draftCommand counters (.goto name)
  | .ifGoto name => s.draftCommand counters (.ifGoto name)
  | .function name n => s.draftCommand counters (.function name n)
  | .call name n => s.draftCommand counters (.call name n)
  | .return => s.draftCommand counters .return
  | .bootstrap entry stackBase => s.draftBootstrap counters entry stackBase
  | .comment text => .ok (plain counters [.comment text])
  | .instruction i => s.draftInstruction counters i

end Scope

/-! ## Emitters -/

/-- The code written so far and what the next command depends on. -/
structure Emitter where
  scope : Scope := {}
  counters : Counters := {}
  lines : Array Line := #[]
  closed : Bool := false
  deriving Repr, DecidableEq

/-- The module that a name or a path stands for: its last name, without the suffix of sources. -/
def moduleOfName? (name : String) : Option String :=
  let last := (Path.ofString name).name.toList
  let suffix := ".vm".toList
  let module := if suffix.isSuffixOf last then last.take (last.length - suffix.length) else last
  if module.isEmpty then none else some (String.ofList module)

namespace Emitter

def lineCount (e : Emitter) : Nat := e.lines.size

/-- The text of the lines written after the first few. -/
def textFrom (e : Emitter) (start : Nat) : String := renderLines (e.lines.toList.drop start)

/-- The text written so far. -/
def text (e : Emitter) : String := e.textFrom 0

/-- The module that owns what is written next. -/
def module (e : Emitter) : Option String := e.scope.module

/-- Enters a module. What has been written stays as it is. -/
def enterModule (e : Emitter) (name : String) : Except Fault Unit × Emitter :=
  match moduleOfName? name with
  | none => (.error (.moduleName name), e)
  | some m => (.ok (), { e with scope := { e.scope with module := some m } })

/-- Turns comments on or off. -/
def setComments (e : Emitter) (on : Bool) : Emitter :=
  { e with scope := { e.scope with comments := on } }

/-- Takes no more code from now on. -/
def close (e : Emitter) : Emitter := { e with closed := true }

/-- Takes a completed draft. -/
def commit (e : Emitter) (d : Draft) : Except Fault Unit × Emitter :=
  -- The draft was made before it turned out that nothing is taken, so the counters have moved.
  if e.closed then (.error .closed, { e with counters := d.counters })
  else (.ok (), { e with counters := d.counters, lines := e.lines ++ d.code })

/-- Writes what is asked for. -/
def write (e : Emitter) (r : Request) : Except Fault Unit × Emitter :=
  match e.scope.draft e.counters r with
  | .error f => (.error (.command f), e)
  | .ok d =>
    -- A draft with a number that is too long to be written is refused whole.
    if d.code.all Line.fits then e.commit d
    else (.error (.command (.number .tooLongToWrite)), e)

/-- An emitter that has written nothing, in a module if one is named. -/
def start (moduleName : Option String := none) (counters : Counters := {})
    (comments : Bool := true) : Except Fault Emitter :=
  let e : Emitter := { scope := { comments }, counters }
  match moduleName with
  | none => .ok e
  | some name =>
    match e.enterModule name with
    | (.ok (), e) => .ok e
    | (.error f, _) => .error f

end Emitter

end HackToolchain.Codegen
