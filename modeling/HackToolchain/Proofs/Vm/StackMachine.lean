import HackToolchain.Machine.Memory
import HackToolchain.Proofs.Codegen.Tasks

/-!
# The stack machine

What the commands mean, said without generated code. The state is the memory and the number of the
next task; the registers of the language are cells: the stack pointer is cell 0, the bases of four
segments are the cells 1 to 4. A step does what the command says, or stops where it cannot: behind
the last task, at an address that is no cell, at a name that stands for nothing, or at a return to a
place where no task begins.

Generated code notes addresses down in the cells 13 and 14 while it works. The machine comes in two
versions: one writes these notes as well and has the two cells like all others, the other has no
such cells.
-/

set_option autoImplicit false

namespace HackToolchain.Vm

open Text Machine Codegen

/-! ## Memory -/

/-- How the two cells are seen in which code notes addresses down. -/
inductive Notes where
  /-- As cells like all others, which hold what has been noted. -/
  | shown
  /-- As no cells at all. -/
  | hidden
  deriving Repr, DecidableEq

/-- A cell may be used. -/
def Notes.allows : Notes → Nat → Bool
  | .shown, _ => true
  | .hidden, a => a != 13 && a != 14

/-- Why the machine stops. -/
inductive Stop where
  /-- There is no next task. -/
  | finished
  /-- A name stands for nothing. -/
  | unresolved
  /-- An address is no cell. -/
  | address (a : Word)
  /-- No task begins at an address that is returned to. -/
  | nowhere (a : Word)
  deriving Repr, DecidableEq

variable (v : Notes)

/-- The word in a cell. -/
def load (a : Word) (ram : Ram) : Except Stop Word :=
  if v.allows a.toNat && a.toNat < ram.size then .ok (ram.get a.toNat) else .error (.address a)

def store (a x : Word) (ram : Ram) : Except Stop Ram :=
  if v.allows a.toNat && a.toNat < ram.size then .ok (ram.set a.toNat x) else .error (.address a)

/-- The memory with an address noted down, if notes are shown. -/
def note (cell : Nat) (x : Word) (ram : Ram) : Ram :=
  match v with
  | .shown => ram.set cell x
  | .hidden => ram

/-- An address that was noted down; where notes are shown, it is what the cell holds now. -/
def noted (cell : Nat) (x : Word) (ram : Ram) : Word :=
  match v with
  | .shown => ram.get cell
  | .hidden => x

/-! ## The stack -/

/-- Stores a word in the first free cell of the stack, and moves the stack pointer up. -/
def push (x : Word) (ram : Ram) : Except Stop Ram := do
  let sp ← load v 0 ram
  let ram ← store v sp x ram
  let sp ← load v 0 ram
  store v 0 (sp + 1) ram

/-- Moves the stack pointer down, and takes the word that it points at then. -/
def pop (ram : Ram) : Except Stop (Word × Ram) := do
  let sp ← load v 0 ram
  let ram ← store v 0 (sp - 1) ram
  let x ← load v (sp - 1) ram
  return (x, ram)

def truth (b : Bool) : Word := if b then -1 else 0

/-- The value of an operator of one operand. -/
def unaryValue (op : Operator) (x : Word) : Word :=
  match op with
  | .neg => -x
  | _ => ~~~x

/-- The value of an operator of two operands. Words are compared by the sign of their difference. -/
def binaryValue (op : Operator) (x y : Word) : Word :=
  match op with
  | .sub => x - y
  | .and => x &&& y
  | .or => x ||| y
  | .eq => truth ((x - y).signed = 0)
  | .gt => truth (0 < (x - y).signed)
  | .lt => truth ((x - y).signed < 0)
  | _ => x + y

/-- Replaces the operands of an operator on the stack by its value. -/
def operate (op : Operator) (ram : Ram) : Except Stop Ram := do
  if op.isUnary then
    let (x, ram) ← pop v ram
    push v (unaryValue op x) ram
  else
    let (y, ram) ← pop v ram
    let (x, ram) ← pop v ram
    push v (binaryValue op x y) ram

/-! ## Segments -/

/-- The address at an index of a segment. `cell` is the cell that a static variable has, if it has
one. -/
def addressOf (cell : Option Int) (segment : Segment) (index : Int) (ram : Ram) :
    Except Stop Word :=
  let based (register : Word) := do return (← load v register ram) + Word.ofInt index
  match segment with
  | .locals => based 1
  | .arguments => based 2
  | .this => based 3
  | .that => based 4
  | .pointer => .ok (3 + Word.ofInt index)
  | .temp => .ok (5 + Word.ofInt index)
  | .static =>
    match cell with
    | none => .error .unresolved
    | some n =>
      if 0 ≤ n ∧ n < memoryWords then .ok (Word.ofInt n) else .error (.address (Word.ofInt n))
  | .constant => .error .unresolved

/-- Pushes the word at an index of a segment; a constant is its own index. -/
def pushFrom (cell : Option Int) (segment : Segment) (index : Int) (ram : Ram) :
    Except Stop Ram := do
  if segment = .constant then push v (Word.ofInt index) ram
  else
    let a ← addressOf v cell segment index ram
    let x ← load v a ram
    push v x ram

/-- Pops into an index of a segment. The address is found first, and noted down unless it is that of
a static variable. -/
def popInto (cell : Option Int) (segment : Segment) (index : Int) (ram : Ram) :
    Except Stop Ram := do
  let a ← addressOf v cell segment index ram
  let (x, ram) ← pop v (if segment = .static then ram else note v 13 a ram)
  store v a x ram

/-! ## Functions -/

/-- Pushes the contents of registers. -/
def save : List Word → Ram → Except Stop Ram
  | [], ram => .ok ram
  | r :: rest, ram => do
    let x ← load v r ram
    save rest (← push v x ram)

/-- Builds the frame of a call: the return address and the registers of the caller are pushed, the
arguments are those below them, and the locals begin above. -/
def enter (returnAddress : Word) (argumentCount : Int) (ram : Ram) : Except Stop Ram := do
  let ram ← push v returnAddress ram
  let ram ← save v [1, 2, 3, 4] ram
  let sp ← load v 0 ram
  let ram ← store v 2 (sp - Word.ofInt (argumentCount + 5)) ram
  let sp ← load v 0 ram
  store v 1 sp ram

/-- Pushes a zero for each of so many locals. -/
def clearLocals : Nat → Ram → Except Stop Ram
  | 0, ram => .ok ram
  | count + 1, ram => do clearLocals count (← push v 0 ram)

/-- Gives registers back their saved contents, the first one cell below the frame's end and the
others below it in order. -/
def restore (frame : Word) (offset : Nat) : List Word → Ram → Except Stop Ram
  | [], ram => .ok ram
  | r :: rest, ram => do
    let x ← load v (noted v 13 frame ram - BitVec.ofNat 16 offset) ram
    restore frame (offset + 1) rest (← store v r x ram)

/-- Tears the frame of a call down: the result takes the place of the first argument, the stack ends
above it, and the caller gets its registers back. Gives the return address as well. -/
def leave (ram : Ram) : Except Stop (Word × Ram) := do
  let frame ← load v 1 ram
  let ram := note v 13 frame ram
  let returnAddress ← load v (frame - 5) ram
  let ram := note v 14 returnAddress ram
  let (x, ram) ← pop v ram
  let ram ← store v (← load v 2 ram) x ram
  let ram ← store v 0 ((← load v 2 ram) + 1) ram
  let ram ← restore v frame 1 [4, 3, 2, 1] ram
  return (noted v 14 returnAddress ram, ram)

/-! ## Programs -/

/-- A program: its tasks, the address in instruction memory at which the code of each begins, and
the cells of static variables. -/
structure Program where
  tasks : List Task
  address : Nat → Nat
  cell : Option String → Int → Option Int

/-- A state: the memory, and the number of the next task. -/
structure State where
  next : Nat
  ram : Ram
  deriving Repr, DecidableEq

namespace Program

variable (p : Program)

def label? (module : Option String) (name : String) : Option Nat :=
  p.tasks.findIdx? fun t => t = ⟨module, .command (.label name)⟩

def isEntry (name : String) (t : Task) : Bool :=
  match t.job with
  | .command (.function f _) => f = name
  | _ => false

/-- The place of a function. -/
def entry? (name : String) : Option Nat := p.tasks.findIdx? (isEntry name)

/-- The first task whose code begins at an address; the end of the program counts as well. -/
def taskAt? (a : Word) : Option Nat :=
  (List.range (p.tasks.length + 1)).find? fun i => p.address i = a.toNat

/-- Goes on at a place, if there is one. -/
def goTo (place : Option Nat) (ram : Ram) : Except Stop State :=
  match place with
  | none => .error .unresolved
  | some i => .ok ⟨i, ram⟩

theorem goTo_eq_ok {place : Option Nat} {ram : Ram} {s : State} :
    goTo place ram = .ok s ↔ ∃ i, place = some i ∧ s = ⟨i, ram⟩ := by
  cases place with
  | none => simp [goTo]
  | some i => simp [goTo, eq_comm]

/-- Calls a function, to return to the task after the one at a place. -/
def call (place : Nat) (name : String) (argumentCount : Int) (ram : Ram) : Except Stop State := do
  let ram ← enter v (BitVec.ofNat 16 (p.address (place + 1))) argumentCount ram
  goTo (p.entry? name) ram

/-- Does a command that stands at a place of a module. -/
def perform (place : Nat) (module : Option String) (c : Command) (ram : Ram) :
    Except Stop State :=
  let goOn (ram : Ram) : State := ⟨place + 1, ram⟩
  match c with
  | .arithmetic name =>
    match Operator.ofName? name with
    | none => .error .unresolved
    | some op => goOn <$> operate v op ram
  | .push segment index =>
    match Segment.ofName? segment with
    | none => .error .unresolved
    | some s => goOn <$> pushFrom v (p.cell module index) s index ram
  | .pop segment index =>
    match Segment.ofName? segment with
    | none => .error .unresolved
    | some s => goOn <$> popInto v (p.cell module index) s index ram
  | .label _ => .ok (goOn ram)
  | .goto name => goTo (p.label? module name) ram
  | .ifGoto name => do
    let (x, ram) ← pop v ram
    if x = 0 then return goOn ram else goTo (p.label? module name) ram
  | .function _ localCount => goOn <$> clearLocals v localCount.toNat ram
  | .call name argumentCount => p.call v place name argumentCount ram
  | .return => do
    let (a, ram) ← leave v ram
    match p.taskAt? a with
    | none => .error (.nowhere a)
    | some i => return ⟨i, ram⟩

/-- Does the next task. -/
def step (s : State) : Except Stop State :=
  match p.tasks[s.next]? with
  | none => .error .finished
  | some t =>
    match t.job with
    | .bootstrap entry stackBase => do
      let ram ← store v 0 (Word.ofInt stackBase) s.ram
      p.call v s.next entry 0 ram
    | .command c => p.perform v s.next t.module c s.ram

/-- Does so many tasks. -/
def run : Nat → State → Except Stop State
  | 0, s => .ok s
  | n + 1, s => do run n (← p.step v s)

end Program

end HackToolchain.Vm
