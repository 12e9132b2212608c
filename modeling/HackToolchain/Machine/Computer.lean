import HackToolchain.Journal
import HackToolchain.Machine.Processor
import HackToolchain.Table

/-!
# The computer

The processor with its memories, the labels of the loaded program, and a count of the instructions
executed. A run executes instructions until the program ends, a place is reached or a budget is
spent; running off the program's end or into a refused address is a stop and no error.

While a watch is kept, every instruction that is about to be executed is recorded, and those at the
watched addresses are refused.
-/

set_option autoImplicit false

namespace HackToolchain.Machine

/-- How a computer is equipped. -/
structure Config where
  /-- The budget of a run that has none of its own. -/
  maxCycles : Int := 1000000
  /-- The number of memory cells. -/
  ramWords : Int := memoryWords
  deriving Repr, DecidableEq

/-- A computer. -/
structure Computer where
  /-- The budget of a run that has none of its own. -/
  maxCycles : Int := 1000000
  ram : Ram := .zeros memoryWords
  rom : Rom := {}
  registers : Registers := {}
  /-- The labels of the program. -/
  labels : Table Int := .empty
  /-- The number of instructions executed since the last reset. -/
  cycles : Nat := 0
  /-- The addresses refused while a watch is kept. -/
  watch : Option (List Int) := none
  /-- What has been about to be executed under watch: addresses and words. -/
  trace : Array (Word × Word) := #[]

namespace Computer

/-- A computer with empty memories, if it can have so many cells. -/
def ofConfig (c : Config) : Except SizeError Computer :=
  (Ram.ofSize c.ramWords).map fun ram => { maxCycles := c.maxCycles, ram }

/-! ## Programs -/

/-- Loads a program and resets the processor. -/
def load (c : Computer) (program : Array Int) (labels : Table Int := .empty) :
    Except Error Unit × Computer :=
  match c.rom.load program with
  | .error e => (.error e, c)
  | .ok rom => (.ok (), { c with rom, labels, registers := {}, cycles := 0 })

def loadedEntry (c : Computer) : Entry := .programLoaded c.rom.words.size

/-- Resets the processor and clears the memory; the program stays. -/
def reset (c : Computer) : Computer :=
  { c with registers := {}, ram := c.ram.clear, cycles := 0 }

/-- The instruction that is next, if the program goes that far. -/
def current (c : Computer) : Option Word := c.rom.fetch c.registers.pc.toNat

/-- The program counter is past the end of the program. -/
def halted (c : Computer) : Bool := c.current.isNone

/-! ## Running -/

/-- Records an instruction that is about to be executed, and says whether it is refused. -/
def observe (c : Computer) (w : Word) : Bool × Computer :=
  match c.watch with
  | none => (false, c)
  | some refused =>
    let pc := c.registers.pc
    (refused.contains (pc.toNat : Int), { c with trace := c.trace.push (pc, w) })

/-- Executes a word. -/
def perform (c : Computer) (w : Word) : Except Error Bool × Computer :=
  let { maxCycles, ram, rom, registers, labels, cycles, watch, trace } := c
  match execute w registers ram with
  | (.ok (), registers, ram) =>
      (.ok true, { maxCycles, ram, rom, registers, labels, cycles := cycles + 1, watch, trace })
  | (.error e, registers, ram) =>
      (.error e, { maxCycles, ram, rom, registers, labels, cycles, watch, trace })

/-- Executes the next instruction. Says whether there was one that was not refused. -/
def step (c : Computer) : Except Error Bool × Computer :=
  match c.current with
  | none => (.ok false, c)
  | some w =>
    match c.observe w with
    -- A refused instruction is on the trace all the same.
    | (true, c) => (.ok false, c)
    | (false, c) => c.perform w

/-- Executes as many instructions as the budget allows; `executed` were executed before. Gives the
number of all of them. -/
def runFrom : Nat → Nat → Computer → Except Error Nat × Computer
  | 0, executed, c => (.ok executed, c)
  | budget + 1, executed, c =>
    match c.step with
    | (.error e, c) => (.error e, c)
    | (.ok false, c) => (.ok executed, c)
    | (.ok true, c) => runFrom budget (executed + 1) c

/-- The budget of a run. -/
def budget (c : Computer) (maxCycles : Option Int) : Nat := (maxCycles.getD c.maxCycles).toNat

/-- Runs to the end of the program or of the budget. Gives the number of instructions executed. -/
def run (c : Computer) (maxCycles : Option Int := none) : Except Error Nat × Computer :=
  runFrom (c.budget maxCycles) 0 c

/-- How a run to a place ended. -/
structure Arrival where
  /-- The place was reached. -/
  reached : Bool
  /-- The number of instructions executed. -/
  executed : Nat
  deriving Repr, DecidableEq

/-- Executes instructions up to an address within a budget; `executed` were executed before. -/
def runToFrom (address : Int) : Nat → Nat → Computer → Except Error Arrival × Computer
  -- The last instruction of the budget may have led to the place.
  | 0, executed, c => (.ok ⟨decide (c.registers.pc.toNat = address), executed⟩, c)
  | budget + 1, executed, c =>
    if c.registers.pc.toNat = address then (.ok ⟨true, executed⟩, c)
    else
      match c.step with
      | (.error e, c) => (.error e, c)
      | (.ok false, c) => (.ok ⟨false, executed⟩, c)
      | (.ok true, c) => runToFrom address budget (executed + 1) c

/-- Runs until the program counter is at an address, the program ends or the budget is spent. -/
def runTo (c : Computer) (address : Int) (maxCycles : Option Int := none) :
    Except Error Arrival × Computer :=
  runToFrom address (c.budget maxCycles) 0 c

def runToLabel (c : Computer) (name : String) (maxCycles : Option Int := none) :
    Except Error Arrival × Computer :=
  match c.labels.find? name with
  | none => (.error (.unknownLabel name), c)
  | some address => c.runTo address maxCycles

/-- What is noted down of a run to a place, now that the computer has stopped: nothing if the place
was reached. -/
def stoppedEntry? (c : Computer) (a : Arrival) : Option Entry :=
  if a.reached then none else some (.stopped c.registers.pc.toNat a.executed)

/-! ## Looking and changing -/

def peek (c : Computer) (address : Int) : Except Error Word := c.ram.read address

/-- The word at an address in two's complement. -/
def peekSigned (c : Computer) (address : Int) : Except Error Int := c.ram.readSigned address

/-- Writes a number to an address. -/
def poke (c : Computer) (address value : Int) : Except Error Unit × Computer :=
  let (outcome, ram) := c.ram.write address value
  (outcome, { c with ram })

/-- The stack pointer. -/
def sp (c : Computer) : Except Error Word := c.peek 0

def stackTop (c : Computer) : Except Error Int := do
  let sp ← c.sp
  c.peekSigned (sp.toNat - 1)

/-- The values of the cells from an address on, so many of them, after those in `out`, the last one
first. -/
def cellsFrom (c : Computer) (address : Int) (out : List Int) : Nat → Except Error (List Int)
  | 0 => .ok out.reverse
  | count + 1 =>
    match c.peekSigned address with
    | .error e => .error e
    | .ok value => c.cellsFrom (address + 1) (value :: out) count

/-- The values on the stack from its base up to the stack pointer. -/
def stack (c : Computer) (base : Int := 256) : Except Error (List Int) := do
  let sp ← c.sp
  c.cellsFrom base [] (sp.toNat - base).toNat

/-- Gives a label of the program an address. -/
def setLabel (c : Computer) (name : String) (address : Int) : Computer :=
  { c with labels := c.labels.insert name address }

/-- Changes A to the low sixteen bits of a number. -/
def setA (c : Computer) (n : Int) : Computer :=
  { c with registers := { c.registers with a := Word.ofInt n } }

/-- Changes D to the low sixteen bits of a number. -/
def setD (c : Computer) (n : Int) : Computer :=
  { c with registers := { c.registers with d := Word.ofInt n } }

/-- Changes the program counter to the low sixteen bits of a number. -/
def setPc (c : Computer) (n : Int) : Computer :=
  { c with registers := { c.registers with pc := Word.ofInt n } }

/-- Resets the processor alone; neither the memory nor the count of instructions changes. -/
def resetRegisters (c : Computer) : Computer := { c with registers := {} }

/-- Watches from now on, refusing instructions at some addresses. -/
def keepWatch (c : Computer) (refused : List Int) : Computer := { c with watch := some refused }

/-- Watches no more. -/
def dropWatch (c : Computer) : Computer := { c with watch := none }

/-- Takes the record of what was about to be executed. -/
def takeTrace (c : Computer) : Array (Word × Word) × Computer := (c.trace, { c with trace := #[] })

end Computer

end HackToolchain.Machine
