import HackToolchain.Vm.Line

/-!
# Readers

A reader hands out the instructions of a source one by one and reads no further than it has to. The
lines it has not read yet may also be taken from it as they are. Several passes may be opened over
one reader, but only the pass that is advanced first reads anything; a pass that met a fault is
over.
-/

set_option autoImplicit false

namespace HackToolchain.Vm

/-- A source that is being read. -/
structure Reader where
  /-- The name of the source. -/
  file : String
  /-- The lines not read yet, each with its newline. -/
  pending : List String
  /-- Some pass has started. -/
  started : Bool := false
  deriving Repr, DecidableEq

/-- A pass over a reader. -/
inductive Pass where
  /-- Not advanced yet. -/
  | fresh
  /-- Advanced, with the number of lines it has read. -/
  | running (lines : Nat)
  /-- Over. -/
  | finished
  deriving Repr, DecidableEq

namespace Reader

/-- What advancing a pass gives: the next instruction, the end, or a fault; and what is left. -/
structure Advance where
  outcome : Except Fault (Option Instruction)
  pending : List String
  pass : Pass

/-- Reads up to the next instruction; `count` lines were read before. -/
def scan (file : String) (count : Nat) : List String → Advance
  | [] => ⟨.ok none, [], .finished⟩
  | line :: rest =>
    match readLine file (count + 1) line with
    | .error f => ⟨.error f, rest, .finished⟩
    | .ok (some i) => ⟨.ok (some i), rest, .running (count + 1)⟩
    | .ok none => scan file (count + 1) rest

def next (r : Reader) (p : Pass) : Except Fault (Option Instruction) × Reader × Pass :=
  let go (count : Nat) :=
    let a := scan r.file count r.pending
    (a.outcome, { r with pending := a.pending, started := true }, a.pass)
  match p with
  -- Only the first pass to be advanced reads; the others end at once.
  | .finished => (.ok none, r, .finished)
  | .running count => go count
  | .fresh => if r.started then (.ok none, r, .finished) else go 0

/-- Takes the next line, whatever is on it; at the end the line is empty. -/
def takeLine (r : Reader) : String × Reader :=
  match r.pending with
  | [] => ("", r)
  | line :: rest => (line, { r with pending := rest })

/-- Advances a pass to its end or first fault; `out` holds the instructions so far, the last one
first. Every instruction takes a line, so as many steps as there are lines, and one, suffice. -/
def drainWithin : Nat → List Instruction → Reader → Pass →
    Except Fault (List Instruction) × List Instruction × Reader × Pass
  | 0, out, r, p => (.ok out.reverse, out.reverse, r, p)
  | fuel + 1, out, r, p =>
    match r.next p with
    | (.error f, r, p) => (.error f, out.reverse, r, p)
    | (.ok none, r, p) => (.ok out.reverse, out.reverse, r, p)
    | (.ok (some i), r, p) => drainWithin fuel (i :: out) r p

/-- The instructions that are left to a pass, or its first fault; and in both cases the instructions
handed out, the reader and the pass afterwards. -/
def drain (r : Reader) (p : Pass) :
    Except Fault (List Instruction) × List Instruction × Reader × Pass :=
  drainWithin (r.pending.length + 1) [] r p

end Reader

end HackToolchain.Vm
