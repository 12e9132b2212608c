import HackToolchain.Asm.Statement
import HackToolchain.Table

/-!
# Assembling

A source is assembled in two passes over its statements. The first binds every label to the address
of the instruction that follows it, which is the number of instructions before it. The second
encodes the instructions in order; a symbol that is neither predefined nor a label is a variable,
and variables get consecutive addresses in the order of their first use.
-/

set_option autoImplicit false

namespace HackToolchain.Asm

open Text Machine

/-! ## Symbols of the machine -/

/-- The symbols that the machine defines, with their addresses. -/
def predefined : List (String × Nat) :=
  [("SP", 0), ("LCL", 1), ("ARG", 2), ("THIS", 3), ("THAT", 4), ("R0", 0), ("R1", 1), ("R2", 2),
    ("R3", 3), ("R4", 4), ("R5", 5), ("R6", 6), ("R7", 7), ("R8", 8), ("R9", 9), ("R10", 10),
    ("R11", 11), ("R12", 12), ("R13", 13), ("R14", 14), ("R15", 15), ("SCREEN", 16384),
    ("KBD", 24576)]

/-- The address of a symbol of the machine. -/
def predefined? (name : String) : Option Nat := lookupEntry name predefined

/-- The address of the first variable, unless it is told otherwise. -/
def defaultVariableBase : Int := 16

/-! ## First pass -/

/-- The place where a label is first defined. -/
def definitionOf (name : String) (statements : List LocatedStatement) : Option Location :=
  (statements.find? fun s => s.statement = .label name).map (·.location)

/-- Binds the labels of statements that start at an address. A label defined already, by an earlier
statement of `all` or by the machine, is rejected. -/
def bindLabelsFrom (all : List LocatedStatement) (address : Nat) (labels : Table Nat) :
    List LocatedStatement → Except Fault (Table Nat)
  | [] => .ok labels
  | s :: rest =>
    match s.statement with
    | .label name =>
      let reject (first : Option Location) : Except Fault (Table Nat) :=
        .error (.rejected
          { cause := .duplicateLabel name first, location := some s.location,
            sourceLine := some s.sourceLine })
      -- A name of the machine is never among `labels`, so only labels have a first place to tell.
      if labels.contains name then reject (definitionOf name all)
      else if (predefined? name).isSome then reject none
      else bindLabelsFrom all address (labels.insert name address) rest
    | _ => bindLabelsFrom all (address + 1) labels rest

def bindLabels (statements : List LocatedStatement) : Except Fault (Table Nat) :=
  bindLabelsFrom statements 0 .empty statements

/-! ## Second pass -/

/-- An assembled program. -/
structure Assembly where
  /-- The words in order. -/
  words : Array Word := #[]
  /-- The labels with the addresses of instructions. -/
  labels : Table Nat := .empty
  /-- The variables with the addresses of memory cells. -/
  vars : Table Int := .empty
  /-- The place that each word comes from. -/
  sourceMap : Array Location := #[]

namespace Assembly

/-- The number that an operand stands for, and the variables with the operand among them if it is
one. -/
def resolve (labels : Table Nat) (base : Int) (vars : Table Int) (operand : String) :
    Int × Table Int :=
  if Decimal.isNumeral operand.toList then (Decimal.value operand.toList, vars)
  else
    match predefined? operand with
    | some n => (n, vars)
    | none =>
      match labels.find? operand with
      | some n => (n, vars)
      | none =>
        match vars.find? operand with
        | some n => (n, vars)
        | none =>
          -- Variables are never removed, so their number is the next free offset.
          let n := base + vars.size
          (n, vars.insert operand n)

/-- Adds a statement to a program; labels add nothing. -/
def add (base : Int) (p : Assembly) (s : LocatedStatement) : Assembly :=
  match s.statement with
  | .label _ => p
  | .load operand =>
    let (n, vars) := resolve p.labels base p.vars operand
    { p with
      words := p.words.push (encodeLoad n), vars
      sourceMap := p.sourceMap.push s.location }
  | .compute _ action =>
    { p with
      words := p.words.push action.encode, sourceMap := p.sourceMap.push s.location }

/-- All names of a program: the variables, and then the labels. -/
def symbols (p : Assembly) : Table Int :=
  p.labels.toList.foldl (fun t e => t.insert e.1 e.2) p.vars

end Assembly

def assembleStatements (statements : List LocatedStatement)
    (variableBase : Int := defaultVariableBase) : Except Fault Assembly :=
  match bindLabels statements with
  | .error f => .error f
  | .ok labels => .ok (statements.foldl (Assembly.add variableBase) { labels })

def assemble (source : String) (file : String := "<input>")
    (variableBase : Int := defaultVariableBase) : Except Fault Assembly :=
  match readSource source file with
  | .error f => .error f
  | .ok statements => assembleStatements statements variableBase

end HackToolchain.Asm
