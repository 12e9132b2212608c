/-!
# Kinds of errors

The errors of the toolchain form a tree. Each kind has one parent, up to the root, and what is said
of a kind is said of all kinds below it: whoever handles a kind handles those too.
-/

set_option autoImplicit false

namespace HackToolchain

/-- The kinds of errors, the general ones included. -/
inductive ErrorKind where
  /-- Any error of the toolchain. -/
  | toolchain
  /-- An error that can point at a place in a source. -/
  | located
  /-- An error of the translator. -/
  | translator
  | malformedInstruction
  | unknownOperator
  | unknownSegment
  | segmentRange
  | unboundModule
  | unsupportedOperation
  | translatorInput
  /-- An error of the assembler. -/
  | assembler
  | assemblySyntax
  | duplicateSymbol
  /-- An error of the emulator. -/
  | emulator
  deriving Repr, DecidableEq

namespace ErrorKind

/-- The kind directly above. -/
def parent : ErrorKind → Option ErrorKind
  | .toolchain => none
  | .located | .emulator => some .toolchain
  | .translator | .assembler => some .located
  | .malformedInstruction | .unknownOperator | .unknownSegment | .segmentRange | .unboundModule
  | .unsupportedOperation | .translatorInput => some .translator
  | .assemblySyntax | .duplicateSymbol => some .assembler

def depth : ErrorKind → Nat
  | .toolchain => 0
  | .located | .emulator => 1
  | .translator | .assembler => 2
  | _ => 3

theorem depth_parent {k p : ErrorKind} (h : k.parent = some p) : p.depth < k.depth := by
  cases k <;> simp only [parent, Option.some.injEq, reduceCtorEq] at h <;> subst h <;> decide

/-- The kind itself and the kinds above it, from the bottom up. -/
def lineage (k : ErrorKind) : List ErrorKind :=
  match _h : k.parent with
  | none => [k]
  | some p => k :: p.lineage
termination_by k.depth
decreasing_by exact depth_parent _h

/-- The first kind is the second or lies below it. -/
def isA (k ancestor : ErrorKind) : Bool := k.lineage.contains ancestor

end ErrorKind

end HackToolchain
