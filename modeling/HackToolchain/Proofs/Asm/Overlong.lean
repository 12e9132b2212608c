import HackToolchain.Proofs.Asm.Grammar
import HackToolchain.Proofs.Asm.Outcomes

/-!
# Numerals that are too long for the assembler

An assembly source is assembled, or a row of it is complained of, unless the first row that is not
read loads a numeral that is too long to be read: that is a fault of the numeral, and no error of
the source (`assemble_cases`).
-/

set_option autoImplicit false

namespace HackToolchain.Asm

open Text

/-- The first row that is not read loads a numeral that is too long. -/
def FirstOverlong (lines : List (List Char)) : Prop :=
  ∃ before row after, lines = before ++ row :: after ∧
    (∀ r ∈ before, InGrammar r ∧ LoadsShort r) ∧ ¬LoadsShort row

theorem isA_assembler (c : Cause) : c.kind.isA .assembler = true := by
  cases c <;> simp [Cause.kind, ErrorKind.isA, ErrorKind.lineage, ErrorKind.parent]

section Sources

variable {source file : String}

/-- A row that ends the reading of a source ends it whatever stands behind. -/
theorem readSource_of_readLine {before after : List (List Char)} {row : List Char} {f : Fault}
    (hrows : rows source.toList = before ++ row :: after)
    (hbefore : ∀ r ∈ before, InGrammar r ∧ LoadsShort r)
    (hrow : readLine file (before.length + 1) row = .error f) :
    readSource source file = .error f := by
  obtain ⟨found, -, hread⟩ := readLines_of_inGrammar file 1 (fun r hr => (hbefore r hr).2)
    (fun r hr => (hbefore r hr).1) #[]
  rw [readSource, hrows, hread, Nat.add_comm, readLines, hrow]
  rfl

/-- A source is read, or its first row that is not is complained of or has a numeral too long. -/
theorem readSource_cases (source file : String) :
    (∃ statements, readSource source file = .ok statements ∧
      List.Forall₂ (StandsOn file) (saying 1 (rows source.toList)) statements) ∨
    (∃ k row e, readSource source file = .error (.rejected e) ∧
      (rows source.toList)[k]? = some row ∧ ComplainsOf file (row, k + 1) e) ∨
    (FirstOverlong (rows source.toList) ∧ ∃ f, readSource source file = .error (.number f)) := by
  rcases forall_or_exists_first (fun row => InGrammar row ∧ LoadsShort row) (rows source.toList)
    with hall | ⟨before, row, after, hrows, hbefore, hrow⟩
  · exact .inl
      (readSource_of_inGrammar file (fun row hr => (hall row hr).2) fun row hr => (hall row hr).1)
  · by_cases hshort : LoadsShort row
    · have hgrammar : ¬InGrammar row := fun h => hrow ⟨h, hshort⟩
      obtain ⟨e, he, hcomplains⟩ :=
        readLine_of_not_inGrammar file (before.length + 1) hshort hgrammar
      refine .inr (.inl ⟨before.length, row, e, readSource_of_readLine hrows hbefore he, ?_,
        hcomplains⟩)
      rw [hrows, List.getElem?_append_right (Nat.le_refl _), Nat.sub_self]
      rfl
    · obtain ⟨f, hf⟩ := readLine_of_not_loadsShort file (before.length + 1) hshort
      exact .inr (.inr ⟨⟨before, row, after, hrows, hbefore, hshort⟩, f,
        readSource_of_readLine hrows hbefore hf⟩)

theorem exists_readSource_number (file : String) (h : FirstOverlong (rows source.toList)) :
    ∃ f, readSource source file = .error (.number f) := by
  obtain ⟨before, row, after, hrows, hbefore, hrow⟩ := h
  obtain ⟨f, hf⟩ := readLine_of_not_loadsShort file (before.length + 1) hrow
  exact ⟨f, readSource_of_readLine hrows hbefore hf⟩

end Sources

/-- Statements are assembled, or a label among them is complained of. -/
theorem assembleStatements_cases (statements : List LocatedStatement) (base : Int) :
    (∃ p, assembleStatements statements base = .ok p) ∨
      ∃ e, assembleStatements statements base = .error (.rejected e) := by
  cases h : assembleStatements statements base with
  | ok p => exact .inl ⟨p, rfl⟩
  | error f =>
    have hkind := kind?_of_assembleStatements h
    cases f with
    | rejected e => exact .inr ⟨e, rfl⟩
    | number f => cases hkind

/-- A source is assembled or complained of, unless the first row that is not read loads a numeral
that is too long. -/
theorem assemble_cases (source file : String) (base : Int) :
    (¬FirstOverlong (rows source.toList) ∧
      ((∃ p, assemble source file base = .ok p) ∨
        ∃ e, assemble source file base = .error (.rejected e))) ∨
    (FirstOverlong (rows source.toList) ∧ ∃ f, assemble source file base = .error (.number f)) := by
  rw [assemble]
  by_cases hfirst : FirstOverlong (rows source.toList)
  · obtain ⟨f, hf⟩ := exists_readSource_number file hfirst
    rw [hf]
    exact .inr ⟨hfirst, f, rfl⟩
  · refine .inl ⟨hfirst, ?_⟩
    obtain ⟨statements, h, -⟩ | ⟨-, -, e, h, -, -⟩ | ⟨hother, -⟩ := readSource_cases source file
    · rw [h]
      exact assembleStatements_cases statements base
    · rw [h]
      exact .inr ⟨e, rfl⟩
    · exact absurd hother hfirst

end HackToolchain.Asm
