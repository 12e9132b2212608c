import HackToolchain.Proofs.Asm.Reference

/-!
# What a source comes to

Two sources whose rows come to the same (`rowsOutcome`), rows that say nothing left aside, are
assembled to the same program, or are both refused with the same class of error
(`assemble_congr`). Where the rows stand does not matter.
-/

set_option autoImplicit false

namespace HackToolchain.Asm

open Text Machine

/-! ## Rows -/

/-- The kind of error that a fault is; a number refused for its length is of no kind. -/
def Fault.kind? : Fault → Option ErrorKind
  | .rejected e => some e.cause.kind
  | .number _ => none

/-- What a row comes to: the statement on it, if there is one, or the kind of its fault. -/
def rowOutcome (row : List Char) : Except (Option ErrorKind) (List Statement) :=
  match content row with
  | [] => .ok []
  | text =>
    match Statement.ofChars text with
    | .ok s => .ok [s]
    | .error f => .error f.kind?

/-- What rows come to: their statements, or the kind of the first fault. -/
def rowsOutcome : List (List Char) → Except (Option ErrorKind) (List Statement)
  | [] => .ok []
  | row :: rest =>
    match rowOutcome row with
    | .error k => .error k
    | .ok a => (rowsOutcome rest).map (a ++ ·)

theorem rowsOutcome_append (xs ys : List (List Char)) :
    rowsOutcome (xs ++ ys) =
      match rowsOutcome xs with
      | .error k => .error k
      | .ok a => (rowsOutcome ys).map (a ++ ·) := by
  induction xs with
  | nil =>
    cases h : rowsOutcome ys <;> simp [rowsOutcome, h, Except.map]
  | cons row xs ih =>
    rw [List.cons_append, rowsOutcome, rowsOutcome, ih]
    cases rowOutcome row with
    | error k => rfl
    | ok a =>
      cases rowsOutcome xs with
      | error k => rfl
      | ok b => cases rowsOutcome ys <;> simp [Except.map]

theorem outcome_readLine (file : String) (number : Nat) (line : List Char) :
    ((readLine file number line).mapError Fault.kind?).map (fun found => bare found.toList) =
      rowOutcome line := by
  unfold readLine rowOutcome
  cases content line with
  | nil => rfl
  | cons c text =>
    simp only
    cases Statement.ofChars (c :: text) with
    | ok s => rfl
    | error f =>
      cases f with
      | rejected e =>
        simp only [Except.mapError, Except.map, Fault.kind?, Located.cause_locate]
      | number f => rfl

/-- Lines are read as their rows come out, whatever has been read before them. -/
theorem outcome_readLines (file : String) (number : Nat) (out : Array LocatedStatement)
    (lines : List (List Char)) :
    ((readLines file number out lines).mapError Fault.kind?).map (fun r => bare r.toList) =
      (rowsOutcome lines).map (bare out.toList ++ ·) := by
  induction lines generalizing number out with
  | nil => simp [readLines, rowsOutcome, Except.map, Except.mapError]
  | cons line lines ih =>
    have hline := outcome_readLine file number line
    simp only [readLines, rowsOutcome]
    cases hl : readLine file number line with
    | error f =>
      rw [hl] at hline
      rw [← hline]
      rfl
    | ok found =>
      rw [hl] at hline
      rw [← hline]
      cases found with
      | none =>
        simp only [ih]
        cases rowsOutcome lines <;> simp [Except.map, Except.mapError, bare]
      | some s =>
        simp only [ih]
        cases rowsOutcome lines <;> simp [Except.map, Except.mapError, bare]

theorem outcome_readSource (source file : String) :
    ((readSource source file).mapError Fault.kind?).map bare =
      rowsOutcome (rows source.toList) := by
  have h := outcome_readLines file 1 #[] (rows source.toList)
  unfold readSource
  cases hl : readLines file 1 #[] (rows source.toList) with
  | error f =>
    rw [hl] at h
    cases hr : rowsOutcome (rows source.toList) <;>
      simp_all [Except.map, Except.mapError, bare]
  | ok result =>
    rw [hl] at h
    cases hr : rowsOutcome (rows source.toList) <;>
      simp_all [Except.map, Except.mapError, bare]

/-! ## Programs -/

/-- Two programs have the same words, labels and variables. They may come from different places. -/
structure SameProgram (p q : Assembly) : Prop where
  words : p.words = q.words
  labels : p.labels.toList = q.labels.toList
  vars : p.vars.toList = q.vars.toList

/-- Two ways to assemble come to the same: a program, or a class of error. -/
def SameOutcome (x y : Except Fault Assembly) : Prop :=
  (∃ f g, x = .error f ∧ y = .error g ∧ f.kind? = g.kind?) ∨
    ∃ p q, x = .ok p ∧ y = .ok q ∧ SameProgram p q

theorem kind?_of_isDuplicate {f : Fault} (h : f.isDuplicate = true) :
    f.kind? = some .duplicateSymbol := by
  cases f with
  | rejected e => simpa [Fault.isDuplicate, Fault.kind?] using h
  | number f => simp [Fault.isDuplicate] at h

theorem kind?_of_assembleStatements {statements : List LocatedStatement} {base : Int} {f : Fault}
    (h : assembleStatements statements base = .error f) : f.kind? = some .duplicateSymbol := by
  unfold assembleStatements at h
  cases hl : bindLabels statements with
  | ok labels => simp [hl] at h
  | error g =>
    simp only [hl, Except.error.injEq] at h
    subst h
    exact kind?_of_isDuplicate (isDuplicate_of_bindLabelsFrom hl)

/-- What statements are assembled to depends on what they say and not on where they say it. -/
theorem assembleStatements_congr {xs ys : List LocatedStatement} (h : bare xs = bare ys)
    (hread : ∀ s ∈ bare xs, s.WellFormed) (base : Int) :
    SameOutcome (assembleStatements xs base) (assembleStatements ys base) := by
  have hexists {zs zs' : List LocatedStatement} {p : Assembly} (hb : bare zs = bare zs')
      (hp : assembleStatements zs base = .ok p) : ∃ q, assembleStatements zs' base = .ok q := by
    have ha := assembled_of_assembleStatements hp
    exact exists_assembleStatements (hb ▸ ha.nodup) (hb ▸ ha.free) base
  cases hx : assembleStatements xs base with
  | error f =>
    cases hy : assembleStatements ys base with
    | error g =>
      have hkind := (kind?_of_assembleStatements hx).trans (kind?_of_assembleStatements hy).symm
      exact .inl ⟨f, g, rfl, rfl, hkind⟩
    | ok q =>
      obtain ⟨p, hp⟩ := hexists h.symm hy
      rw [hx] at hp
      simp at hp
  | ok p =>
    obtain ⟨q, hq⟩ := hexists h hx
    have ha := assembled_of_assembleStatements hx
    have hb := assembled_of_assembleStatements hq
    obtain ⟨hnames, -⟩ := names_of_assembleStatements hx
    obtain ⟨hnames', -⟩ := names_of_assembleStatements hq
    rw [← h] at hb hnames'
    refine .inr ⟨p, q, rfl, hq, ?_, ?_, ?_⟩
    · apply Array.ext'
      rw [ha.words, hb.words, List.filterMap_congr (ha.wordOf_eq_reference hnames hread),
        List.filterMap_congr (hb.wordOf_eq_reference hnames' hread)]
    · rw [ha.labels, hb.labels]
    · rw [ha.vars_eq hnames, hb.vars_eq hnames']

/-- Sources whose rows come to the same are assembled to the same. -/
theorem assemble_congr {source source' : String}
    (h : rowsOutcome (rows source.toList) = rowsOutcome (rows source'.toList)) (file : String)
    (base : Int) : SameOutcome (assemble source file base) (assemble source' file base) := by
  have hx := outcome_readSource source file
  have hy := outcome_readSource source' file
  rw [← hx] at h
  rw [← hy] at h
  unfold assemble
  cases hr : readSource source file with
  | error f =>
    cases hr' : readSource source' file with
    | error g =>
      rw [hr, hr'] at h
      exact .inl ⟨f, g, rfl, rfl, Except.error.inj h⟩
    | ok ys =>
      rw [hr, hr'] at h
      simp [Except.map, Except.mapError] at h
  | ok xs =>
    cases hr' : readSource source' file with
    | error g =>
      rw [hr, hr'] at h
      simp [Except.map, Except.mapError] at h
    | ok ys =>
      rw [hr, hr'] at h
      exact assembleStatements_congr (Except.ok.inj h)
        (wellFormed_of_readRows (readRows_of_readSource hr)) base

end HackToolchain.Asm
