import HackToolchain.Proofs.Asm.Overlong

/-!
# Where the errors of the assembler point

Every error of the assembler knows a row of the source: its place is where the row starts, and the
row is shown as it stands (`exists_row_of_assemble`). That holds of a row that is not of the grammar
and of the row with a label that is taken already.
-/

set_option autoImplicit false

namespace HackToolchain.Asm

open Text

/-- A label that is taken already is complained of where it is defined again. -/
theorem exists_statement_of_bindLabelsFrom {all statements : List LocatedStatement} {address : Nat}
    {labels : Table Nat} {e : Located Cause}
    (h : bindLabelsFrom all address labels statements = .error (.rejected e)) :
    ∃ s ∈ statements, e.location = some s.location ∧ e.sourceLine = some s.sourceLine := by
  induction statements generalizing address labels with
  | nil => cases h
  | cons s rest ih =>
    have hrest {address : Nat} {labels : Table Nat}
        (h : bindLabelsFrom all address labels rest = .error (.rejected e)) :
        ∃ t ∈ s :: rest, e.location = some t.location ∧ e.sourceLine = some t.sourceLine := by
      obtain ⟨t, ht, htold⟩ := ih h
      exact ⟨t, List.mem_cons_of_mem s ht, htold⟩
    have hhere (c : Cause)
        (h : Fault.rejected ⟨c, some s.location, some s.sourceLine⟩ = .rejected e) :
        ∃ t ∈ s :: rest, e.location = some t.location ∧ e.sourceLine = some t.sourceLine := by
      obtain rfl := Fault.rejected.inj h
      exact ⟨s, List.mem_cons_self, rfl, rfl⟩
    simp only [bindLabelsFrom] at h
    split at h
    · split at h
      · exact hhere _ (Except.error.inj h)
      · split at h
        · exact hhere _ (Except.error.inj h)
        · exact hrest h
    · exact hrest h

theorem of_mem_saying {lines : List (List Char)} {row : List Char × Nat}
    (h : row ∈ saying 1 lines) :
    ∃ k : Nat, row.2 = k + 1 ∧ lines[k]? = some row.1 := by
  have hmem := List.mem_of_mem_filter h
  obtain ⟨hlow, hrow⟩ := List.mk_mem_zipIdx_iff_le_and_getElem?_sub.1 hmem
  exact ⟨row.2 - 1, by omega, hrow⟩

/-- A statement that was read knows the row that it stands on. -/
theorem exists_row_of_mem {file : String} {lines : List (List Char)}
    {statements : List LocatedStatement}
    (h : List.Forall₂ (StandsOn file) (saying 1 lines) statements) {s : LocatedStatement}
    (hs : s ∈ statements) :
    ∃ (k : Nat) (row : List Char) (column : Int), lines[k]? = some row ∧ StartsAt row column ∧
      s.location = { file, line := k + 1, column } ∧ s.sourceLine = String.ofList row := by
  obtain ⟨i, rfl⟩ := List.mem_iff_get.1 hs
  have hi : i < (saying 1 lines).length := by
    rw [h.length_eq]
    exact i.isLt
  have hstands := h.get hi i.isLt
  obtain ⟨k, hk, hrow⟩ := of_mem_saying (List.get_mem _ ⟨i, hi⟩)
  obtain ⟨column, hstarts, hplace⟩ := hstands.location
  rw [hk] at hplace
  exact ⟨k, _, column, hrow, hstarts, hplace, hstands.sourceLine⟩

/-- Every error of the assembler is told of a row: its place is where the row starts, and the row is
shown as it stands. -/
theorem exists_row_of_assemble {source file : String} {base : Int} {e : Located Cause}
    (h : assemble source file base = .error (.rejected e)) :
    ∃ (k : Nat) (row : List Char) (column : Int), (rows source.toList)[k]? = some row ∧
      StartsAt row column ∧ e.location = some { file, line := k + 1, column } ∧
      e.sourceLine = some (String.ofList row) := by
  rw [assemble] at h
  obtain ⟨statements, hread, hstand⟩ | ⟨k, row, e', hread, hrow, hcomplains⟩ | ⟨-, f, hread⟩ :=
    readSource_cases source file
  · rw [hread] at h
    simp only [assembleStatements, bindLabels] at h
    cases hbind : bindLabelsFrom statements 0 .empty statements with
    | ok labels =>
      rw [hbind] at h
      cases h
    | error f =>
      rw [hbind] at h
      obtain rfl := Except.error.inj h
      obtain ⟨s, hs, hplace, hline⟩ := exists_statement_of_bindLabelsFrom hbind
      obtain ⟨k, row, column, hrow, hstarts, hlocation, hshown⟩ := exists_row_of_mem hstand hs
      refine ⟨k, row, column, hrow, hstarts, ?_, ?_⟩
      · rw [hplace, hlocation]
      · rw [hline, hshown]
  · rw [hread] at h
    obtain rfl := Fault.rejected.inj (Except.error.inj h)
    obtain ⟨column, hstarts, hlocation⟩ := hcomplains.location
    exact ⟨k, row, column, hrow, hstarts, hlocation, hcomplains.sourceLine⟩
  · rw [hread] at h
    cases h

end HackToolchain.Asm
