import HackToolchain.Asm.Image
import HackToolchain.Proofs.Asm.Variables
import HackToolchain.Proofs.Text.Plain
import HackToolchain.Proofs.Text.Words

/-!
# Listings of symbols read back

The symbols of an assembled program are its variables and its labels, and no name is that of two of
them (`Assembled.toList_symbols`, `Assembled.nodup_symbols`). Their listing has a line for each, in
the order of the addresses and, at one address, of the names. Since no name has a space in it, the
lines taken apart at their space are the table again (`Assembled.exists_listing`).
-/

set_option autoImplicit false

namespace HackToolchain.Asm

open Text

/-! ## Symbols of a program -/

namespace Assembled

variable {base : Int} {statements : List Statement} {p : Assembly}

/-- No name is that of two variables, of two labels or of both. -/
theorem nodup_names (h : Assembled base statements p) :
    (entryNames p.vars.toList ++ entryNames p.labels.toList).Nodup := by
  have hlabels : entryNames p.labels.toList = labelNames statements := by
    rw [h.labels, entryNames_labelAddresses]
  rw [hlabels, List.nodup_append]
  refine ⟨h.numbered.nodup, h.nodup, ?_⟩
  rintro name hvar _ hlabel rfl
  have hnone := (h.numbered.free name hvar).2.2
  exact h.find?_eq_none.1 hnone hlabel

theorem toList_symbols (h : Assembled base statements p) :
    p.symbols.toList = p.vars.toList ++ p.labels.toList.map fun e => (e.1, (e.2 : Int)) :=
  Table.toList_foldl_insert (fun n : Nat => (n : Int)) p.labels.toList p.vars h.nodup_names

theorem nodup_symbols (h : Assembled base statements p) :
    (entryNames p.symbols.toList).Nodup := by
  have hnames : entryNames p.symbols.toList =
      entryNames p.vars.toList ++ entryNames p.labels.toList := by
    rw [h.toList_symbols]
    simp [entryNames]
  rw [hnames]
  exact h.nodup_names

theorem isSymbol_of_mem_symbols (h : Assembled base statements p)
    (hread : ∀ s ∈ statements, s.WellFormed) {e : String × Int} (he : e ∈ p.symbols.toList) :
    isSymbol e.1.toList = true := by
  rw [h.toList_symbols, List.mem_append] at he
  rcases he with he | he
  -- A variable is loaded, and what is loaded is a symbol if it is no numeral.
  · have hname : e.1 ∈ entryNames p.vars.toList := List.mem_map_of_mem he
    have hnumeral := (h.numbered.free e.1 hname).1
    have hloaded : Statement.WellFormed (.load e.1) := hread _ (h.loaded e.1 hname)
    apply hloaded.resolve_left
    intro hnot
    rw [hnumeral] at hnot
    cases hnot.1
  · obtain ⟨d, hd, rfl⟩ := List.mem_map.1 he
    have hname : d.1 ∈ labelNames statements := by
      rw [← entryNames_labelAddresses 0, ← h.labels]
      exact List.mem_map_of_mem hd
    obtain ⟨s, hs, hlabel⟩ := List.mem_filterMap.1 hname
    have hwell := hread s hs
    cases s with
    | label name =>
      rw [Statement.label?, Option.some.injEq] at hlabel
      rw [hlabel] at hwell
      exact hwell
    | load operand => cases hlabel
    | compute spelling action => cases hlabel

end Assembled

/-! ## Order -/

/-- An entry stands at a lower address than another, or at the same one under an earlier name. -/
def Precedes (x y : String × Int) : Prop := x.2 < y.2 ∨ x.2 = y.2 ∧ x.1 < y.1

instance (x y : String × Int) : Decidable (Precedes x y) :=
  inferInstanceAs (Decidable (x.2 < y.2 ∨ x.2 = y.2 ∧ x.1 < y.1))

section

variable {x y z : String × Int}

theorem Precedes.asymm (h : Precedes x y) : ¬ Precedes y x := by
  intro hback
  rcases h with haddress | ⟨haddress, hname⟩
  · rcases hback with hback | ⟨hback, -⟩
    · omega
    · omega
  · rcases hback with hback | ⟨-, hback⟩
    · omega
    · exact String.lt_asymm hname hback

theorem listedBefore_iff : listedBefore x y = true ↔ x.2 < y.2 ∨ x.2 = y.2 ∧ x.1 ≤ y.1 := by
  simp [listedBefore]

theorem listedBefore_trans (hxy : listedBefore x y = true) (hyz : listedBefore y z = true) :
    listedBefore x z = true := by
  rw [listedBefore_iff] at *
  rcases hxy with hxy | ⟨hxy, hnames⟩
  · apply Or.inl
    omega
  · rcases hyz with hyz | ⟨hyz, hnames'⟩
    · apply Or.inl
      omega
    · apply Or.inr
      exact ⟨hxy.trans hyz, String.le_trans hnames hnames'⟩

theorem listedBefore_total (x y : String × Int) :
    (listedBefore x y || listedBefore y x) = true := by
  rw [Bool.or_eq_true, listedBefore_iff, listedBefore_iff]
  rcases Int.lt_trichotomy x.2 y.2 with hlt | heq | hgt
  · exact .inl (.inl hlt)
  · rcases String.le_total x.1 y.1 with hle | hle
    · exact .inl (.inr ⟨heq, hle⟩)
    · exact .inr (.inr ⟨heq.symm, hle⟩)
  · exact .inr (.inl hgt)

theorem precedes_of_listedBefore (h : listedBefore x y = true) (hne : x.1 ≠ y.1) :
    Precedes x y := by
  rw [listedBefore_iff] at h
  apply h.imp_right
  rintro ⟨haddress, hle⟩
  refine ⟨haddress, ?_⟩
  by_contra hlt
  exact hne (String.le_antisymm hle (String.not_lt.1 hlt))

end

/-- Entries with different names are listed one strictly after the other. -/
theorem pairwise_precedes {entries : List (String × Int)} (hn : (entryNames entries).Nodup) :
    (entries.mergeSort listedBefore).Pairwise Precedes := by
  have hsorted : (entries.mergeSort listedBefore).Pairwise fun x y => listedBefore x y = true := by
    apply List.pairwise_mergeSort
    · intro x y z hxy hyz
      exact listedBefore_trans hxy hyz
    · exact listedBefore_total
  have hnames : (entries.mergeSort listedBefore).Pairwise fun x y => x.1 ≠ y.1 := by
    apply List.pairwise_map.1
    exact ((List.mergeSort_perm entries listedBefore).map Prod.fst).nodup_iff.2 hn
  apply (hsorted.and hnames).imp
  intro x y hxy
  exact precedes_of_listedBefore hxy.1 hxy.2

/-! ## Lines -/

/-- The line of an entry. -/
def entryLine (e : String × Int) : List Char := e.1.toList ++ ' ' :: (Decimal.render e.2).toList

/-- The entry that a line says: a name and a number with a space between them. -/
def entryOf? (line : List Char) : Option (String × Int) :=
  match line.splitOn ' ' with
  | [name, number] => (Decimal.signedValue? number).map fun n => (String.ofList name, n)
  | _ => none

section

variable {e : String × Int} {s : List Char} {c : Char}

theorem space_not_mem (h : ∀ c ∈ s, isBlank c = false) : ' ' ∉ s := by
  intro hspace
  have hblank := h ' ' hspace
  revert hblank
  decide

theorem entryOf?_entryLine (he : isSymbol e.1.toList = true) : entryOf? (entryLine e) = some e := by
  have hname : ' ' ∉ e.1.toList := space_not_mem (not_isBlank_of_isSymbol he)
  have hnumber : ' ' ∉ (Decimal.render e.2).toList := by
    apply space_not_mem
    intro c hc
    exact Decimal.isBlank_of_mem_render hc
  rw [entryOf?, entryLine, List.splitOn_append_cons_self_of_not_mem hname,
    List.splitOn_eq_singleton hnumber]
  simp only [String.ofList_toList, Decimal.signedValue?_render, Option.map_some]

theorem ne_nil_entryLine (e : String × Int) : entryLine e ≠ [] := by
  rw [entryLine]
  apply List.append_ne_nil_of_right_ne_nil
  apply List.cons_ne_nil

/-- The line of an entry is ASCII, and the one blank in it is the space. -/
theorem of_mem_entryLine (he : isSymbol e.1.toList = true) (hc : c ∈ entryLine e) :
    c.toNat < 128 ∧ (c = ' ' ∨ isBlank c = false) := by
  rw [entryLine, List.mem_append, List.mem_cons] at hc
  rcases hc with hc | rfl | hc
  · have hcode := toNat_of_isSymbolRest (isSymbolRest_of_mem he hc)
    exact ⟨by omega, .inr (not_isBlank_of_isSymbol he c hc)⟩
  · decide
  · exact ⟨Decimal.toNat_lt_of_mem_render hc, .inr (Decimal.isBlank_of_mem_render hc)⟩

theorem isBreak_of_mem_entryLine (he : isSymbol e.1.toList = true) (hc : c ∈ entryLine e) :
    isBreak c = false := by
  rcases (of_mem_entryLine he hc).2 with rfl | hblank
  · decide
  · exact isBreak_of_not_isBlank hblank

theorem isPlain_entryLine (he : isSymbol e.1.toList = true) : IsPlain (entryLine e) := by
  intro c hc
  refine ⟨(of_mem_entryLine he hc).1, ?_⟩
  rintro rfl
  have hbreak := isBreak_of_mem_entryLine he hc
  revert hbreak
  decide

end

/-- Lines with newlines between them and one at the end are lines that a newline ends each. -/
theorem intercalate_append_newline {lines : List (List Char)} (h : lines ≠ []) :
    ['\n'].intercalate lines ++ ['\n'] = lines.flatMap fun line => line ++ ['\n'] := by
  induction lines with
  | nil => exact absurd rfl h
  | cons line lines ih =>
    cases lines with
    | nil => simp [List.intercalate]
    | cons next lines =>
      rw [intercalate_cons_cons, List.flatMap_cons, ← ih (List.cons_ne_nil next lines)]
      simp only [List.append_assoc]

theorem toList_listing (p : Assembly) :
    p.listing.toList =
      ['\n'].intercalate ((p.symbols.toList.mergeSort listedBefore).map entryLine) ++ ['\n'] := by
  have hline : ∀ e : String × Int, (e.1 ++ " " ++ toString e.2).toList = entryLine e := by
    intro e
    simp [entryLine, Decimal.render]
  rw [Assembly.listing, String.toList_append, String.toList_intercalate, List.map_map]
  simp only [Function.comp_def, hline]
  rfl

/-! ## Listings -/

/-- What the lines of a text say that are not empty. -/
def readListing (text : String) : List (Option (String × Int)) :=
  ((rows text.toList).filter fun line => !line.isEmpty).map entryOf?

/-- Entries are the symbols of a program as they are listed. -/
structure ListsSymbols (p : Assembly) (entries : List (String × Int)) : Prop where
  /-- The entries are the variables and the labels with their addresses, each of them once. -/
  perm : entries.Perm (p.vars.toList ++ p.labels.toList.map fun e => (e.1, (e.2 : Int)))
  nodup : (entryNames entries).Nodup
  increasing : entries.Pairwise Precedes
  /-- As a table they are the table of all names. -/
  table : ∀ name, (Table.ofList entries).find? name = p.symbols.find? name

/-- The entries are listed in one order only. -/
theorem ListsSymbols.eq_of_perm {p : Assembly} {entries others : List (String × Int)}
    (h : ListsSymbols p entries) (hperm : others.Perm entries)
    (hothers : others.Pairwise Precedes) :
    others = entries := by
  apply hperm.eq_of_pairwise ?_ hothers h.increasing
  intro x y _ _ hxy hyx
  exact absurd hyx hxy.asymm

namespace Assembled

variable {base : Int} {statements : List Statement} {p : Assembly}

theorem isSymbol_of_mem_listed (h : Assembled base statements p)
    (hread : ∀ s ∈ statements, s.WellFormed) :
    ∀ e ∈ p.symbols.toList.mergeSort listedBefore, isSymbol e.1.toList = true := by
  intro e he
  exact h.isSymbol_of_mem_symbols hread (List.mem_mergeSort.1 he)

/-- The lines of a listing that are not empty are those of the entries. A program without symbols
has a listing with one line, which is empty. -/
theorem rows_listing (h : Assembled base statements p) (hread : ∀ s ∈ statements, s.WellFormed) :
    (rows p.listing.toList).filter (fun line => !line.isEmpty) =
      (p.symbols.toList.mergeSort listedBefore).map entryLine := by
  have hsymbol := h.isSymbol_of_mem_listed hread
  rw [toList_listing]
  generalize p.symbols.toList.mergeSort listedBefore = entries at hsymbol
  by_cases hnone : entries = []
  · subst hnone
    decide
  · have hlines : entries.map entryLine ≠ [] := by simpa using hnone
    rw [intercalate_append_newline hlines, rows_flatMap]
    have hrows : (entries.map entryLine).flatMap (fun line => rowsOf line) =
        entries.map entryLine := by
      rw [List.flatMap_map, ← List.flatMap_pure_eq_map]
      apply List.flatMap_congr
      intro e he
      apply rowsOf_of_no_break
      intro c hc
      exact isBreak_of_mem_entryLine (hsymbol e he) hc
    rw [hrows, List.filter_eq_self]
    intro line hline
    obtain ⟨e, -, rfl⟩ := List.mem_map.1 hline
    simpa using ne_nil_entryLine e

theorem isPlain_listing (h : Assembled base statements p)
    (hread : ∀ s ∈ statements, s.WellFormed) : IsPlain p.listing.toList := by
  have hsymbol := h.isSymbol_of_mem_listed hread
  rw [toList_listing]
  by_cases hnone : p.symbols.toList.mergeSort listedBefore = []
  · rw [hnone]
    decide
  · rw [intercalate_append_newline (by simpa using hnone), List.flatMap_map]
    apply isPlain_flatMap
    intro e he
    exact (isPlain_entryLine (hsymbol e he)).append (by decide)

/-- The listing of a program says its symbols. -/
theorem exists_listing (h : Assembled base statements p)
    (hread : ∀ s ∈ statements, s.WellFormed) :
    ∃ entries, readListing p.listing = entries.map some ∧ ListsSymbols p entries := by
  have hperm := List.mergeSort_perm p.symbols.toList listedBefore
  have hnodup : (entryNames (p.symbols.toList.mergeSort listedBefore)).Nodup :=
    (hperm.map Prod.fst).nodup_iff.2 h.nodup_symbols
  refine ⟨p.symbols.toList.mergeSort listedBefore, ?_, ?_⟩
  · rw [readListing, h.rows_listing hread, List.map_map]
    apply List.map_congr_left
    intro e he
    exact entryOf?_entryLine (h.isSymbol_of_mem_listed hread e he)
  · refine
      { perm := h.toList_symbols ▸ hperm
        nodup := hnodup
        increasing := pairwise_precedes h.nodup_symbols
        table := ?_ }
    intro name
    apply Option.ext
    intro n
    rw [Table.find?_eq_lookupEntry, Table.find?_eq_lookupEntry, Table.toList_ofList hnodup]
    constructor
    · intro hn
      exact lookupEntry_of_mem h.nodup_symbols (hperm.mem_iff.1 (mem_of_lookupEntry hn))
    · intro hn
      exact lookupEntry_of_mem hnodup (hperm.mem_iff.2 (mem_of_lookupEntry hn))

end Assembled

end HackToolchain.Asm
