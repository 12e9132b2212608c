import HackToolchain.Codegen.Emitter
import HackToolchain.Proofs.Asm.Reading
import HackToolchain.Proofs.Text.Words

/-!
# Names of modules

The name of a module is the beginning of a name in the path it was given by (`of_moduleOfName?`). So
it has no stroke in it, all its characters stand in the path, and it is a symbol if the path is one.
-/

set_option autoImplicit false

namespace HackToolchain.Codegen

open Text Asm

/-! ## Names in paths -/

theorem infix_of_mem_namesOf {s : List Char} {name : String} (h : name ∈ Path.namesOf s) :
    name.toList <:+: s := by
  obtain ⟨w, hw, rfl⟩ := List.mem_map.1 h
  rw [String.toList_ofList]
  exact (stretches_infix_aux s).1 w (List.mem_of_mem_filter hw)

theorem ne_slash_of_mem_namesOf {s : List Char} {name : String} (h : name ∈ Path.namesOf s) :
    '/' ∉ name.toList := by
  obtain ⟨w, hw, rfl⟩ := List.mem_map.1 h
  rw [String.toList_ofList]
  intro hmem
  have := (of_mem_stretches (List.mem_of_mem_filter hw)).2 '/' hmem
  exact absurd this (by decide)

theorem eq_of_mem_namesOf {s : List Char} (hs : '/' ∉ s) {name : String}
    (h : name ∈ Path.namesOf s) : name.toList = s := by
  obtain ⟨w, hw, rfl⟩ := List.mem_map.1 h
  rw [String.toList_ofList]
  have hw := List.mem_of_mem_filter hw
  by_cases hne : s = []
  · subst hne
    exact absurd hw List.not_mem_nil
  · have hkeep : ∀ c ∈ s, (c == '/') = false := by
      intro c hc
      apply beq_false_of_ne
      rintro rfl
      exact hs hc
    rw [stretches_eq_singleton hne hkeep] at hw
    exact List.mem_singleton.1 hw

/-! ## Modules -/

variable {name m : String}

/-- The name of a module is not empty, and a name in its path begins with it. -/
theorem of_moduleOfName? (h : moduleOfName? name = some m) :
    m.toList ≠ [] ∧ ∃ last ∈ Path.namesOf name.toList, m.toList <+: last.toList := by
  unfold moduleOfName? at h
  simp only [Option.ite_none_left_eq_some, Option.some.injEq] at h
  obtain ⟨hne, rfl⟩ := h
  rw [String.toList_ofList]
  rw [List.isEmpty_iff] at hne
  refine ⟨hne, ?_⟩
  cases hl : (Path.namesOf name.toList).getLast? with
  | none =>
    have hname : (Path.ofString name).name = "" := by
      rw [Path.name, Path.ofString, hl]
      rfl
    rw [hname] at hne
    exact absurd rfl hne
  | some last =>
    have hname : (Path.ofString name).name = last := by
      rw [Path.name, Path.ofString, hl]
      rfl
    rw [hname]
    refine ⟨last, List.mem_of_getLast? hl, ?_⟩
    split
    · exact List.take_prefix _ _
    · exact List.prefix_rfl

theorem ne_slash_of_moduleOfName? (h : moduleOfName? name = some m) : '/' ∉ m.toList := by
  obtain ⟨-, last, hlast, hm⟩ := of_moduleOfName? h
  exact fun hmem => ne_slash_of_mem_namesOf hlast (hm.subset hmem)

theorem mem_of_moduleOfName? (h : moduleOfName? name = some m) {c : Char} (hc : c ∈ m.toList) :
    c ∈ name.toList := by
  obtain ⟨-, last, hlast, hm⟩ := of_moduleOfName? h
  exact (infix_of_mem_namesOf hlast).subset (hm.subset hc)

theorem isSymbol_of_moduleOfName? (h : moduleOfName? name = some m)
    (hs : isSymbol name.toList = true) : isSymbol m.toList = true := by
  have hslash : '/' ∉ name.toList := fun hc =>
    (isBlank_of_isSymbolRest (isSymbolRest_of_mem hs hc)).2.1 rfl
  obtain ⟨hne, last, hlast, hm⟩ := of_moduleOfName? h
  rw [eq_of_mem_namesOf hslash hlast] at hm
  obtain ⟨rest, hrest⟩ := hm
  cases hlist : m.toList with
  | nil => exact absurd hlist hne
  | cons c s =>
    rw [hlist] at hrest
    rw [← hrest] at hs
    simp only [isSymbol, List.cons_append, Bool.and_eq_true, List.all_append] at hs
    exact Bool.and_eq_true_iff.2 ⟨hs.1, hs.2.1⟩

end HackToolchain.Codegen
