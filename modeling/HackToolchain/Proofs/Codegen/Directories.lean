import HackToolchain.Proofs.Codegen.Modules
import HackToolchain.Proofs.Codegen.Naming
import HackToolchain.Proofs.Codegen.Outputs
import Mathlib.Data.List.Nodup

/-!
# The modules of a directory

The sources of a directory are translated to one module each, in the order of their names
(`modules_of_translateProgram`). The name of a module is the stem of its file, but a second suffix
of sources is dropped from the stem as well. So two files may come to share a module; the modules
are different just if no two files do (`modules_nodup_iff`).
-/

set_option autoImplicit false

namespace HackToolchain.Codegen

open Text FileTree Workspace Asm

/-! ## Names of files -/

/-- The name of a file without its suffix. -/
def stemOf (name : String) : List Char := (Path.splitName name.toList).1

/-- A stem without another suffix of sources. -/
def chop (stem : List Char) : List Char :=
  if ".vm".toList.isSuffixOf stem then stem.take (stem.length - ".vm".toList.length) else stem

/-- The module that a source is translated to. -/
def moduleOfFile (name : String) : String := String.ofList (chop (stemOf name))

/-- Two sources share a module if their stems are the same, or if one has a suffix more than the
other. -/
def SharesModule (a b : String) : Prop :=
  stemOf a = stemOf b ∨
    (stemOf a = stemOf b ++ ".vm".toList ∧ ¬".vm".toList <:+ stemOf b) ∨
    (stemOf b = stemOf a ++ ".vm".toList ∧ ¬".vm".toList <:+ stemOf a)

section

variable {s t : List Char} {a b m m' x : String}

theorem chop_append (s : List Char) : chop (s ++ ".vm".toList) = s := by
  have hsuffix : ".vm".toList.isSuffixOf (s ++ ".vm".toList) = true :=
    List.isSuffixOf_iff_suffix.2 (List.suffix_append s _)
  rw [chop, if_pos hsuffix, List.length_append, Nat.add_sub_cancel, List.take_left]

theorem chop_of_not_suffix (h : ¬".vm".toList <:+ s) : chop s = s :=
  if_neg (mt List.isSuffixOf_iff_suffix.1 h)

/-- Two stems are the same when they are chopped just if they are the same but for one suffix. -/
theorem chop_eq_chop : chop s = chop t ↔
    s = t ∨ (s = t ++ ".vm".toList ∧ ¬".vm".toList <:+ t) ∨
      (t = s ++ ".vm".toList ∧ ¬".vm".toList <:+ s) := by
  by_cases hs : ".vm".toList <:+ s
  · obtain ⟨s, rfl⟩ := hs
    rw [chop_append]
    by_cases ht : ".vm".toList <:+ t
    · obtain ⟨t, rfl⟩ := ht
      rw [chop_append]
      have hends (u : List Char) : ".vm".toList <:+ u ++ ".vm".toList := List.suffix_append u _
      simp only [hends, not_true_eq_false, and_false, or_false, List.append_left_inj]
    · rw [chop_of_not_suffix ht]
      constructor
      · rintro rfl
        exact .inr (.inl ⟨rfl, ht⟩)
      · rintro (rfl | ⟨h, -⟩ | ⟨rfl, -⟩)
        · exact absurd (List.suffix_append s _) ht
        · exact List.append_cancel_right h
        · exact absurd (List.suffix_append _ _) ht
  · rw [chop_of_not_suffix hs]
    by_cases ht : ".vm".toList <:+ t
    · obtain ⟨t, rfl⟩ := ht
      rw [chop_append]
      constructor
      · rintro rfl
        exact .inr (.inr ⟨rfl, hs⟩)
      · rintro (rfl | ⟨rfl, -⟩ | ⟨h, -⟩)
        · exact absurd (List.suffix_append t _) hs
        · exact absurd (List.suffix_append _ _) hs
        · exact (List.append_cancel_right h).symm
    · rw [chop_of_not_suffix ht]
      constructor
      · exact .inl
      · rintro (h | ⟨rfl, -⟩ | ⟨rfl, -⟩)
        · exact h
        · exact absurd (List.suffix_append t _) hs
        · exact absurd (List.suffix_append s _) ht

theorem moduleOfFile_eq_iff : moduleOfFile a = moduleOfFile b ↔ SharesModule a b := by
  rw [moduleOfFile, moduleOfFile, String.ofList_inj, chop_eq_chop]
  rfl

theorem ne_slash_of_stemOf (h : '/' ∉ a.toList) : '/' ∉ stemOf a := by
  rw [← Path.splitName_append a.toList] at h
  exact fun hmem => h (List.mem_append_left _ hmem)

/-- The module of a stem without strokes is the stem chopped, if it is a module at all. -/
theorem moduleOfName?_of_stem (hslash : '/' ∉ s) (h : moduleOfName? (String.ofList s) = some m) :
    m = String.ofList (chop s) := by
  rw [moduleOfName?] at h
  simp only [Option.ite_none_left_eq_some, Option.some.injEq] at h
  obtain ⟨hne, rfl⟩ := h
  have hlast : (Path.ofString (String.ofList s)).name.toList = s := by
    rw [Path.name, Path.ofString] at hne ⊢
    cases hl : (Path.namesOf (String.ofList s).toList).getLast? with
    | none =>
      rw [hl] at hne
      exact absurd rfl hne
    | some last =>
      have hmem := List.mem_of_getLast? hl
      rw [String.toList_ofList] at hmem
      exact eq_of_mem_namesOf hslash hmem
  rw [hlast]
  rfl

/-- Static variables of different modules have different names. -/
theorem name_static_inj {i j : Int} :
    (Symbol.static m i).name = (Symbol.static m' j).name ↔ m = m' ∧ i = j := by
  have hname (m : String) (i : Int) : (Symbol.static m i).name.toList =
      m.toList ++ '.' :: (Decimal.render i).toList := by
    simp [Symbol.name, String.toList_append]
  constructor
  · intro h
    have hl := congrArg String.toList h
    rw [hname, hname] at hl
    obtain ⟨hmodule, hindex⟩ := append_dot_render_inj hl
    exact ⟨String.toList_injective hmodule, hindex⟩
  · rintro ⟨rfl, rfl⟩
    rfl

/-- A label has different names in different modules. -/
theorem within_left_inj : Symbol.within (some m) x = Symbol.within (some m') x ↔ m = m' := by
  constructor
  · intro h
    have hl := congrArg String.toList h
    rw [toList_within_some, toList_within_some] at hl
    exact String.toList_injective (List.append_cancel_right hl)
  · rintro rfl
    rfl

end

/-! ## Modules of units -/

section

variable {units : List SourceUnit}

/-- Sources that are translated are in modules, each in its own. -/
theorem modules_of_translateUnits {s s' : Session} {modules modules' : List String}
    {count count' : Nat}
    (h : s.translateUnits modules count units = (.ok (modules', count'), s')) :
    modules' = modules.reverse ++ units.map (fun u => (moduleOfName? u.moduleName).getD "") ∧
      ∀ u ∈ units, (moduleOfName? u.moduleName).isSome := by
  induction units generalizing s modules count with
  | nil =>
    obtain ⟨hmodules, -⟩ := Prod.mk.inj (Except.ok.inj (Prod.mk.inj h).1)
    exact ⟨by rw [← hmodules, List.map_nil, List.append_nil],
      fun _ hu => absurd hu List.not_mem_nil⟩
  | cons u units ih =>
    rw [Session.translateUnits_cons] at h
    obtain ⟨n, t, hunit, h⟩ := Session.andThen_eq_ok h
    rw [Session.translateUnit_eq_andThen] at hunit
    obtain ⟨-, t', -, hmodule⟩ := Session.andThen_eq_ok hunit
    obtain ⟨hsome, hentered, -⟩ := wrote_of_translateModule hmodule
    obtain ⟨hmodules, hrest⟩ := ih h
    refine ⟨?_, ?_⟩
    · rw [hmodules, hentered, List.reverse_cons, List.append_assoc, List.map_cons]
      rfl
    · intro v hv
      rcases List.mem_cons.1 hv with rfl | hv
      · exact hsome
      · exact hrest v hv

theorem modules_of_translateProgram {options : Options} {bootstrap : Bool} {journal : Journal}
    {r : Result} (h : (translateProgram options bootstrap units journal).1 = .ok r) :
    r.modules = units.map (fun u => (moduleOfName? u.moduleName).getD "") ∧
      ∀ u ∈ units, (moduleOfName? u.moduleName).isSome := by
  rw [translateProgram_eq_result] at h
  generalize hx : Session.andThen _ _ = x at h
  obtain ⟨f | ⟨modules, count⟩, s⟩ := x
  · cases h
  · obtain ⟨-, t, -, hunits⟩ := Session.andThen_eq_ok hx
    obtain ⟨hmodules, hsome⟩ := modules_of_translateUnits hunits
    rw [← Except.ok.inj h]
    exact ⟨hmodules, hsome⟩

theorem moduleNames_of_openSources {w : Workspace} {sources : List Path}
    (h : openSources w sources = .ok units) :
    units.map (·.moduleName) = sources.map Path.stem := by
  induction sources generalizing units with
  | nil =>
    rw [← Except.ok.inj h]
    rfl
  | cons s sources ih =>
    rw [openSources] at h
    split at h
    · cases hrest : openSources w sources with
      | error f =>
        rw [hrest] at h
        cases h
      | ok rest =>
        rw [hrest] at h
        rw [← Except.ok.inj h, List.map_cons, List.map_cons, ih hrest]
    · cases h
    · cases h

end

/-! ## Directories -/

/-- A tree as a file system has it: no two nodes at one place, and no strokes in names. -/
structure ProperTree (t : FileTree) : Prop where
  nodup : (t.nodes.map (·.1)).Nodup
  slash : ∀ n ∈ t.nodes, ∀ name ∈ n.1, '/' ∉ name.toList

section

variable {t : FileTree} {d : Place}

theorem listed?_inj {n n' : Place × Node} {e e' : String × Node} (h : listed? d n = some e)
    (h' : listed? d n' = some e') (hname : e.1 = e'.1) : n.1 = n'.1 := by
  obtain ⟨hlast, hd, -⟩ := listed?_eq_some.1 h
  obtain ⟨hlast', hd', -⟩ := listed?_eq_some.1 h'
  rw [← List.dropLast_append_getLast? e.1 hlast, hd, hname,
    ← List.dropLast_append_getLast? e'.1 hlast', hd']

/-- A directory lists no name twice. -/
theorem ProperTree.nodup_children (h : ProperTree t) (d : Place) :
    ((t.children d).map (·.1)).Nodup := by
  obtain ⟨hnodup, -⟩ := h
  rw [children_eq]
  generalize t.nodes = nodes at hnodup
  induction nodes with
  | nil => exact List.nodup_nil
  | cons n nodes ih =>
    rw [List.map_cons, List.nodup_cons] at hnodup
    cases he : listed? d n with
    | none =>
      rw [List.filterMap_cons_none he]
      exact ih hnodup.2
    | some e =>
      rw [List.filterMap_cons_some he, List.map_cons, List.nodup_cons]
      refine ⟨fun hmem => hnodup.1 ?_, ih hnodup.2⟩
      obtain ⟨e', he', hname⟩ := List.mem_map.1 hmem
      obtain ⟨n', hn', he'⟩ := List.mem_filterMap.1 he'
      rw [listed?_inj he he' hname.symm]
      exact List.mem_map_of_mem hn'

theorem ProperTree.nodup_sourceNames (h : ProperTree t) (d : Place) :
    (sourceNames (t.children d)).Nodup := by
  rw [sourceNames_eq, (List.mergeSort_perm _ _).nodup_iff]
  exact (h.nodup_children d).sublist (List.filter_sublist.map _)

theorem ProperTree.slash_sourceNames (h : ProperTree t) {name : String}
    (hname : name ∈ sourceNames (t.children d)) : '/' ∉ name.toList := by
  rw [sourceNames_eq, (List.mergeSort_perm _ _).mem_iff] at hname
  obtain ⟨e, he, rfl⟩ := List.mem_map.1 hname
  have he := List.mem_of_mem_filter he
  rw [children_eq, List.mem_filterMap] at he
  obtain ⟨n, hn, he⟩ := he
  exact h.slash n hn _ (List.mem_of_getLast? (listed?_eq_some.1 he).1)

end

/-- The modules of a directory that is translated are those of its sources, in order. They are
different if no two sources share a module, and only then. Two sources that share a module, and no
others, share their static variables and their labels. -/
theorem modules_nodup_iff {w : Workspace} {options : Options} {p : Path} {journal : Journal}
    {d : Place} {r : Result} (hproper : ProperTree w.tree) (hspot : w.spot p = .directory d)
    (h : (translatePath w options p journal).1 = .ok r) :
    let names := sourceNames (w.tree.children d)
    r.modules = names.map moduleOfFile ∧
      (r.modules.Nodup ↔ ∀ a ∈ names, ∀ b ∈ names, a ≠ b → ¬SharesModule a b) ∧
      ∀ a ∈ names, ∀ b ∈ names,
        (∀ i j, (Symbol.static (moduleOfFile a) i).name = (Symbol.static (moduleOfFile b) j).name ↔
          SharesModule a b ∧ i = j) ∧
        ∀ x, Symbol.within (some (moduleOfFile a)) x = Symbol.within (some (moduleOfFile b)) x ↔
          SharesModule a b := by
  intro names
  obtain ⟨sources, units, bootstrap, hsources, hunits, hprogram⟩ := exists_units_of_translatePath h
  obtain ⟨-, -, rfl⟩ := (discover_directory hspot).1 hsources
  obtain ⟨hmodules, hsome⟩ := modules_of_translateProgram hprogram
  have hstems : units.map (·.moduleName) = names.map fun name => String.ofList (stemOf name) := by
    rw [moduleNames_of_openSources hunits, List.map_map]
    apply List.map_congr_left
    intro name _
    simp [Path.stem, Path.name, Path.child, stemOf]
  have hmodule : ∀ name ∈ names,
      (moduleOfName? (String.ofList (stemOf name))).getD "" = moduleOfFile name := by
    intro name hname
    have hstem : String.ofList (stemOf name) ∈ units.map (·.moduleName) := by
      rw [hstems]
      exact List.mem_map_of_mem hname
    obtain ⟨u, hu, hstem⟩ := List.mem_map.1 hstem
    obtain ⟨m, hm⟩ := Option.isSome_iff_exists.1 (hsome u hu)
    rw [hstem] at hm
    rw [hm]
    exact moduleOfName?_of_stem (ne_slash_of_stemOf (hproper.slash_sourceNames hname)) hm
  have hnames : r.modules = names.map moduleOfFile := by
    calc r.modules = (units.map (·.moduleName)).map fun m => (moduleOfName? m).getD "" := by
          rw [hmodules, List.map_map, Function.comp_def]
      _ = names.map fun name => (moduleOfName? (String.ofList (stemOf name))).getD "" := by
          rw [hstems, List.map_map, Function.comp_def]
      _ = names.map moduleOfFile := List.map_congr_left hmodule
  refine ⟨hnames, ?_, fun a _ b _ => ⟨fun i j => ?_, fun x => ?_⟩⟩
  · rw [hnames, List.nodup_map_iff_inj_on (hproper.nodup_sourceNames d)]
    constructor
    · intro hinj a ha b hb hne hshares
      exact hne (hinj a ha b hb (moduleOfFile_eq_iff.2 hshares))
    · intro hapart a ha b hb heq
      by_contra hne
      exact hapart a ha b hb hne (moduleOfFile_eq_iff.1 heq)
  · rw [name_static_inj, moduleOfFile_eq_iff]
  · rw [within_left_inj, moduleOfFile_eq_iff]

/-- A directory of two sources that share a module, since one has a suffix more than the other. -/
def twinWorkspace : Workspace where
  tree := { nodes := [
    (["d"], .directory), (["d", "a.vm"], .file "push static 0\n".toUTF8),
    (["d", "a.vm.vm"], .file "pop static 0\n".toUTF8)] }

theorem modules_nodup_iff_twinWorkspace :
    ∃ r, (translatePath twinWorkspace { bootstrap := some false } (.ofString "d")).1 = .ok r ∧
      r.modules = ["a", "a"] ∧ ¬r.modules.Nodup := by
  have hproper : ProperTree twinWorkspace.tree := ⟨by decide, by decide⟩
  have hspot : twinWorkspace.spot (.ofString "d") = .directory ["d"] := by decide +kernel
  have hlisted : sourceNames (twinWorkspace.tree.children ["d"]) = ["a.vm", "a.vm.vm"] :=
    sourceNames_sorted (by decide +kernel) (by decide)
  have hdiscover : discover twinWorkspace (.ofString "d") =
      .ok (["a.vm", "a.vm.vm"].map (Path.ofString "d").child) :=
    discover_sorted hspot (by decide +kernel) (by decide) nofun (by decide +kernel)
  have hok : (translatePath twinWorkspace { bootstrap := some false }
      (.ofString "d")).1.isOk = true := by
    rw [translatePath, hdiscover]
    decide +kernel
  cases hpath : (translatePath twinWorkspace { bootstrap := some false } (.ofString "d")).1 with
  | error f =>
    rw [hpath] at hok
    cases hok
  | ok r =>
    obtain ⟨hmodules, hnodup, -⟩ := modules_nodup_iff hproper hspot hpath
    rw [hlisted] at hmodules hnodup
    refine ⟨r, rfl, hmodules.trans (by decide +kernel), fun h => ?_⟩
    exact hnodup.1 h "a.vm" (by decide) "a.vm.vm" (by decide) (by decide)
      (.inr (.inr ⟨by decide +kernel, by decide +kernel⟩))

end HackToolchain.Codegen
