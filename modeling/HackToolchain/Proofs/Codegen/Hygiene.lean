import HackToolchain.Proofs.Codegen.Programs
import Mathlib.Data.List.Nodup

/-!
# Label hygiene

If the modules, labels and functions of a program are well named, the labels in its assembly are the
names of all symbols that it defines. Each is defined once, and none is the machine's, exactly if
the names of functions and labels keep out of the way of generated names, and a jump goes to a
generated label only if it names the number of a call in its module (`labels_hygienic`).
-/

set_option autoImplicit false

namespace HackToolchain.Codegen

open Text Asm Vm

/-! ## Well-named programs -/

/-- The modules of a program are named by identifiers, and its labels and functions by program
names. No label is defined twice in a module, and no function is defined twice. -/
structure WellNamed (units : List SourceUnit) : Prop where
  modules : ∀ u ∈ units, isIdentifier u.moduleName = true
  labels : ∀ t ∈ unitTasks units, ∀ module x, t.label? = some (module, x) → isProgramName x = true
  functions : ∀ t ∈ unitTasks units, ∀ f, t.function? = some f → isProgramName f = true
  nodup_labels : ((unitTasks units).filterMap Task.label?).Nodup
  nodup_functions : ((unitTasks units).filterMap Task.function?).Nodup

theorem filterMap_programTasks {α : Type} {f : Task → Option α}
    (h : ∀ module entry stackBase, f ⟨module, .bootstrap entry stackBase⟩ = none)
    (module : Option String) (boot : Option (String × Int)) (units : List SourceUnit) :
    (programTasks module boot units).filterMap f = (unitTasks units).filterMap f := by
  rw [programTasks, List.filterMap_append, List.filterMap_map]
  have hnone : (f ∘ fun b : String × Int => ⟨module, .bootstrap b.1 b.2⟩) = fun _ => none :=
    funext fun b => h module b.1 b.2
  rw [hnone, List.filterMap_none, List.nil_append]

section

variable {options : Options} {bootstrap : Bool} {units : List SourceUnit}

namespace WellNamed

theorem proper (h : WellNamed units) {s : Symbol}
    (hs : s ∈ programSymbols options bootstrap units) : s.Proper := by
  cases mayDefine_of_mem h.modules hs with
  | label hm ht => exact fun hc => (of_isIdentifier hm hc).2.1 rfl
  | function hm ht => exact not_mem_of_isProgramName (h.functions _ ht _ rfl)
  | comparison branch n => exact trivial
  | returnAddress hm n => exact fun hc => (of_isIdentifier hm hc).2.1 rfl
  | bootstrap hb => exact trivial

theorem isSymbol_name (h : WellNamed units) {s : Symbol}
    (hs : s ∈ programSymbols options bootstrap units) : isSymbol s.name.toList = true := by
  cases mayDefine_of_mem h.modules hs with
  | label hm ht =>
    have hx := isSymbol_of_isProgramName (h.labels _ ht _ _ rfl)
    exact isSymbol_within (isSymbol_of_isIdentifier hm) fun c hc => isSymbolRest_of_mem hx hc
  | function hm ht => exact isSymbol_of_isProgramName (h.functions _ ht _ rfl)
  | comparison branch n => exact isSymbol_comparison branch n
  | returnAddress hm n => exact isSymbol_returnAddress hm n
  | bootstrap hb => decide

/-- A symbol of a well-named program has the name of a symbol within a module only if it is one. -/
theorem name_eq_within_iff (h : WellNamed units) {s : Symbol}
    (hs : s ∈ programSymbols options bootstrap units) {m : String} (hm : isIdentifier m = true)
    (x : String) : s.name = Symbol.within (some m) x ↔
      s = .label (some m) x ∨
        ∃ n, s = .returnAddress (some m) n ∧ x = "ret." ++ Decimal.render n := by
  have hlabel : (Symbol.label (some m) x).Proper := fun hc => (of_isIdentifier hm hc).2.1 rfl
  constructor
  · intro hname
    exact Symbol.parts?_eq_some (Symbol.parts?_eq_of_name_eq (h.proper hs) hlabel hname)
  · rintro (rfl | ⟨n, rfl, rfl⟩)
    · rfl
    · rfl

/-- The labels in the assembly of a well-named program are the names of the symbols that the program
defines, in the same order. -/
theorem definedLabels_eq_map (h : WellNamed units)
    (hentry : ∀ c ∈ options.entry.toList, isBreak c = false) {journal journal' : Journal}
    {result : Result}
    (ht : translateProgram options bootstrap units journal = (.ok result, journal')) :
    definedLabels result.assembly = (programSymbols options bootstrap units).map Symbol.name := by
  rw [definedLabels_of_translateProgram h.modules hentry ht,
    List.filter_eq_self.2 fun s hs => h.isSymbol_name hs]

end WellNamed

/-! ## Hygiene -/

/-- Labels are defined once, and none is the machine's, if the symbols are hygienic. -/
theorem nodup_of_hygienic (h : WellNamed units)
    (hh : Hygienic (programSymbols options bootstrap units)) :
    ((programSymbols options bootstrap units).map Symbol.name).Nodup ∧
      ∀ name ∈ (programSymbols options bootstrap units).map Symbol.name,
        predefined? name = none := by
  constructor
  · have hown := nodup_ownDefinitions h.nodup_labels h.nodup_functions
    rw [← filterMap_programTasks (fun _ _ _ => rfl) none (options.boot? bootstrap)] at hown
    exact List.Nodup.map_on (fun s hs t ht =>
      hh.name_injOn (fun u hu => h.proper hu) hs ht) (nodup_definitions {} hown)
  · intro name hname
    obtain ⟨s, hs, rfl⟩ := List.mem_map.1 hname
    -- Every symbol but a function has a sign in its name that no name of the machine has.
    cases mayDefine_of_mem h.modules hs with
    | label hm ht =>
      refine predefined?_of_sign (c := '$') ?_ (.inr (.inl rfl))
      simp [Symbol.name, toList_within_some]
    | function hm ht => exact hh.registers _ hs
    | comparison branch n =>
      refine predefined?_of_sign (c := '_') ?_ (.inr (.inr rfl))
      cases branch <;> simp [Symbol.name, String.toList_append]
    | returnAddress hm n =>
      refine predefined?_of_sign (c := '$') ?_ (.inr (.inl rfl))
      simp [Symbol.name, toList_within_some]
    | bootstrap hb => decide

/-- The symbols are hygienic if labels are defined once and none is the machine's. -/
theorem hygienic_of_nodup {symbols : List Symbol} (hn : (symbols.map Symbol.name).Nodup)
    (hfree : ∀ name ∈ symbols.map Symbol.name, predefined? name = none) : Hygienic symbols := by
  have hinj {s t : Symbol} (hs : s ∈ symbols) (ht : t ∈ symbols) (h : s.name = t.name) : s = t :=
    List.inj_on_of_nodup_map hn hs ht h
  refine ⟨fun f hf => hfree f (List.mem_map.2 ⟨_, hf, rfl⟩), ?_, ?_, ?_⟩
  · rintro _ branch n hf hc rfl
    exact Symbol.noConfusion (hinj hf hc rfl)
  · rintro _ n hf hr rfl
    exact Symbol.noConfusion (hinj hf hr rfl)
  · rintro m _ n hl hr rfl
    exact Symbol.noConfusion (hinj hl hr rfl)

def Task.target? (t : Task) : Option Symbol :=
  match t.job with
  | .command (.goto name) | .command (.ifGoto name) => some (.label t.module name)
  | _ => none

/-- In the assembly of a well-named program every label is defined once and none is the machine's
exactly if the program is hygienic, and then assembling it never fails for a label that is defined
already. A jump goes to the label of its name in its module, or to the return address of a call in
its module whose number is in the name. -/
theorem labels_hygienic (h : WellNamed units)
    (hentry : ∀ c ∈ options.entry.toList, isBreak c = false) {journal journal' : Journal}
    {result : Result}
    (ht : translateProgram options bootstrap units journal = (.ok result, journal')) :
    definedLabels result.assembly = (programSymbols options bootstrap units).map Symbol.name ∧
      (((definedLabels result.assembly).Nodup ∧
          ∀ name ∈ definedLabels result.assembly, predefined? name = none) ↔
        Hygienic (programSymbols options bootstrap units)) ∧
      (Hygienic (programSymbols options bootstrap units) → ∀ file base f,
        assemble result.assembly file base = .error f → f.isDuplicate = false) ∧
      ∀ t ∈ unitTasks units, ∀ target, t.target? = some target →
        ∀ s ∈ programSymbols options bootstrap units, s.name = target.name ↔
          s = target ∨ ∃ n, s = .returnAddress t.module n ∧
            target = .label t.module ("ret." ++ Decimal.render n) := by
  have hlabels := h.definedLabels_eq_map hentry ht
  refine ⟨hlabels, ?_, ?_, ?_⟩
  · rw [hlabels]
    exact ⟨fun hn => hygienic_of_nodup hn.1 hn.2, nodup_of_hygienic h⟩
  · intro hh file base f hf
    refine isDuplicate_of_assemble hf fun statements hread => ?_
    have hnames : labelNames statements = definedLabels result.assembly :=
      labelNames_of_readRows hread
    rw [hnames, hlabels]
    exact nodup_of_hygienic h hh
  · intro t htask target htarget s hs
    obtain ⟨m, hm, hid⟩ := exists_module h.modules htask
    obtain ⟨x, rfl⟩ : ∃ x, target = .label (some m) x := by
      unfold Task.target? at htarget
      split at htarget
      · exact ⟨_, by rw [← hm]; exact (Option.some.inj htarget).symm⟩
      · exact ⟨_, by rw [← hm]; exact (Option.some.inj htarget).symm⟩
      · simp at htarget
    rw [hm, show (Symbol.label (some m) x).name = Symbol.within (some m) x from rfl,
      h.name_eq_within_iff hs hid]
    simp

end

/-! ## Two programs -/

/-- A program of two modules, with labels, functions, a comparison and a call. -/
def tidyUnits : List SourceUnit :=
  [{ moduleName := "Sys",
     source := .ofString "function Sys.init 0\nlabel LOOP\ncall Main.run 0\ngoto LOOP\n" },
   { moduleName := "Main",
     source := .ofString "function Main.run 0\npush constant 1\npush constant 2\neq\nreturn\n" }]

theorem unitTasks_tidyUnits : unitTasks tidyUnits =
    [⟨some "Sys", .command (.function "Sys.init" 0)⟩, ⟨some "Sys", .command (.label "LOOP")⟩,
      ⟨some "Sys", .command (.call "Main.run" 0)⟩, ⟨some "Sys", .command (.goto "LOOP")⟩,
      ⟨some "Main", .command (.function "Main.run" 0)⟩,
      ⟨some "Main", .command (.push "constant" 1)⟩, ⟨some "Main", .command (.push "constant" 2)⟩,
      ⟨some "Main", .command (.arithmetic "eq")⟩, ⟨some "Main", .command .return⟩] := by
  decide +kernel

theorem wellNamed_tidyUnits : WellNamed tidyUnits := by
  refine ⟨by decide, ?_, ?_, ?_, ?_⟩
  · simp [unitTasks_tidyUnits, Task.label?]
    decide
  · simp [unitTasks_tidyUnits, Task.function?]
    decide
  · rw [unitTasks_tidyUnits]
    decide
  · rw [unitTasks_tidyUnits]
    decide

/-- With a bootstrap, the labels of the program are these, and assembling it does not fail for a
label that is defined already. -/
theorem labels_hygienic_tidyUnits : ∃ result journal,
    translateProgram {} true tidyUnits = (.ok result, journal) ∧
      definedLabels result.assembly = ["ret.0", "Sys.init", "Sys$LOOP", "Sys$ret.1", "Main.run",
        "IF_TRUE_0", "END_COMP_0"] ∧
      ∀ file base f, assemble result.assembly file base = .error f → f.isDuplicate = false := by
  obtain ⟨result, journal, ht⟩ :=
    exists_result (r := translateProgram {} true tidyUnits) (by decide +kernel)
  obtain ⟨hlabels, hhygienic, hassemble, -⟩ := labels_hygienic wellNamed_tidyUnits (by decide) ht
  have hnames : definedLabels result.assembly = ["ret.0", "Sys.init", "Sys$LOOP", "Sys$ret.1",
      "Main.run", "IF_TRUE_0", "END_COMP_0"] := hlabels.trans (by decide +kernel)
  refine ⟨result, journal, ht, hnames, hassemble (hhygienic.1 ?_)⟩
  rw [hnames]
  decide

/-- A module in which a function has a name of the machine, and a label that of a return address. -/
def clashingUnits : List SourceUnit :=
  [{ moduleName := "Main",
     source := .ofString "function SP 0\nlabel ret.0\ngoto ret.0\ncall SP 0\n" }]

theorem unitTasks_clashingUnits : unitTasks clashingUnits =
    [⟨some "Main", .command (.function "SP" 0)⟩, ⟨some "Main", .command (.label "ret.0")⟩,
      ⟨some "Main", .command (.goto "ret.0")⟩, ⟨some "Main", .command (.call "SP" 0)⟩] := by
  decide +kernel

theorem wellNamed_clashingUnits : WellNamed clashingUnits := by
  refine ⟨by decide, ?_, ?_, ?_, ?_⟩
  · simp [unitTasks_clashingUnits, Task.label?]
    decide
  · simp [unitTasks_clashingUnits, Task.function?]
    decide
  · rw [unitTasks_clashingUnits]
    decide
  · rw [unitTasks_clashingUnits]
    decide

/-- The module is well named and can be translated, but a label in its assembly is the machine's,
one is defined twice, so that it cannot be assembled, and the jump goes to the return address. -/
theorem not_hygienic_clashingUnits : WellNamed clashingUnits ∧ ∃ result journal,
    translateProgram {} false clashingUnits = (.ok result, journal) ∧
      definedLabels result.assembly = ["SP", "Main$ret.0", "Main$ret.0"] ∧
      predefined? "SP" = some 0 ∧
      (∀ file base p, assemble result.assembly file base ≠ .ok p) ∧
      ∃ t ∈ unitTasks clashingUnits, ∃ target, t.target? = some target ∧
        target.name = (Symbol.returnAddress (some "Main") 0).name := by
  obtain ⟨result, journal, ht⟩ :=
    exists_result (r := translateProgram {} false clashingUnits) (by decide +kernel)
  have hnames : definedLabels result.assembly = ["SP", "Main$ret.0", "Main$ret.0"] :=
    (wellNamed_clashingUnits.definedLabels_eq_map (by decide) ht).trans (by decide +kernel)
  refine ⟨wellNamed_clashingUnits, result, journal, ht, hnames, by decide, ?_, ?_⟩
  · intro file base p hp
    obtain ⟨statements, hread, ha⟩ := exists_assembled hp
    have hlabels : labelNames statements = definedLabels result.assembly :=
      labelNames_of_readRows hread
    have hnodup := ha.nodup
    rw [hlabels, hnames] at hnodup
    exact absurd hnodup (by decide)
  · rw [unitTasks_clashingUnits]
    exact ⟨_, .tail _ (.tail _ (.head _)), _, rfl, rfl⟩

end HackToolchain.Codegen
