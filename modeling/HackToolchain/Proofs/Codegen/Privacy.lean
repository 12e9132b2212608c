import HackToolchain.Proofs.Asm.Variables
import HackToolchain.Proofs.Codegen.Programs
import HackToolchain.Proofs.Codegen.Statics

/-!
# Static variables are private

A static variable of a program is a variable of the assembled program, unless it is shadowed: unless
a function has its name, or it has the name of the return address of the bootstrap. Static variables
that are not shadowed have the same cell only if they are of the same module and have the same index
(`statics_private`).
-/

set_option autoImplicit false

namespace HackToolchain.Codegen

open Text Machine Asm Vm

/-! ## Names of static variables -/

/-- The static variables that a program pushes and pops: for each, its module and its index. -/
def staticsOf (units : List SourceUnit) : List (String × Int) :=
  (unitTasks units).filterMap Task.static?

def staticName (v : String × Int) : String := (Symbol.static v.1 v.2).name

/-- A static variable is shadowed by a function of its name, or by the return address of the
bootstrap. -/
def Shadowed (bootstrap : Bool) (units : List SourceUnit) (v : String × Int) : Prop :=
  (∃ t ∈ unitTasks units, t.function? = some (staticName v)) ∨ bootstrap = true ∧ v = ("ret", 0)

section

variable {options : Options} {bootstrap : Bool} {units : List SourceUnit}

theorem of_mem_staticsOf (hm : ∀ u ∈ units, isIdentifier u.moduleName = true) {v : String × Int}
    (hv : v ∈ staticsOf units) :
    ∃ m, ∃ n : Nat, v = (m, (n : Int)) ∧ isIdentifier m = true ∧
      ∃ t ∈ unitTasks units, t.static? = some v := by
  obtain ⟨t, ht, hs⟩ := List.mem_filterMap.1 hv
  obtain ⟨m, i⟩ := v
  have hindex : 0 ≤ i ∧ t.module = some m := by
    obtain ⟨segment, -, rfl | rfl⟩ := Task.static?_eq_some.1 hs
    · obtain ⟨-, -, -, line, -, c, hc, hjob⟩ := of_mem_unitTasks ht
      obtain rfl := Job.command.inj hjob
      exact ⟨(of_commandOf? hc).2 i rfl, rfl⟩
    · obtain ⟨-, -, -, line, -, c, hc, hjob⟩ := of_mem_unitTasks ht
      obtain rfl := Job.command.inj hjob
      exact ⟨(of_commandOf? hc).2 i rfl, rfl⟩
  obtain ⟨n, rfl⟩ := Int.eq_ofNat_of_zero_le hindex.1
  obtain ⟨m', hmodule, hid⟩ := exists_module hm ht
  obtain rfl := Option.some.inj (hindex.2.symm.trans hmodule)
  exact ⟨m, n, rfl, hid, t, ht, hs⟩

theorem toList_staticName (v : String × Int) :
    (staticName v).toList = v.1.toList ++ '.' :: (Decimal.render v.2).toList :=
  toList_name_static v.1 v.2

theorem isSymbol_staticName {m : String} (hm : isIdentifier m = true) (n : Nat) :
    isSymbol (staticName (m, (n : Int))).toList = true := by
  rw [toList_staticName, Decimal.toList_render_natCast]
  refine isSymbol_append (isSymbol_of_isIdentifier hm) fun c hc => ?_
  rcases List.mem_cons.1 hc with rfl | hc
  · decide
  · rw [isSymbolRest, Decimal.isDigit_of_mem_toDigits hc, Bool.or_true]

theorem staticName_inj {v w : String × Int} (hv : isIdentifier v.1 = true)
    (hw : isIdentifier w.1 = true) (h : staticName v = staticName w) : v = w := by
  have hl := congrArg String.toList h
  rw [toList_staticName, toList_staticName] at hl
  obtain ⟨hmodule, hindex⟩ := append_cons_inj (fun hc => (of_isIdentifier hv hc).1 rfl)
    (fun hc => (of_isIdentifier hw hc).1 rfl) hl
  exact Prod.ext (String.toList_injective hmodule)
    (Decimal.render_injective (String.toList_injective hindex))

theorem within_ne_staticName {m m' x : String} {n : Nat} (hm : isIdentifier m = true) :
    Symbol.within (some m') x ≠ staticName (m, (n : Int)) := by
  intro h
  have hmem : '$' ∈ (staticName (m, (n : Int))).toList := by
    rw [← h, toList_within_some]
    exact List.mem_append_right _ List.mem_cons_self
  rw [toList_staticName, List.mem_append] at hmem
  rcases hmem with hmem | hmem
  · exact (of_isIdentifier hm hmem).2.1 rfl
  · rcases List.mem_cons.1 hmem with h | hmem
    · exact absurd h (by decide)
    · exact not_mem_render (by decide) (by decide) hmem

theorem comparison_ne_staticName (branch : Branch) (n : Nat) (v : String × Int) :
    (Symbol.comparison branch n).name ≠ staticName v := by
  intro h
  have hmem : '.' ∈ (Symbol.comparison branch n).name.toList := by
    rw [h, toList_staticName]
    exact List.mem_append_right _ List.mem_cons_self
  have hrender (text : String) (ht : '.' ∉ text.toList) :
      '.' ∉ (text ++ Decimal.render n).toList := by
    rw [String.toList_append, List.mem_append, not_or]
    exact ⟨ht, not_mem_render (by decide) (by decide)⟩
  cases branch with
  | holds => exact hrender _ (by decide) hmem
  | done => exact hrender _ (by decide) hmem

/-- A static variable of a program has the name of a symbol that the program defines exactly if it
is shadowed. -/
theorem exists_name_eq_staticName_iff (hm : ∀ u ∈ units, isIdentifier u.moduleName = true)
    {m : String} (hid : isIdentifier m = true) (n : Nat) :
    (∃ s ∈ programSymbols options bootstrap units, s.name = staticName (m, (n : Int))) ↔
      Shadowed bootstrap units (m, (n : Int)) := by
  constructor
  · rintro ⟨s, hs, hname⟩
    cases mayDefine_of_mem hm hs with
    | label hm' ht => exact absurd hname (within_ne_staticName hid)
    | function hm' ht => exact .inl ⟨_, ht, congrArg some hname⟩
    | comparison branch k => exact absurd hname (comparison_ne_staticName branch k _)
    | returnAddress hm' k => exact absurd hname (within_ne_staticName hid)
    | bootstrap hb =>
      refine .inr ⟨hb, staticName_inj hid (w := ("ret", 0)) (by decide) ?_⟩
      exact hname.symm.trans (by decide)
  · rintro (⟨t, ht, hf⟩ | ⟨rfl, hv⟩)
    · exact ⟨_, function_mem_programSymbols ht hf, rfl⟩
    · refine ⟨.returnAddress none 0, ?_, ?_⟩
      · rw [programSymbols_eq]
        exact List.mem_append_left _ (List.mem_singleton_self _)
      · rw [hv]
        decide

/-! ## Cells of static variables -/

/-- The statement that loads a static variable of a program stands in its assembly. -/
theorem load_staticName_mem (hm : ∀ u ∈ units, isIdentifier u.moduleName = true)
    (hentry : ∀ c ∈ options.entry.toList, isBreak c = false) {journal journal' : Journal}
    {result : Result}
    (ht : translateProgram options bootstrap units journal = (.ok result, journal'))
    {statements : List Statement} (hread : readRows (rows result.assembly.toList) = some statements)
    {v : String × Int} (hv : v ∈ staticsOf units) : .load (staticName v) ∈ statements := by
  obtain ⟨m, n, rfl, hid, t, htask, hs⟩ := of_mem_staticsOf hm hv
  obtain ⟨lines, codes, k, hassembly, -, hcode, -, hdrafts⟩ := exists_unbroken_code hm hentry ht
  obtain ⟨i, hi⟩ := List.getElem?_of_mem (List.mem_append_right
    ((options.boot? bootstrap).toList.map fun b => ⟨none, .bootstrap b.1 b.2⟩) htask)
  obtain ⟨k', d, hdraft, hd⟩ := hdrafts.exists_draft hi
  have hload : .load (.static m n) ∈ lines := by
    refine List.mem_of_mem_filter (p := fun l => !l.isComment) ?_
    rw [← withoutComments, hcode]
    exact List.mem_flatten.2 ⟨_, List.mem_of_getElem? hd, Task.load_mem_of_static? hdraft hs⟩
  rw [hassembly, readRows_renderLines] at hread
  obtain ⟨xs, ys, rfl⟩ := List.append_of_mem hload
  obtain ⟨a, b, -, hb, rfl⟩ := readCode_append_eq_some.1 hread
  obtain ⟨c, d', hc, -, rfl⟩ := readCode_cons_eq_some.1 hb
  rw [(Line.read_of_isSymbol (s := .static m n) (isSymbol_staticName hid n)).2] at hc
  obtain rfl := Option.some.inj hc
  exact List.mem_append_right _ List.mem_cons_self

/-- A static variable of a program is a label of the assembled program exactly if it is shadowed. -/
theorem isSome_label_iff_shadowed (hm : ∀ u ∈ units, isIdentifier u.moduleName = true)
    (hentry : ∀ c ∈ options.entry.toList, isBreak c = false) {journal journal' : Journal}
    {result : Result}
    (ht : translateProgram options bootstrap units journal = (.ok result, journal')) {base : Int}
    {p : Assembly} {statements : List Statement}
    (hread : readRows (rows result.assembly.toList) = some statements)
    (ha : Assembled base statements p) {v : String × Int} (hv : v ∈ staticsOf units) :
    (p.labels.find? (staticName v)).isSome ↔ Shadowed bootstrap units v := by
  obtain ⟨m, n, rfl, hid, -⟩ := of_mem_staticsOf hm hv
  have hnames : labelNames statements = definedLabels result.assembly :=
    labelNames_of_readRows hread
  rw [Option.isSome_iff_ne_none, ne_eq, ha.find?_eq_none, not_not, hnames,
    definedLabels_of_translateProgram hm hentry ht, ← exists_name_eq_staticName_iff hm hid n]
  constructor
  · intro hmem
    obtain ⟨s, hs, hname⟩ := List.mem_map.1 hmem
    exact ⟨s, List.mem_of_mem_filter hs, hname⟩
  · rintro ⟨s, hs, hname⟩
    refine List.mem_map.2 ⟨s, List.mem_filter.2 ⟨hs, ?_⟩, hname⟩
    rw [hname]
    exact isSymbol_staticName hid n

theorem predefined?_staticName (v : String × Int) : predefined? (staticName v) = none := by
  refine predefined?_of_sign (c := '.') ?_ (.inl rfl)
  simp [toList_staticName]

theorem isSome_var_iff_not_label {base : Int} {p : Assembly} {statements : List Statement}
    (ha : Assembled base statements p) {v : String × Int} (hv : .load (staticName v) ∈ statements) :
    (p.vars.find? (staticName v)).isSome ↔ ¬(p.labels.find? (staticName v)).isSome := by
  constructor
  · intro hsome hlab
    have hmem : staticName v ∈ entryNames p.vars.toList := by
      rwa [← isSome_lookupEntry, ← Table.find?_eq_lookupEntry]
    simp [(ha.numbered.free _ hmem).2.2] at hlab
  · intro hlab
    have hnumeral : Decimal.isNumeral (staticName v).toList = false :=
      isNumeral_of_dot (by simp [toList_staticName])
    have hbound := ha.bound _ hv
    rw [Assembly.value?, hnumeral, predefined?_staticName,
      Option.not_isSome_iff_eq_none.1 hlab] at hbound
    exact hbound

/-- A static variable is a variable of the assembled program exactly if it is not shadowed, else it
is a label; it is never a name of the machine, and the word that loads it is that of its cell.
Static variables that are not shadowed have the same cell exactly if their modules and their indices
are the same, and in a program that fits in the memory the words that load them are the same only
then. -/
theorem statics_private (hm : ∀ u ∈ units, isIdentifier u.moduleName = true)
    (hentry : ∀ c ∈ options.entry.toList, isBreak c = false) {journal journal' : Journal}
    {result : Result}
    (ht : translateProgram options bootstrap units journal = (.ok result, journal')) {file : String}
    {base : Int} {p : Assembly} (hp : assemble result.assembly file base = .ok p) :
    (∃ statements, readRows (rows result.assembly.toList) = some statements ∧
      p.words.toList = statements.filterMap p.wordOf ∧
      ∀ v ∈ staticsOf units, .load (staticName v) ∈ statements) ∧
    (∀ v ∈ staticsOf units, predefined? (staticName v) = none ∧
      ((p.labels.find? (staticName v)).isSome ↔ Shadowed bootstrap units v) ∧
      ((p.vars.find? (staticName v)).isSome ↔ ¬Shadowed bootstrap units v) ∧
      ∀ n, p.vars.find? (staticName v) = some n →
        base ≤ n ∧ p.wordOf (.load (staticName v)) = some (encodeLoad n)) ∧
    ∀ v ∈ staticsOf units, ∀ w ∈ staticsOf units,
      ¬Shadowed bootstrap units v → ¬Shadowed bootstrap units w →
        (p.vars.find? (staticName v) = p.vars.find? (staticName w) ↔ v = w) ∧
        (p.words.size ≤ memoryWords →
          (p.wordOf (.load (staticName v)) = p.wordOf (.load (staticName w)) ↔ v = w)) := by
  obtain ⟨statements, hread, ha⟩ := exists_assembled hp
  have hload {v : String × Int} (hv : v ∈ staticsOf units) : .load (staticName v) ∈ statements :=
    load_staticName_mem hm hentry ht hread hv
  have hlabel {v : String × Int} (hv : v ∈ staticsOf units) :=
    isSome_label_iff_shadowed hm hentry ht hread ha hv
  have hvar {v : String × Int} (hv : v ∈ staticsOf units) :
      (p.vars.find? (staticName v)).isSome ↔ ¬Shadowed bootstrap units v :=
    (isSome_var_iff_not_label ha (hload hv)).trans (not_congr (hlabel hv))
  refine ⟨⟨statements, hread, ha.words, fun v hv => hload hv⟩, fun v hv => ?_,
    fun v hv w hw hsv hsw => ?_⟩
  · refine ⟨predefined?_staticName v, hlabel hv, hvar hv, fun n hn => ⟨?_, ha.wordOf_var hn⟩⟩
    obtain ⟨i, -, rfl, -⟩ := ha.exists_place hn
    omega
  · have hinj (h : staticName v = staticName w) : v = w := by
      obtain ⟨m, n, rfl, hid, -⟩ := of_mem_staticsOf hm hv
      obtain ⟨m', n', rfl, hid', -⟩ := of_mem_staticsOf hm hw
      exact staticName_inj hid hid' h
    obtain ⟨n, hn⟩ := Option.isSome_iff_exists.1 ((hvar hv).2 hsv)
    refine ⟨⟨fun h => hinj (ha.var_inj hn (h ▸ hn)), fun h => by rw [h]⟩, fun hfits => ?_⟩
    exact ⟨fun h => hinj (ha.wordOf_inj hfits ((hvar hv).2 hsv) ((hvar hw).2 hsw) h),
      fun h => by rw [h]⟩

end

/-! ## Two programs -/

/-- Two modules with static variables. -/
def privateUnits : List SourceUnit :=
  [{ moduleName := "Main",
     source := .ofString "function Sys.init 0\npush static 0\npop static 1\n" },
   { moduleName := "Other", source := .ofString "push static 0\n" }]

/-- The static variables of the two modules have cells of their own. -/
theorem statics_private_privateUnits : ∃ result journal p,
    translateProgram {} true privateUnits = (.ok result, journal) ∧
      assemble result.assembly = .ok p ∧
      (∀ v ∈ [("Main", 0), ("Main", 1), ("Other", 0)], (p.vars.find? (staticName v)).isSome) ∧
      p.vars.find? "Main.0" ≠ p.vars.find? "Other.0" ∧
      p.vars.find? "Main.0" ≠ p.vars.find? "Main.1" := by
  obtain ⟨result, journal, ht⟩ :=
    exists_result (r := translateProgram {} true privateUnits) (by decide +kernel)
  have hm : ∀ u ∈ privateUnits, isIdentifier u.moduleName = true := by decide
  obtain ⟨p, hp⟩ := exists_assembly hm (by decide) ht (by decide +kernel) "<input>" 16
  obtain ⟨-, hcells, hinj⟩ := statics_private hm (by decide) ht hp
  have hstatics : staticsOf privateUnits = [("Main", 0), ("Main", 1), ("Other", 0)] := rfl
  have htasks : (unitTasks privateUnits).filterMap Task.function? = ["Sys.init"] := rfl
  have hfunctions (v : String × Int) (hne : staticName v ≠ "Sys.init") (hv : v ≠ ("ret", 0)) :
      ¬Shadowed true privateUnits v := by
    rintro (⟨t, ht, hf⟩ | ⟨-, h⟩)
    · have hmem := List.mem_filterMap.2 ⟨t, ht, hf⟩
      rw [htasks] at hmem
      exact hne (List.mem_singleton.1 hmem)
    · exact hv h
  have hshadowed : ∀ v ∈ staticsOf privateUnits, ¬Shadowed true privateUnits v := by
    rw [hstatics]
    have hnames : ∀ v ∈ [("Main", (0 : Int)), ("Main", 1), ("Other", 0)],
        staticName v ≠ "Sys.init" ∧ v ≠ ("ret", 0) := by decide
    exact fun v hv => hfunctions v (hnames v hv).1 (hnames v hv).2
  rw [hstatics] at hcells hinj hshadowed
  refine ⟨result, journal, p, ht, hp, fun v hv => (hcells v hv).2.2.1.2 (hshadowed v hv), ?_, ?_⟩
  · have h := hinj ("Main", 0) (by decide) ("Other", 0) (by decide) (hshadowed _ (by decide))
      (hshadowed _ (by decide))
    exact fun he => absurd (h.1.1 he) (by decide)
  · have h := hinj ("Main", 0) (by decide) ("Main", 1) (by decide) (hshadowed _ (by decide))
      (hshadowed _ (by decide))
    exact fun he => absurd (h.1.1 he) (by decide)

/-- A module with a function that has the name of a static variable of the module. -/
def shadowedUnits : List SourceUnit :=
  [{ moduleName := "Main", source := .ofString "function Main.0 0\npush static 0\n" }]

/-- The module can be translated and assembled, but its static variable is no variable of the
assembled program. It is a label. -/
theorem not_private_shadowedUnits : ∃ result journal p,
    translateProgram {} false shadowedUnits = (.ok result, journal) ∧
      assemble result.assembly = .ok p ∧ ("Main", 0) ∈ staticsOf shadowedUnits ∧
      (p.labels.find? (staticName ("Main", 0))).isSome ∧
      p.vars.find? (staticName ("Main", 0)) = none := by
  obtain ⟨result, journal, ht⟩ :=
    exists_result (r := translateProgram {} false shadowedUnits) (by decide +kernel)
  have hm : ∀ u ∈ shadowedUnits, isIdentifier u.moduleName = true := by decide
  obtain ⟨p, hp⟩ := exists_assembly hm (by decide) ht (by decide +kernel) "<input>" 16
  obtain ⟨statements, hread, ha⟩ := exists_assembled hp
  have hv : ("Main", 0) ∈ staticsOf shadowedUnits := by
    rw [show staticsOf shadowedUnits = [("Main", 0)] from rfl]
    decide
  have hshadowed : Shadowed false shadowedUnits ("Main", 0) :=
    .inl ⟨⟨some "Main", .command (.function "Main.0" 0)⟩, .head _, by decide⟩
  have hlabel := (isSome_label_iff_shadowed hm (by decide) ht hread ha hv).2 hshadowed
  refine ⟨result, journal, p, ht, hp, hv, hlabel, ?_⟩
  have hvar := isSome_var_iff_not_label ha (load_staticName_mem hm (by decide) ht hread hv)
  rw [← Option.not_isSome_iff_eq_none, hvar, not_not]
  exact hlabel

end HackToolchain.Codegen
