import HackToolchain.Proofs.Codegen.Naming

/-!
# The labels of a program

A program whose modules are named by identifiers defines the symbols of its tasks
(`programSymbols`). The labels in its assembly are the names of those symbols that are well formed
(`definedLabels_of_translateProgram`).
-/

set_option autoImplicit false

namespace HackToolchain.Codegen

open Text Asm Vm

/-! ## Symbols of programs -/

/-- The symbols that a program defines, in order. -/
def programSymbols (options : Options) (bootstrap : Bool) (units : List SourceUnit) : List Symbol :=
  definitions {} (programTasks none (options.boot? bootstrap) units)

/-- The symbols that a program may define: a bootstrap is the only call outside of modules, and the
first. -/
inductive MayDefine (bootstrap : Bool) (units : List SourceUnit) : Symbol → Prop
  | label {m x : String} (hm : isIdentifier m = true)
      (h : ⟨some m, .command (.label x)⟩ ∈ unitTasks units) :
      MayDefine bootstrap units (.label (some m) x)
  | function {m f : String} {localCount : Int} (hm : isIdentifier m = true)
      (h : ⟨some m, .command (.function f localCount)⟩ ∈ unitTasks units) :
      MayDefine bootstrap units (.function f)
  | comparison (branch : Branch) (n : Nat) : MayDefine bootstrap units (.comparison branch n)
  | returnAddress {m : String} (hm : isIdentifier m = true) (n : Nat) :
      MayDefine bootstrap units (.returnAddress (some m) n)
  | bootstrap (h : bootstrap = true) : MayDefine bootstrap units (.returnAddress none 0)

section

variable {options : Options} {bootstrap : Bool} {units : List SourceUnit}

theorem exists_module (hm : ∀ u ∈ units, isIdentifier u.moduleName = true) {t : Task}
    (ht : t ∈ unitTasks units) : ∃ m, t.module = some m ∧ isIdentifier m = true := by
  obtain ⟨u, hu, hmodule, -⟩ := of_mem_unitTasks ht
  exact ⟨u.moduleName, by rw [hmodule, moduleOfName?_of_isIdentifier (hm u hu)], hm u hu⟩

theorem programSymbols_eq (options : Options) (bootstrap : Bool) (units : List SourceUnit) :
    programSymbols options bootstrap units =
      (if bootstrap then [.returnAddress none 0] else []) ++
        definitions ⟨0, if bootstrap then 1 else 0⟩ (unitTasks units) := by
  cases bootstrap <;> rfl

theorem mayDefine_of_mem (hm : ∀ u ∈ units, isIdentifier u.moduleName = true) {s : Symbol}
    (hs : s ∈ programSymbols options bootstrap units) : MayDefine bootstrap units s := by
  rw [programSymbols_eq, List.mem_append] at hs
  rcases hs with hs | hs
  · cases bootstrap with
    | false => exact absurd hs List.not_mem_nil
    | true => exact List.mem_singleton.1 hs ▸ .bootstrap rfl
  · rcases of_mem_definitions hs with hown | ⟨branch, n, rfl, hn⟩ | ⟨t, ht, n, rfl, hn⟩
    · obtain ⟨⟨module, job⟩, ht, hown⟩ := List.mem_filterMap.1 hown
      obtain ⟨m, rfl, hid⟩ := exists_module hm ht
      unfold Task.ownDefinition? at hown
      split at hown
      · next x hjob =>
        simp only at hjob
        subst hjob
        exact Option.some.inj hown ▸ .label hid ht
      · next f n hjob =>
        simp only at hjob
        subst hjob
        exact Option.some.inj hown ▸ .function hid ht
      · simp at hown
    · obtain ⟨n, rfl⟩ := Int.eq_ofNat_of_zero_le hn
      exact .comparison branch n
    · have hzero : 0 ≤ n := by
        refine Int.le_trans ?_ hn
        split <;> decide
      obtain ⟨n, rfl⟩ := Int.eq_ofNat_of_zero_le hzero
      obtain ⟨m, hmodule, hid⟩ := exists_module hm ht
      rw [hmodule]
      exact .returnAddress hid n

theorem function_mem_programSymbols {t : Task} {f : String} (ht : t ∈ unitTasks units)
    (hf : t.function? = some f) : .function f ∈ programSymbols options bootstrap units := by
  rw [programSymbols_eq]
  refine List.mem_append_right _ (mem_definitions ht fun k => ?_)
  obtain ⟨module, job⟩ := t
  unfold Task.function? at hf
  split at hf
  · next hjob =>
    simp only at hjob
    subst hjob
    exact Option.some.inj hf ▸ List.mem_singleton_self _
  · simp at hf

/-! ## Names of symbols -/

theorem isSymbol_comparison (branch : Branch) (n : Nat) :
    isSymbol (Symbol.comparison branch n).name.toList = true := by
  cases branch with
  | holds => exact isSymbol_append_render (by decide) n
  | done => exact isSymbol_append_render (by decide) n

theorem isSymbol_returnAddress {m : String} (hm : isIdentifier m = true) (n : Nat) :
    isSymbol (Symbol.returnAddress (some m) n).name.toList = true :=
  isSymbol_within (isSymbol_of_isIdentifier hm) fun _ hc =>
    isSymbolRest_of_mem (isSymbol_append_render (by decide) n) hc

namespace MayDefine

variable {s : Symbol}

theorem tight (h : MayDefine bootstrap units s) : Tight s.name.toList := by
  cases h with
  | label hm h =>
    rw [Symbol.name, toList_within_some, List.append_cons]
    refine Tight.append (fun c hc => ?_) (tight_of_mem_unitTasks h rfl)
    rcases List.mem_append.1 hc with hc | hc
    · exact (of_isIdentifier hm hc).2.2
    · rw [List.mem_singleton.1 hc]
      decide
  | function hm h => exact tight_of_mem_unitTasks h rfl
  | comparison branch n => exact tight_of_isSymbol (isSymbol_comparison branch n)
  | returnAddress hm n => exact tight_of_isSymbol (isSymbol_returnAddress hm n)
  | bootstrap h => exact tight_of_isSymbol (by decide)

end MayDefine

/-! ## The assembly -/

theorem exists_result {α : Type} {r : Except Fault α × Journal} (h : r.1.isOk = true) :
    ∃ a journal, r = (.ok a, journal) := by
  obtain ⟨outcome, journal⟩ := r
  cases outcome with
  | error f => simp [Except.isOk, Except.toBool] at h
  | ok a => exact ⟨a, journal, rfl⟩

variable {journal journal' : Journal} {result : Result}

/-- The assembly of a program whose modules are named by identifiers is unbroken code, whose lines
that are no comments are drafted for the tasks. -/
theorem exists_unbroken_code (hm : ∀ u ∈ units, isIdentifier u.moduleName = true)
    (hentry : ∀ c ∈ options.entry.toList, isBreak c = false)
    (ht : translateProgram options bootstrap units journal = (.ok result, journal')) :
    ∃ lines codes k, result.assembly = renderLines lines ∧ TidyComments lines ∧
      withoutComments lines = codes.flatten ∧ Code.Unbroken lines ∧
        Drafts {} (programTasks none (options.boot? bootstrap) units) codes k := by
  have hbreak {m : String} (hid : isIdentifier m = true) : ∀ c ∈ m.toList, isBreak c = false :=
    fun c hc => isBreak_of_not_isBlank (of_isIdentifier hid hc).2.2.1
  obtain ⟨lines, codes, k, hassembly, htidy, hcode, hdrafts⟩ :=
    exists_code_of_translateProgram hentry (fun u hu => hbreak (hm u hu)) ht
  refine ⟨lines, codes, k, hassembly, htidy, hcode, ?_, hdrafts⟩
  have hcodes : Code.Unbroken codes.flatten := by
    refine hdrafts.unbroken (fun t ht => ?_) fun t ht name hname => ?_
    · rcases of_mem_programTasks ht with rfl | hunit
      · rfl
      · obtain ⟨m, hmodule, hid⟩ := exists_module hm hunit
        simpa [brokenModule, hmodule] using hbreak hid
    · rcases of_mem_programTasks ht with rfl | hunit
      · obtain rfl := Option.some.inj hname
        exact hentry
      · obtain ⟨module, job⟩ := t
        obtain ⟨-, -, -, -, -, c, -, rfl⟩ := of_mem_unitTasks hunit
        exact fun c hc =>
          isBreak_of_not_isBlank ((tight_of_mem_unitTasks hunit hname).isBlank c hc)
  intro l hl s hs
  refine hcodes l (hcode ▸ List.mem_filter.2 ⟨hl, ?_⟩) s hs
  cases l <;> simp_all [Line.symbol?, Line.isComment]

/-- The assembly of a program says what the code drafted for its tasks says. -/
theorem readRows_of_translateProgram (hm : ∀ u ∈ units, isIdentifier u.moduleName = true)
    (hentry : ∀ c ∈ options.entry.toList, isBreak c = false)
    (ht : translateProgram options bootstrap units journal = (.ok result, journal')) :
    readRows (rows result.assembly.toList) =
      readCode (draftCodes {} (programTasks none (options.boot? bootstrap) units)).flatten := by
  obtain ⟨lines, codes, k, hassembly, htidy, hcode, -, hdrafts⟩ :=
    exists_unbroken_code hm hentry ht
  rw [hassembly, readRows_renderLines, ← readCode_withoutComments htidy, hcode,
    hdrafts.draftCodes_eq]

/-- The assembly of a program can be assembled if the code drafted for its tasks can. -/
theorem exists_assembly (hm : ∀ u ∈ units, isIdentifier u.moduleName = true)
    (hentry : ∀ c ∈ options.entry.toList, isBreak c = false)
    (ht : translateProgram options bootstrap units journal = (.ok result, journal'))
    (h : Code.assembles
      (draftCodes {} (programTasks none (options.boot? bootstrap) units)).flatten = true)
    (file : String) (base : Int) : ∃ p, assemble result.assembly file base = .ok p :=
  exists_assemble_of_readRows (readRows_of_translateProgram hm hentry ht) h file base

/-- The labels in the assembly of a program are the names of the symbols that the program defines,
as far as they are well formed, in the same order. -/
theorem definedLabels_of_translateProgram
    (hm : ∀ u ∈ units, isIdentifier u.moduleName = true)
    (hentry : ∀ c ∈ options.entry.toList, isBreak c = false)
    (ht : translateProgram options bootstrap units journal = (.ok result, journal')) :
    definedLabels result.assembly =
      ((programSymbols options bootstrap units).filter fun s => isSymbol s.name.toList).map
        Symbol.name := by
  obtain ⟨lines, codes, k, hassembly, htidy, hcode, hunbroken, hdrafts⟩ :=
    exists_unbroken_code hm hentry ht
  have hdefined : definedIn lines = programSymbols options bootstrap units := by
    rw [← definedIn_withoutComments, hcode, hdrafts.definedIn]
    rfl
  rw [hassembly, definedLabels_eq hunbroken htidy fun s hs =>
    (mayDefine_of_mem hm (hdefined ▸ hs)).tight, hdefined]

end

end HackToolchain.Codegen
