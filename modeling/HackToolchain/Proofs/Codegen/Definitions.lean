import HackToolchain.Proofs.Codegen.Emission

/-!
# The symbols that a program defines

Which symbols the code of a task defines follows from the task and the counters before it
(`Task.draft_defines`), and so the symbols that the code of a program defines follow from its tasks
(`Drafts.definedIn`). Comparisons and calls are numbered in order, so that no symbol is defined
twice if no label and no function is (`nodup_definitions`).
-/

set_option autoImplicit false

namespace HackToolchain.Codegen

open Text Vm

/-! ## Definitions in code -/

def Line.defined? : Line → Option Symbol
  | .define s => some s
  | _ => none

def definedIn (c : Code) : List Symbol := c.filterMap Line.defined?

@[simp] theorem definedIn_nil : definedIn [] = [] := rfl

theorem definedIn_cons (l : Line) (c : Code) :
    definedIn (l :: c) = l.defined?.toList ++ definedIn c := by
  rw [definedIn, List.filterMap_cons]
  cases l.defined? <;> rfl

@[simp] theorem definedIn_append (c d : Code) : definedIn (c ++ d) = definedIn c ++ definedIn d :=
  List.filterMap_append

theorem mem_definedIn {s : Symbol} {c : Code} : s ∈ definedIn c ↔ .define s ∈ c := by
  rw [definedIn, List.mem_filterMap]
  constructor
  · rintro ⟨l, hl, hs⟩
    cases l <;> simp only [Line.defined?, Option.some.injEq, reduceCtorEq] at hs
    exact hs ▸ hl
  · exact fun h => ⟨_, h, rfl⟩

theorem definedIn_withoutComments (c : Code) : definedIn (withoutComments c) = definedIn c := by
  rw [definedIn, withoutComments, List.filterMap_filter]
  refine List.filterMap_congr fun l _ => ?_
  cases l <;> rfl

/-! ## Definitions of tasks -/

def Task.compares (t : Task) : Bool :=
  match t.job with
  | .command (.arithmetic name) => (Operator.ofName? name).any Operator.isComparison
  | _ => false

def Task.calls (t : Task) : Bool :=
  match t.job with
  | .bootstrap _ _ | .command (.call _ _) => true
  | _ => false

/-- The counters after a task. -/
def Task.next (t : Task) (k : Counters) : Counters where
  comparisons := k.comparisons + if t.compares then 1 else 0
  calls := k.calls + if t.calls then 1 else 0

/-- The symbols that the code of a task defines. -/
def Task.defines (t : Task) (k : Counters) : List Symbol :=
  match t.job with
  | .bootstrap _ _ | .command (.call _ _) => [.returnAddress t.module k.calls]
  | .command (.label name) => [.label t.module name]
  | .command (.function name _) => [.function name]
  | .command (.arithmetic _) =>
    if t.compares then [.comparison .holds k.comparisons, .comparison .done k.comparisons] else []
  | _ => []

theorem definedIn_operatorCode (op : Operator) (number : Int) :
    definedIn (operatorCode op number) =
      if op.isComparison then [.comparison .holds number, .comparison .done number] else [] := by
  cases op <;> rfl

theorem definedIn_functionCode (name : String) (localCount : Int) :
    definedIn (functionCode name localCount) = [.function name] := by
  have hzeros : definedIn (zeroLocals localCount.toNat) = [] := by
    rw [zeroLocals]
    induction localCount.toNat with
    | zero => rfl
    | succ n ih =>
      rw [List.replicate_succ, List.flatten_cons, definedIn_append, ih]
      rfl
  change Symbol.function name :: definedIn (zeroLocals localCount.toNat) = _
  rw [hzeros]

theorem definedIn_pushCode {module : Option String} {s : Segment} {index : Int} {code : Code}
    (h : pushCode module s index = .ok code) : definedIn code = [] := by
  unfold pushCode staticSymbol at h
  cases module <;> cases s <;> simp [baseRegister?, Except.map] at h <;> subst h <;> rfl

theorem definedIn_popCode {module : Option String} {s : Segment} {index : Int} {code : Code}
    (h : popCode module s index = .ok code) : definedIn code = [] := by
  unfold popCode staticSymbol at h
  cases module <;> cases s <;> simp [baseRegister?, Except.map] at h <;> subst h <;> rfl

/-- The code of a task defines the symbols of the task, and counts it. -/
theorem Task.draft_defines {t : Task} {k : Counters} {d : Draft} (h : t.draft k = .ok d) :
    definedIn d.code = t.defines k ∧ d.counters = t.next k := by
  have hsame : (⟨k.comparisons + 0, k.calls + 0⟩ : Counters) = k := by simp
  have hcall : (⟨k.comparisons + 0, k.calls + 1⟩ : Counters) = { k with calls := k.calls + 1 } := by
    simp
  obtain ⟨module, job⟩ := t
  cases job with
  | bootstrap entry stackBase =>
    obtain rfl := Except.ok.inj h
    exact ⟨rfl, hcall.symm⟩
  | command c =>
    cases c with
    | arithmetic name =>
      obtain ⟨op, hop, hcode, hcounters⟩ := Task.draft_operator h
      have hcompares : (⟨module, .command (.arithmetic name)⟩ : Task).compares =
          op.isComparison := by
        simp [Task.compares, hop]
      constructor
      · rw [hcode, definedIn_operatorCode, Task.defines, hcompares]
      · rw [hcounters, Task.next, hcompares]
        simp [Task.calls]
    | push segment index =>
      obtain ⟨hcounters, s, -, -, -, hcode⟩ := Task.draft_push h
      exact ⟨definedIn_pushCode hcode, hcounters.trans hsame.symm⟩
    | pop segment index =>
      obtain ⟨hcounters, s, -, -, -, hcode⟩ := Task.draft_pop h
      exact ⟨definedIn_popCode hcode, hcounters.trans hsame.symm⟩
    | label name =>
      obtain rfl := Except.ok.inj h
      exact ⟨rfl, hsame.symm⟩
    | goto name =>
      obtain rfl := Except.ok.inj h
      exact ⟨rfl, hsame.symm⟩
    | ifGoto name =>
      obtain rfl := Except.ok.inj h
      exact ⟨rfl, hsame.symm⟩
    | function name n =>
      obtain rfl := Except.ok.inj h
      exact ⟨definedIn_functionCode name n, hsame.symm⟩
    | call name n =>
      obtain rfl := Except.ok.inj h
      exact ⟨rfl, hcall.symm⟩
    | «return» =>
      obtain rfl := Except.ok.inj h
      exact ⟨rfl, hsame.symm⟩

/-! ## Counting -/

/-- The counters have counted at most so many comparisons and calls. -/
structure Counters.AtMost (k : Counters) (n : Nat) : Prop where
  comparisons_low : 0 ≤ k.comparisons
  comparisons_high : k.comparisons ≤ n
  calls_low : 0 ≤ k.calls
  calls_high : k.calls ≤ n

/-- A task counts at most one comparison and at most one call. -/
theorem Counters.AtMost.draft {t : Task} {k : Counters} {d : Draft} {n : Nat} (hk : k.AtMost n)
    (h : t.draft k = .ok d) : d.counters.AtMost (n + 1) := by
  obtain ⟨hcomparisons, hcomparisons', hcalls, hcalls'⟩ := hk
  rw [(Task.draft_defines h).2, Task.next]
  constructor
  all_goals
    simp only
    split <;> omega

/-- A line of the code of tasks is one of a task's, drafted with what has been counted by then. -/
theorem Drafts.exists_of_mem_flatten {k l : Counters} {ts : List Task} {cs : List Code} {n : Nat}
    (h : Drafts k ts cs l) (hk : k.AtMost n) {line : Line} (hline : line ∈ cs.flatten) :
    ∃ t ∈ ts, ∃ k' m d, k'.AtMost m ∧ t.draft k' = .ok d ∧ line ∈ d.code := by
  induction h generalizing n with
  | nil => exact absurd hline List.not_mem_nil
  | @cons k _ t d ts cs first _ ih =>
    rw [List.flatten_cons, List.mem_append] at hline
    rcases hline with hline | hline
    · exact ⟨t, List.mem_cons_self, k, n, d, hk, first, hline⟩
    · obtain ⟨u, hu, hrest⟩ := ih (hk.draft first) hline
      exact ⟨u, List.mem_cons_of_mem _ hu, hrest⟩

/-! ## Definitions of programs -/

/-- The symbols that the code of tasks defines, from counters on. -/
def definitions (k : Counters) : List Task → List Symbol
  | [] => []
  | t :: ts => t.defines k ++ definitions (t.next k) ts

theorem Drafts.definedIn {k l : Counters} {ts : List Task} {cs : List Code} (h : Drafts k ts cs l) :
    definedIn cs.flatten = definitions k ts := by
  induction h with
  | nil => rfl
  | cons first _ ih =>
    obtain ⟨hcode, hcounters⟩ := Task.draft_defines first
    rw [List.flatten_cons, definedIn_append, hcode, ih, hcounters, definitions]

/-! ## No symbol is defined twice -/

/-- The label that a task defines, with its module. -/
def Task.label? (t : Task) : Option (Option String × String) :=
  match t.job with
  | .command (.label name) => some (t.module, name)
  | _ => none

def Task.function? (t : Task) : Option String :=
  match t.job with
  | .command (.function name _) => some name
  | _ => none

/-- The symbol that a task gives a name of its own: that of a label or a function. -/
def Task.ownDefinition? (t : Task) : Option Symbol :=
  match t.job with
  | .command (.label name) => some (.label t.module name)
  | .command (.function name _) => some (.function name)
  | _ => none

theorem Task.label?_of_ownDefinition? {t : Task} {module : Option String} {name : String}
    (h : t.ownDefinition? = some (.label module name)) : t.label? = some (module, name) := by
  obtain ⟨module', job⟩ := t
  unfold Task.ownDefinition? at h
  split at h
  · next hjob =>
    obtain ⟨rfl, rfl⟩ := Symbol.label.inj (Option.some.inj h)
    simp only at hjob
    subst hjob
    rfl
  · simp at h
  · simp at h

theorem Task.function?_of_ownDefinition? {t : Task} {name : String}
    (h : t.ownDefinition? = some (.function name)) : t.function? = some name := by
  obtain ⟨module', job⟩ := t
  unfold Task.ownDefinition? at h
  split at h
  · simp at h
  · next hjob =>
    obtain rfl := Symbol.function.inj (Option.some.inj h)
    simp only at hjob
    subst hjob
    rfl
  · simp at h

/-- No symbol is given a name twice if no label is and no function is. -/
theorem nodup_ownDefinitions {ts : List Task} (hl : (ts.filterMap Task.label?).Nodup)
    (hf : (ts.filterMap Task.function?).Nodup) : (ts.filterMap Task.ownDefinition?).Nodup := by
  induction ts with
  | nil => exact List.nodup_nil
  | cons t ts ih =>
    have htail {β : Type} {f : Task → Option β} (h : ((t :: ts).filterMap f).Nodup) :
        (ts.filterMap f).Nodup := h.sublist ((List.sublist_cons_self t ts).filterMap f)
    have hrest := ih (htail hl) (htail hf)
    rw [List.filterMap_cons]
    split
    · exact hrest
    · next s hs =>
      refine List.nodup_cons.2 ⟨fun hmem => ?_, hrest⟩
      obtain ⟨u, hu, hus⟩ := List.mem_filterMap.1 hmem
      have hkind := hs
      unfold Task.ownDefinition? at hkind
      split at hkind
      · obtain rfl := Option.some.inj hkind
        rw [List.filterMap_cons, Task.label?_of_ownDefinition? hs] at hl
        exact (List.nodup_cons.1 hl).1
          (List.mem_filterMap.2 ⟨u, hu, Task.label?_of_ownDefinition? hus⟩)
      · obtain rfl := Option.some.inj hkind
        rw [List.filterMap_cons, Task.function?_of_ownDefinition? hs] at hf
        exact (List.nodup_cons.1 hf).1
          (List.mem_filterMap.2 ⟨u, hu, Task.function?_of_ownDefinition? hus⟩)
      · simp at hkind

theorem Task.number?_of_ownDefinition? {t : Task} {s : Symbol} (h : t.ownDefinition? = some s) :
    s.number? = none := by
  unfold Task.ownDefinition? at h
  split at h
  · rw [← Option.some.inj h]
    rfl
  · rw [← Option.some.inj h]
    rfl
  · simp at h

theorem Task.of_mem_defines {t : Task} {k : Counters} {s : Symbol} (h : s ∈ t.defines k) :
    t.ownDefinition? = some s ∨
      (∃ branch, s = .comparison branch k.comparisons ∧ t.compares = true) ∨
        (s = .returnAddress t.module k.calls ∧ t.calls = true) := by
  obtain ⟨module, job⟩ := t
  cases job with
  | bootstrap entry stackBase => exact .inr (.inr ⟨List.mem_singleton.1 h, rfl⟩)
  | command c =>
    cases c with
    | arithmetic name =>
      simp only [Task.defines] at h
      split at h
      · next hc =>
        rcases List.mem_cons.1 h with h | h
        · exact .inr (.inl ⟨.holds, h, hc⟩)
        · exact .inr (.inl ⟨.done, List.mem_singleton.1 h, hc⟩)
      · exact absurd h List.not_mem_nil
    | label name => exact .inl (congrArg some (List.mem_singleton.1 h).symm)
    | function name n => exact .inl (congrArg some (List.mem_singleton.1 h).symm)
    | call name n => exact .inr (.inr ⟨List.mem_singleton.1 h, rfl⟩)
    | _ => exact absurd h List.not_mem_nil

/-- The labels and functions among the symbols that tasks define are those of the tasks, and the
numbers of the others come after the counters. -/
theorem of_mem_definitions {k : Counters} {ts : List Task} {s : Symbol}
    (h : s ∈ definitions k ts) :
    s ∈ ts.filterMap Task.ownDefinition? ∨
      (∃ branch n, s = .comparison branch n ∧ k.comparisons ≤ n) ∨
        ∃ t ∈ ts, ∃ n, s = .returnAddress t.module n ∧ k.calls ≤ n := by
  induction ts generalizing k with
  | nil => exact absurd h List.not_mem_nil
  | cons t ts ih =>
    rcases List.mem_append.1 h with h | h
    · rcases Task.of_mem_defines h with h | ⟨branch, rfl, -⟩ | ⟨rfl, -⟩
      · exact .inl (List.mem_filterMap.2 ⟨t, List.mem_cons_self, h⟩)
      · exact .inr (.inl ⟨branch, _, rfl, Int.le_refl _⟩)
      · exact .inr (.inr ⟨t, List.mem_cons_self, _, rfl, Int.le_refl _⟩)
    · rcases ih h with h | ⟨branch, n, rfl, hn⟩ | ⟨u, hu, n, rfl, hn⟩
      · refine .inl ?_
        obtain ⟨u, hu, h⟩ := List.mem_filterMap.1 h
        exact List.mem_filterMap.2 ⟨u, List.mem_cons_of_mem _ hu, h⟩
      · refine .inr (.inl ⟨branch, n, rfl, ?_⟩)
        simp only [Task.next] at hn
        split at hn <;> omega
      · refine .inr (.inr ⟨u, List.mem_cons_of_mem _ hu, n, rfl, ?_⟩)
        simp only [Task.next] at hn
        split at hn <;> omega

theorem mem_definitions {k : Counters} {ts : List Task} {t : Task} {s : Symbol} (ht : t ∈ ts)
    (hs : ∀ k, s ∈ t.defines k) : s ∈ definitions k ts := by
  induction ts generalizing k with
  | nil => exact absurd ht List.not_mem_nil
  | cons u ts ih =>
    rcases List.mem_cons.1 ht with rfl | ht
    · exact List.mem_append_left _ (hs k)
    · exact List.mem_append_right _ (ih ht)

theorem Task.nodup_defines (t : Task) (k : Counters) : (t.defines k).Nodup := by
  unfold Task.defines
  repeat' split
  all_goals simp

/-- No symbol is defined twice if no label and no function is. -/
theorem nodup_definitions (k : Counters) {ts : List Task}
    (h : (ts.filterMap Task.ownDefinition?).Nodup) : (definitions k ts).Nodup := by
  -- The counters run on: a generated symbol carries the number before the task, and those of later
  -- tasks carry greater ones. Symbols with names of their own carry no number.
  induction ts generalizing k with
  | nil => exact List.nodup_nil
  | cons t ts ih =>
    have hrest := h.sublist ((List.sublist_cons_self t ts).filterMap Task.ownDefinition?)
    rw [definitions, List.nodup_append]
    refine ⟨t.nodup_defines k, ih (t.next k) hrest, ?_⟩
    rintro s hs _ hs' rfl
    have hnumber (hown : s ∈ ts.filterMap Task.ownDefinition?) : s.number? = none := by
      obtain ⟨u, -, hu⟩ := List.mem_filterMap.1 hown
      exact Task.number?_of_ownDefinition? hu
    rcases Task.of_mem_defines hs with hown | ⟨branch, rfl, hc⟩ | ⟨rfl, hc⟩
    · rw [List.filterMap_cons, hown] at h
      have hnone := Task.number?_of_ownDefinition? hown
      rcases of_mem_definitions hs' with hs' | ⟨branch, n, rfl, -⟩ | ⟨u, -, n, rfl, -⟩
      · exact (List.nodup_cons.1 h).1 hs'
      · simp [Symbol.number?] at hnone
      · simp [Symbol.number?] at hnone
    · rcases of_mem_definitions hs' with hs' | ⟨branch', n, hn, hle⟩ | ⟨u, -, n, hn, -⟩
      · simpa [Symbol.number?] using hnumber hs'
      · obtain ⟨rfl, rfl⟩ := Symbol.comparison.inj hn
        simp only [Task.next, hc, if_true] at hle
        omega
      · simp at hn
    · rcases of_mem_definitions hs' with hs' | ⟨branch', n, hn, -⟩ | ⟨u, -, n, hn, hle⟩
      · simpa [Symbol.number?] using hnumber hs'
      · simp at hn
      · obtain ⟨-, rfl⟩ := Symbol.returnAddress.inj hn
        simp only [Task.next, hc, if_true] at hle
        omega

end HackToolchain.Codegen
