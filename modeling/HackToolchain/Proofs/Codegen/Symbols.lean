import HackToolchain.Proofs.Codegen.Emission

/-!
# The symbols and numbers in a program

The code of a task has only a few kinds of symbols, made of the names in the task and of the
counters it was drafted with, and loads only small numbers besides those that the task gives
(`Task.covers`).

A symbol takes one row if the name of its module and its own name do. So each line of a program's
code takes one row, if the names of its modules and of the function that it starts with do
(`Drafts.unbroken`): names in commands always do.
-/

set_option autoImplicit false

namespace HackToolchain.Codegen

open Text Vm

/-! ## Unbroken names -/

/-- The name of a module is broken over rows; no name in it can be told from two. -/
def brokenModule (module : Option String) : Bool := module.any fun m => m.toList.any isBreak

theorem unbroken_within {module : Option String} {name : String}
    (hm : brokenModule module = false) (hn : ∀ c ∈ name.toList, isBreak c = false) :
    ∀ c ∈ (Symbol.within module name).toList, isBreak c = false := by
  cases module with
  | none => exact hn
  | some m =>
    have hm' : ∀ c ∈ m.toList, isBreak c = false := by
      simpa [brokenModule] using hm
    have hsign : ∀ c ∈ "$".toList, isBreak c = false := by decide
    intro c hc
    simp only [Symbol.within, String.toList_append, List.mem_append] at hc
    rcases hc with (hc | hc) | hc
    · exact hm' c hc
    · exact hsign c hc
    · exact hn c hc

theorem isBreak_of_mem_append_render {text : String} {n : Int}
    (ht : ∀ c ∈ text.toList, isBreak c = false) :
    ∀ c ∈ (text ++ Decimal.render n).toList, isBreak c = false := by
  intro c hc
  rw [String.toList_append, List.mem_append] at hc
  rcases hc with hc | hc
  · exact ht c hc
  · exact isBreak_of_not_isBlank (Decimal.isBlank_of_mem_render hc)

theorem unbroken_label {module : Option String} {name : String}
    (hm : brokenModule module = false) (hn : ∀ c ∈ name.toList, isBreak c = false) :
    (Symbol.label module name).Unbroken := unbroken_within hm hn

theorem unbroken_comparison (branch : Branch) (number : Int) :
    (Symbol.comparison branch number).Unbroken := by
  cases branch
  · exact isBreak_of_mem_append_render (by decide)
  · exact isBreak_of_mem_append_render (by decide)

theorem unbroken_static {m : String} (hm : brokenModule (some m) = false) (index : Int) :
    (Symbol.static m index).Unbroken := by
  have hm' : ∀ c ∈ m.toList, isBreak c = false := by simpa [brokenModule] using hm
  refine isBreak_of_mem_append_render fun c hc => ?_
  rw [String.toList_append, List.mem_append] at hc
  rcases hc with hc | hc
  · exact hm' c hc
  · rw [show c = '.' by simpa using hc]
    decide

/-! ## Symbols in code -/

def Line.symbol? : Line → Option Symbol
  | .define s | .load s => some s
  | _ => none

def Code.Unbroken (c : Code) : Prop := ∀ l ∈ c, ∀ s, l.symbol? = some s → s.Unbroken

theorem unbroken_append {c d : Code} (hc : Code.Unbroken c) (hd : Code.Unbroken d) :
    Code.Unbroken (c ++ d) := fun l hl => (List.mem_append.1 hl).elim (hc l) (hd l)

/-- The symbol on a line, unless it is a register. -/
def Line.ownSymbol? : Line → Option Symbol
  | .define (.register _) | .load (.register _) => none
  | .define s | .load s => some s
  | _ => none

/-- The number that a line loads. -/
def Line.constant? : Line → Option Int
  | .number n => some n
  | _ => none

def Job.name? : Job → Option String
  | .bootstrap entry _ => some entry
  | .command c => c.name?

/-- The name of a label or a function in a job. -/
def Job.target? : Job → Option String
  | .bootstrap name _ => some name
  | .command (.label name) | .command (.goto name) | .command (.ifGoto name)
  | .command (.function name _) | .command (.call name _) => some name
  | .command _ => none

theorem Job.name?_of_target? {job : Job} {name : String} (h : job.target? = some name) :
    job.name? = some name := by
  unfold Job.target? at h
  split at h
  all_goals first | exact h | cases h

/-- The symbols that the code of a push or a pop has besides registers: a static variable, if the
segment is theirs. -/
def staticsOfMove (module : Option String) (s : Segment) (index : Int) : List Symbol :=
  if s = .static then module.toList.map (.static · index) else []

/-- The numbers that the code of a push or a pop loads: the index and a base, unless a static
variable is meant. -/
def numbersOfMove (s : Segment) (index : Int) : List Int :=
  match s with
  | .static => []
  | .pointer | .temp => [index, fixedBase s]
  | _ => [index]

theorem lists_of_pushCode {module : Option String} {s : Segment} {index : Int} {code : Code}
    (h : pushCode module s index = .ok code) :
    code.filterMap Line.ownSymbol? = staticsOfMove module s index ∧
      code.filterMap Line.constant? = numbersOfMove s index := by
  unfold pushCode staticSymbol at h
  cases module <;> cases s <;> simp [baseRegister?, Except.map] at h <;> subst h <;>
    exact ⟨rfl, rfl⟩

theorem lists_of_popCode {module : Option String} {s : Segment} {index : Int} {code : Code}
    (h : popCode module s index = .ok code) :
    code.filterMap Line.ownSymbol? = staticsOfMove module s index ∧
      code.filterMap Line.constant? = numbersOfMove s index := by
  unfold popCode staticSymbol at h
  cases module <;> cases s <;> simp [baseRegister?, Except.map] at h <;> subst h <;>
    exact ⟨rfl, rfl⟩

namespace Task

/-- The symbols that the code of a task may have when it is drafted with some counters. -/
inductive MayMention (t : Task) (k : Counters) : Symbol → Prop where
  | register (r : Register) : MayMention t k (.register r)
  | comparison (branch : Branch) : MayMention t k (.comparison branch k.comparisons)
  | returnAddress : MayMention t k (.returnAddress t.module k.calls)
  | static {m : String} {index : Int} (hm : t.module = some m) (hlow : 0 ≤ index)
      (hhigh : index ≤ Segment.maxIndex) : MayMention t k (.static m index)
  | label {name : String} (h : t.job.target? = some name) : MayMention t k (.label t.module name)
  | function {name : String} (h : t.job.target? = some name) : MayMention t k (.function name)

/-- The numbers that the code of a task may load. -/
inductive MayLoad (t : Task) : Int → Prop where
  | small {n : Int} (hlow : 0 ≤ n) (hhigh : n ≤ Segment.maxIndex) : MayLoad t n
  | arguments {name : String} {count : Int} (h : t.job = .command (.call name count)) :
      MayLoad t (count + frameSize)
  | stackBase {entry : String} {base : Int} (h : t.job = .bootstrap entry base) : MayLoad t base

/-- Code has only symbols and numbers that a task may have in its own. -/
structure Covers (t : Task) (k : Counters) (c : Code) : Prop where
  symbols : ∀ l ∈ c, ∀ s, l.symbol? = some s → t.MayMention k s
  numbers : ∀ n, .number n ∈ c → t.MayLoad n

variable {t : Task} {k : Counters}

theorem Covers.append {c d : Code} (hc : t.Covers k c) (hd : t.Covers k d) : t.Covers k (c ++ d) :=
  ⟨fun l hl => (List.mem_append.1 hl).elim (hc.symbols l) (hd.symbols l),
    fun n hn => (List.mem_append.1 hn).elim (hc.numbers n) (hd.numbers n)⟩

/-- Registers need not be looked at. -/
theorem covers_of_lists {c : Code} {symbols : List Symbol} {numbers : List Int}
    (hsymbols : c.filterMap Line.ownSymbol? = symbols)
    (hnumbers : c.filterMap Line.constant? = numbers) (hs : ∀ s ∈ symbols, t.MayMention k s)
    (hn : ∀ n ∈ numbers, t.MayLoad n) : t.Covers k c := by
  refine ⟨fun l hl s h => ?_, fun n h => hn n ?_⟩
  · have hown (h : l.ownSymbol? = some s) : t.MayMention k s :=
      hs s (hsymbols ▸ List.mem_filterMap.2 ⟨l, hl, h⟩)
    cases l with
    | define other | load other =>
      obtain rfl := Option.some.inj h
      cases other with
      | register r => exact .register r
      | _ => exact hown rfl
    | comment text | number n | act a => simp [Line.symbol?] at h
  · exact hnumbers ▸ List.mem_filterMap.2 ⟨_, h, rfl⟩

theorem covers_of_symbol {c : Code} {s : Symbol} (hsymbols : c.filterMap Line.ownSymbol? = [s])
    (hnumbers : c.filterMap Line.constant? = []) (hs : t.MayMention k s) : t.Covers k c := by
  apply covers_of_lists hsymbols hnumbers ?_ (List.forall_mem_nil _)
  simpa using hs

theorem covers_of_number {c : Code} {n : Int} (hsymbols : c.filterMap Line.ownSymbol? = [])
    (hnumbers : c.filterMap Line.constant? = [n]) (hn : t.MayLoad n) : t.Covers k c := by
  apply covers_of_lists hsymbols hnumbers (List.forall_mem_nil _)
  simpa using hn

theorem MayLoad.of_le {n : Int} (h : 0 ≤ n ∧ n ≤ 32767) : t.MayLoad n := .small h.1 h.2

theorem covers_operatorCode (op : Operator) : t.Covers k (operatorCode op k.comparisons) := by
  have hsymbols : (operatorCode op k.comparisons).filterMap Line.ownSymbol? =
      if op.isComparison then
        [.comparison .holds k.comparisons, .comparison .done k.comparisons,
          .comparison .holds k.comparisons, .comparison .done k.comparisons]
      else [] := by
    cases op <;> rfl
  have hnumbers : (operatorCode op k.comparisons).filterMap Line.constant? = [] := by
    cases op <;> rfl
  refine covers_of_lists hsymbols hnumbers ?_ (List.forall_mem_nil _)
  split <;> simp [MayMention.comparison]

theorem covers_of_move {s : Segment} {index : Int} {c : Code} (hlow : 0 ≤ index)
    (hhigh : index ≤ s.limit)
    (h : c.filterMap Line.ownSymbol? = staticsOfMove t.module s index ∧
      c.filterMap Line.constant? = numbersOfMove s index) : t.Covers k c := by
  have hmax : index ≤ Segment.maxIndex := by
    refine Int.le_trans hhigh ?_
    cases s <;> decide
  refine covers_of_lists h.1 h.2 (fun symbol hsymbol => ?_) fun n hn => ?_
  · unfold staticsOfMove at hsymbol
    split at hsymbol
    · obtain ⟨m, hm, rfl⟩ := List.mem_map.1 hsymbol
      exact .static (Option.mem_toList.1 hm) hlow hmax
    · cases hsymbol
  · have hbase : n = index ∨ n = fixedBase s := by
      unfold numbersOfMove at hn
      cases s <;> simp_all
    rcases hbase with rfl | rfl
    · exact .small hlow hmax
    · cases s <;> exact .of_le (by decide)

theorem covers_functionCode {name : String} (localCount : Int) (h : t.job.target? = some name) :
    t.Covers k (functionCode name localCount) := by
  have hentry : t.Covers k [.define (.function name)] :=
    covers_of_symbol rfl rfl (.function h)
  have hlocal : t.Covers k (.toD .zero :: pushD) :=
    covers_of_lists rfl rfl (List.forall_mem_nil _) (List.forall_mem_nil _)
  refine hentry.append ⟨fun l hl => ?_, fun n hn => ?_⟩
  · obtain ⟨c, hc, hl⟩ := List.mem_flatten.1 hl
    obtain rfl := (List.mem_replicate.1 hc).2
    exact hlocal.symbols l hl
  · obtain ⟨c, hc, hn⟩ := List.mem_flatten.1 hn
    obtain rfl := (List.mem_replicate.1 hc).2
    exact hlocal.numbers n hn

/-- The code of a call, whose number of arguments is looked at by itself. -/
theorem covers_callCode {name : String} {count : Int} (h : t.job.target? = some name)
    (hcount : t.MayLoad (count + frameSize)) :
    t.Covers k (callCode t.module k.calls name count) := by
  have hsymbols : (callCode t.module k.calls name count).filterMap Line.ownSymbol? =
      [.returnAddress t.module k.calls, .function name, .returnAddress t.module k.calls] := rfl
  have hnumbers : (callCode t.module k.calls name count).filterMap Line.constant? =
      [count + frameSize] := rfl
  apply covers_of_lists hsymbols hnumbers
  · simp [MayMention.returnAddress, MayMention.function h]
  · simpa using hcount

theorem covers_returnCode : t.Covers k returnCode := by
  have hnumbers : returnCode.filterMap Line.constant? = [5, 1, 2, 3, 4] := rfl
  refine covers_of_lists rfl hnumbers (List.forall_mem_nil _) fun n hn => ?_
  have hsmall : ∀ n ∈ ([5, 1, 2, 3, 4] : List Int), 0 ≤ n ∧ n ≤ 32767 := by decide
  exact .of_le (hsmall n hn)

/-- The code of a task has only the symbols and numbers that it may have. -/
theorem covers {d : Draft} (h : t.draft k = .ok d) : t.Covers k d.code := by
  obtain ⟨module, job⟩ := t
  cases job with
  | bootstrap entry stackBase =>
    obtain rfl := Except.ok.inj h
    refine Covers.append ?_ (covers_callCode rfl (.of_le (by decide)))
    exact covers_of_number rfl rfl (.stackBase rfl)
  | command c =>
    cases c with
    | arithmetic name =>
      obtain ⟨op, -, hcode, -⟩ := Task.draft_operator h
      exact hcode ▸ covers_operatorCode op
    | push segment index =>
      obtain ⟨-, s, -, hlow, hhigh, hcode⟩ := Task.draft_push h
      exact covers_of_move hlow hhigh (lists_of_pushCode hcode)
    | pop segment index =>
      obtain ⟨-, s, -, hlow, hhigh, hcode⟩ := Task.draft_pop h
      exact covers_of_move hlow hhigh (lists_of_popCode hcode)
    | label name =>
      obtain rfl := Except.ok.inj h
      exact covers_of_symbol rfl rfl (.label rfl)
    | goto name =>
      obtain rfl := Except.ok.inj h
      exact covers_of_symbol rfl rfl (.label rfl)
    | ifGoto name =>
      obtain rfl := Except.ok.inj h
      exact covers_of_symbol rfl rfl (.label rfl)
    | function name n =>
      obtain rfl := Except.ok.inj h
      exact covers_functionCode n rfl
    | call name n =>
      obtain rfl := Except.ok.inj h
      exact covers_callCode rfl (.arguments rfl)
    | «return» =>
      obtain rfl := Except.ok.inj h
      exact covers_returnCode

end Task

/-- A character in a symbol of a task comes from the name of its module or from the name in it, or
it is no blank. -/
theorem Task.MayMention.of_mem_name {t : Task} {k : Counters} {s : Symbol} (h : t.MayMention k s)
    {c : Char} (hc : c ∈ s.name.toList) : (∃ m, t.module = some m ∧ c ∈ m.toList) ∨
      (∃ name, t.job.target? = some name ∧ c ∈ name.toList) ∨ isBlank c = false := by
  have hwithin {name : String} (hc : c ∈ (Symbol.within t.module name).toList) :
      (∃ m, t.module = some m ∧ c ∈ m.toList) ∨ c ∈ name.toList ∨ isBlank c = false := by
    cases hm : t.module with
    | none =>
      rw [hm] at hc
      exact .inr (.inl hc)
    | some m =>
      rw [hm, Symbol.within, String.toList_append, String.toList_append, List.mem_append,
        List.mem_append] at hc
      rcases hc with (hc | hc) | hc
      · exact .inl ⟨m, rfl, hc⟩
      · exact .inr (.inr (by rw [List.mem_singleton.1 hc]; decide))
      · exact .inr (.inl hc)
  have hnumbered {text : String} {n : Int} (htext : ∀ c ∈ text.toList, isBlank c = false)
      (hc : c ∈ (text ++ Decimal.render n).toList) : isBlank c = false := by
    rw [String.toList_append, List.mem_append] at hc
    rcases hc with hc | hc
    · exact htext c hc
    · exact Decimal.isBlank_of_mem_render hc
  cases h with
  | register r =>
    have hname : ∀ c ∈ (Symbol.register r).name.toList, isBlank c = false := by
      cases r <;> decide
    exact .inr (.inr (hname c hc))
  | comparison branch =>
    refine .inr (.inr ?_)
    cases branch
    · exact hnumbered (by decide) hc
    · exact hnumbered (by decide) hc
  | returnAddress =>
    rcases hwithin hc with hc | hc | hc
    · exact .inl hc
    · exact .inr (.inr (hnumbered (by decide) hc))
    · exact .inr (.inr hc)
  | @static m index hm hlow hhigh =>
    rw [Symbol.name, String.toList_append, String.toList_append, List.mem_append,
      List.mem_append] at hc
    rcases hc with (hc | hc) | hc
    · exact .inl ⟨m, hm, hc⟩
    · exact .inr (.inr (by rw [List.mem_singleton.1 hc]; decide))
    · exact .inr (.inr (Decimal.isBlank_of_mem_render hc))
  | @label name hname =>
    rcases hwithin hc with hc | hc | hc
    · exact .inl hc
    · exact .inr (.inl ⟨name, hname, hc⟩)
    · exact .inr (.inr hc)
  | @function name hname => exact .inr (.inl ⟨name, hname, hc⟩)

/-- All symbols in the code of a task are unbroken, if the name of its module and the name in it
are. -/
theorem Task.unbroken {t : Task} {k : Counters} {d : Draft} (h : t.draft k = .ok d)
    (hm : brokenModule t.module = false)
    (hn : ∀ name, t.job.name? = some name → ∀ c ∈ name.toList, isBreak c = false) :
    Code.Unbroken d.code := by
  intro l hl s hs c hc
  rcases ((Task.covers h).symbols l hl s hs).of_mem_name hc with
    ⟨m, hmodule, hc⟩ | ⟨name, hname, hc⟩ | hc
  · rw [hmodule, brokenModule, Option.any_some, List.any_eq_false] at hm
    exact Bool.eq_false_iff.2 (hm c hc)
  · exact hn name (Job.name?_of_target? hname) c hc
  · exact isBreak_of_not_isBlank hc

theorem Drafts.unbroken {k l : Counters} {ts : List Task} {cs : List Code} (h : Drafts k ts cs l)
    (hm : ∀ t ∈ ts, brokenModule t.module = false)
    (hn : ∀ t ∈ ts, ∀ name, t.job.name? = some name → ∀ c ∈ name.toList, isBreak c = false) :
    Code.Unbroken cs.flatten := by
  induction h with
  | nil => exact fun _ h => absurd h List.not_mem_nil
  | cons first _ ih =>
    rw [List.flatten_cons]
    exact unbroken_append
      (Task.unbroken first (hm _ List.mem_cons_self) (hn _ List.mem_cons_self))
      (ih (fun t ht => hm t (List.mem_cons_of_mem _ ht))
        fun t ht => hn t (List.mem_cons_of_mem _ ht))

end HackToolchain.Codegen
