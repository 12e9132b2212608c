import HackToolchain.Proofs.Codegen.Atomicity
import HackToolchain.Proofs.Codegen.Naming
import HackToolchain.Proofs.Codegen.Verbatim
import Mathlib.Data.List.Nodup

/-!
# Generated labels

A comparison generates two labels and a call one, the call of the bootstrap included. Each carries
the number that the emitter has counted to, so what an emitter has written (`Emitter.written`) is in
step with its counters, whatever failed in between and whatever modules were entered
(`Emitter.follows_written`), and no generated name comes twice (`Written.labels_disjoint`). Where
names are read as they are written (`Written.Plain`), one row of the text of its command defines a
generated label, and the rows of another command have it only under a name that the command was
given (`generated_labels_unique`). A name or a comment that is read otherwise may hide its
definition, as in `hiddenOperations` and `paddedOperations`.
-/

set_option autoImplicit false

namespace HackToolchain.Codegen

open Text Vm

/-! ## Names of generated symbols -/

namespace Symbol

/-- A symbol that stands for a place within the code of a comparison or a call. -/
def IsGenerated : Symbol → Prop
  | .comparison _ _ | .returnAddress _ _ => True
  | _ => False

theorem exists_toList_returnAddress (module : Option String) (n : Int) :
    ∃ front, (returnAddress module n).name.toList = front ++ '.' :: (Decimal.render n).toList := by
  cases module with
  | none => exact ⟨"ret".toList, by simp [name, within, String.toList_append]⟩
  | some m => exact ⟨m.toList ++ "$ret".toList, by simp [name, within, String.toList_append]⟩

/-- Return addresses of the same name have the same number, whatever their modules. -/
theorem number_of_returnAddress {module module' : Option String} {n n' : Int}
    (h : (returnAddress module n).name = (returnAddress module' n').name) : n = n' := by
  obtain ⟨front, hfront⟩ := exists_toList_returnAddress module n
  obtain ⟨front', hfront'⟩ := exists_toList_returnAddress module' n'
  have hl := congrArg String.toList h
  rw [hfront, hfront'] at hl
  exact (append_dot_render_inj hl).2

theorem mem_name_returnAddress (module : Option String) (n : Int) :
    '.' ∈ (returnAddress module n).name.toList := by
  obtain ⟨front, hfront⟩ := exists_toList_returnAddress module n
  rw [hfront]
  exact List.mem_append_right _ List.mem_cons_self

theorem toList_comparison (branch : Branch) (n : Int) :
    ∃ front, '.' ∉ front ∧ '_' ∈ front ∧
      (comparison branch n).name.toList = front ++ (Decimal.render n).toList := by
  cases branch with
  | holds => exact ⟨"IF_TRUE_".toList, by decide, by decide, String.toList_append⟩
  | done => exact ⟨"END_COMP_".toList, by decide, by decide, String.toList_append⟩

theorem returnAddress_ne_comparison (module : Option String) (branch : Branch) (n n' : Int) :
    (returnAddress module n).name ≠ (comparison branch n').name := by
  intro h
  obtain ⟨front, hdot, -, hname⟩ := toList_comparison branch n'
  have hmem := mem_name_returnAddress module n
  rw [h, hname] at hmem
  rcases List.mem_append.1 hmem with hmem | hmem
  · exact hdot hmem
  · exact not_mem_render (by decide) (by decide) hmem

/-- A generated name has a sign that neither numbers nor registers have. -/
theorem IsGenerated.exists_mem {s : Symbol} (h : s.IsGenerated) :
    '.' ∈ s.name.toList ∨ '_' ∈ s.name.toList := by
  cases s with
  | comparison branch n =>
    obtain ⟨front, -, hline, hname⟩ := toList_comparison branch n
    rw [hname]
    exact .inr (List.mem_append_left _ hline)
  | returnAddress module n => exact .inl (mem_name_returnAddress module n)
  | register | function | label | static => exact absurd h id

theorem IsGenerated.name_ne_render {s : Symbol} (h : s.IsGenerated) (n : Int) :
    s.name ≠ Decimal.render n := by
  intro hname
  rcases h.exists_mem with hmem | hmem
  · exact not_mem_render (by decide) (by decide) (hname ▸ hmem)
  · exact not_mem_render (by decide) (by decide) (hname ▸ hmem)

theorem IsGenerated.name_ne_register {s : Symbol} (h : s.IsGenerated) (r : Register) :
    s.name ≠ r.name := by
  have hplain : '.' ∉ r.name.toList ∧ '_' ∉ r.name.toList := by cases r <;> decide
  intro hname
  rcases h.exists_mem with hmem | hmem
  · exact hplain.1 (hname ▸ hmem)
  · exact hplain.2 (hname ▸ hmem)

end Symbol

/-! ## What tasks define and refer to -/

/-- The symbols that the code of a task gets without being asked for them. -/
def Task.generated (t : Task) (k : Counters) : List Symbol :=
  if t.compares then [.comparison .holds k.comparisons, .comparison .done k.comparisons]
  else if t.calls then [.returnAddress t.module k.calls] else []

/-- The symbols that the code of a task refers to because the task names them: where it goes to, or
a static cell. -/
def Task.references (t : Task) : List Symbol :=
  match t.job with
  | .bootstrap name _ | .command (.call name _) => [.function name]
  | .command (.goto name) | .command (.ifGoto name) => [.label t.module name]
  | .command (.push segment index) | .command (.pop segment index) =>
    (Segment.ofName? segment).toList.flatMap fun s => staticsOfMove t.module s index
  | _ => []

/-- The symbol that a line refers to, unless it is a register. -/
def Line.reference? : Line → Option Symbol
  | .load (.register _) => none
  | .load s => some s
  | _ => none

def referencedIn (c : Code) : List Symbol := c.filterMap Line.reference?

section

variable {t : Task} {k : Counters} {s : Symbol}

theorem Task.isGenerated (h : s ∈ t.generated k) : s.IsGenerated := by
  unfold generated at h
  split at h
  · rcases List.mem_cons.1 h with rfl | h
    · trivial
    · rw [List.mem_singleton.1 h]
      trivial
  · split at h
    · rw [List.mem_singleton.1 h]
      trivial
    · cases h

theorem Task.nodup_generated (t : Task) (k : Counters) :
    ((t.generated k).map Symbol.name).Nodup := by
  have hbranches : (Symbol.comparison .holds k.comparisons).name ≠
      (Symbol.comparison .done k.comparisons).name :=
    fun h => absurd (Symbol.comparison_inj h).1 (by decide)
  unfold generated
  split
  · simpa using hbranches
  · split
    · exact List.nodup_cons.2 ⟨List.not_mem_nil, List.nodup_nil⟩
    · exact List.nodup_nil

/-- What a task defines is what it names and what is generated for it. -/
theorem Task.defines_eq (t : Task) (k : Counters) :
    t.defines k = t.ownDefinition?.toList ++ t.generated k := by
  obtain ⟨module, job⟩ := t
  cases job with
  | bootstrap entry stackBase => rfl
  | command c =>
    cases c with
    | arithmetic name =>
      have hcalls : (⟨module, .command (.arithmetic name)⟩ : Task).calls = false := rfl
      simp only [Task.defines, Task.generated, hcalls, Bool.false_eq_true, if_false]
      rfl
    | _ => rfl

/-- A task for which something is generated names nothing that it defines. -/
theorem Task.ownDefinition?_eq_none (h : s ∈ t.generated k) : t.ownDefinition? = none := by
  obtain ⟨module, job⟩ := t
  cases job with
  | bootstrap entry stackBase => rfl
  | command c =>
    cases c with
    | label name => exact absurd h List.not_mem_nil
    | function name n => exact absurd h List.not_mem_nil
    | _ => rfl

theorem referencedIn_operatorCode (op : Operator) (number : Int) :
    referencedIn (operatorCode op number) =
      if op.isComparison then [.comparison .holds number, .comparison .done number] else [] := by
  cases op <;> rfl

theorem referencedIn_functionCode (name : String) (localCount : Int) :
    referencedIn (functionCode name localCount) = [] := by
  have hzeros : referencedIn (zeroLocals localCount.toNat) = [] := by
    rw [zeroLocals]
    induction localCount.toNat with
    | zero => rfl
    | succ n ih =>
      rw [List.replicate_succ, List.flatten_cons, referencedIn, List.filterMap_append,
        ← referencedIn, ← referencedIn, ih]
      rfl
  exact hzeros

theorem referencedIn_pushCode {module : Option String} {s : Segment} {index : Int} {code : Code}
    (h : pushCode module s index = .ok code) :
    referencedIn code = staticsOfMove module s index := by
  unfold pushCode staticSymbol at h
  cases module <;> cases s <;> simp [baseRegister?, Except.map] at h <;> subst h <;> rfl

theorem referencedIn_popCode {module : Option String} {s : Segment} {index : Int} {code : Code}
    (h : popCode module s index = .ok code) :
    referencedIn code = staticsOfMove module s index := by
  unfold popCode staticSymbol at h
  cases module <;> cases s <;> simp [baseRegister?, Except.map] at h <;> subst h <;> rfl

/-- The code of a task refers to what is generated for it, to what it names, and to registers. -/
theorem Task.draft_references {d : Draft} (h : t.draft k = .ok d) :
    referencedIn d.code = t.generated k ++ t.references := by
  obtain ⟨module, job⟩ := t
  cases job with
  | bootstrap entry stackBase =>
    obtain rfl := Except.ok.inj h
    rfl
  | command c =>
    cases c with
    | arithmetic name =>
      obtain ⟨op, hop, hcode, -⟩ := Task.draft_operator h
      have hcompares : (⟨module, .command (.arithmetic name)⟩ : Task).compares =
          op.isComparison := by
        simp [Task.compares, hop]
      have hcalls : (⟨module, .command (.arithmetic name)⟩ : Task).calls = false := rfl
      rw [hcode, referencedIn_operatorCode, Task.generated, hcompares, hcalls]
      simp [Task.references]
    | push segment index =>
      obtain ⟨-, s, hs, -, -, hcode⟩ := Task.draft_push h
      rw [referencedIn_pushCode hcode]
      simp [Task.generated, Task.references, Task.compares, Task.calls, hs]
    | pop segment index =>
      obtain ⟨-, s, hs, -, -, hcode⟩ := Task.draft_pop h
      rw [referencedIn_popCode hcode]
      simp [Task.generated, Task.references, Task.compares, Task.calls, hs]
    | function name n =>
      obtain rfl := Except.ok.inj h
      exact referencedIn_functionCode name n
    | label name | goto name | ifGoto name | call name n | «return» =>
      obtain rfl := Except.ok.inj h
      rfl

end

/-! ## What a request writes -/

/-- The task that a request is for; a comment is for none. -/
def Request.task? (module : Option String) : Request → Option Task
  | .operator name => some ⟨module, .command (.arithmetic name)⟩
  | .move .push segment index => some ⟨module, .command (.push segment index)⟩
  | .move .pop segment index => some ⟨module, .command (.pop segment index)⟩
  | .move _ _ _ => none
  | .label name => some ⟨module, .command (.label name)⟩
  | .goto name => some ⟨module, .command (.goto name)⟩
  | .ifGoto name => some ⟨module, .command (.ifGoto name)⟩
  | .function name n => some ⟨module, .command (.function name n)⟩
  | .call name n => some ⟨module, .command (.call name n)⟩
  | .return => some ⟨module, .command .return⟩
  | .bootstrap entry stackBase => some ⟨module, .bootstrap entry stackBase⟩
  | .comment _ => none
  | .instruction i => some ⟨module, .command i.command⟩

theorem Request.module_of_task? {module : Option String} {t : Task} (r : Request)
    (h : r.task? module = some t) : t.module = module := by
  cases r with
  | move kind segment index =>
    cases kind <;> simp only [task?, Option.some.injEq, reduceCtorEq] at h <;> subst h <;> rfl
  | _ => simp only [task?, Option.some.injEq, reduceCtorEq] at h <;> subst h <;> rfl

theorem withoutComments_annotate (s : Scope) (text : String) (d : Draft) :
    withoutComments (s.annotate text d).code = withoutComments d.code := by
  unfold Scope.annotate
  split <;> rfl

theorem Scope.draftInstruction_eq_ok {s : Scope} {k : Counters} {i : Instruction} {d : Draft}
    (h : s.draftInstruction k i = .ok d) : ∃ d', s.draftCommand k i.command = .ok d' ∧
      (d = d' ∨ ∃ text, d = s.annotate text d') := by
  cases hcommand : s.draftCommand k i.command with
  | error f =>
    cases hon : s.comments <;> cases hrender : i.render <;>
      simp [draftInstruction, hcommand, hon, hrender, Except.map, Except.mapError] at h
  | ok d' =>
    refine ⟨d', rfl, ?_⟩
    cases hon : s.comments with
    | false =>
      simp only [draftInstruction, hcommand, hon, Except.mapError, Bool.false_eq_true, if_false,
        Except.ok.injEq] at h
      exact .inl h.symm
    | true =>
      cases hrender : i.render with
      | error f => simp [draftInstruction, hon, hrender] at h
      | ok text =>
        simp only [draftInstruction, hcommand, hon, hrender, Except.map, Except.mapError, if_true,
          Except.ok.injEq] at h
        exact .inr ⟨text, h.symm⟩

/-- A draft of a request is that of its task, but for comments. -/
theorem Scope.draft_eq_ok {s : Scope} {k : Counters} {r : Request} {d : Draft}
    (h : s.draft k r = .ok d) :
    (r.task? s.module = none ∧ d.counters = k ∧ withoutComments d.code = []) ∨
      ∃ t d', r.task? s.module = some t ∧ t.draft k = .ok d' ∧ d.counters = d'.counters ∧
        withoutComments d.code = d'.code := by
  have htask {t : Task} {d' : Draft} (ht : r.task? s.module = some t) (hd : t.draft k = .ok d')
      (h : d = d' ∨ ∃ text, d = s.annotate text d') :
      ∃ t d', r.task? s.module = some t ∧ t.draft k = .ok d' ∧ d.counters = d'.counters ∧
        withoutComments d.code = d'.code := by
    have hcode := withoutComments_eq_self (Task.noComments hd)
    refine ⟨t, d', ht, hd, ?_⟩
    rcases h with rfl | ⟨text, rfl⟩
    · exact ⟨rfl, hcode⟩
    · rw [counters_annotate, withoutComments_annotate]
      exact ⟨rfl, hcode⟩
  cases r with
  | comment text =>
    obtain rfl := Except.ok.inj h
    exact .inl ⟨rfl, rfl, rfl⟩
  | instruction i =>
    obtain ⟨d', hd, hd'⟩ := draftInstruction_eq_ok h
    rw [draftCommand_eq] at hd
    exact .inr (htask rfl hd hd')
  | bootstrap entry stackBase =>
    simp only [draft, draftBootstrap] at h
    split at h
    · exact .inr (htask rfl rfl (.inr ⟨_, (Except.ok.inj h).symm⟩))
    · cases h
  | move kind segment index =>
    obtain ⟨code, hcode⟩ : ∃ code, moveCode s.module kind segment index = .ok code := by
      cases hcode : moveCode s.module kind segment index with
      | error f =>
        rw [draft, hcode] at h
        cases h
      | ok code => exact ⟨code, rfl⟩
    obtain ⟨-, -, -, -, ⟨rfl, -⟩ | ⟨rfl, -⟩⟩ := moveCode_eq_ok hcode
    · exact .inr (htask rfl h (.inl rfl))
    · exact .inr (htask rfl h (.inl rfl))
  | operator | label | goto | ifGoto | function | call | «return» =>
    exact .inr (htask rfl h (.inl rfl))

/-! ## What an emitter writes -/

/-- What an emitter wrote for a request: its code, and the scope and the counters that it was
drafted with. -/
structure Written where
  scope : Scope
  counters : Counters
  request : Request
  code : Code

namespace Written

def task? (w : Written) : Option Task := w.request.task? w.scope.module

def compares (w : Written) : Bool := w.task?.any Task.compares

def calls (w : Written) : Bool := w.task?.any Task.calls

/-- The text of the code. -/
def text (w : Written) : String := renderLines w.code

/-- The generated symbols: two for a comparison and one for a call. -/
def generated (w : Written) : List Symbol :=
  match w.task? with
  | some t => t.generated w.counters
  | none => []

/-- The names of the generated symbols. -/
def labels (w : Written) : List String := w.generated.map Symbol.name

/-- The name that the request gives to a label or a function. -/
def ownNames (w : Written) : List String :=
  (w.task?.bind Task.ownDefinition?).toList.map Symbol.name

/-- The name by which the request refers to a label, a function or a static cell. -/
def targetNames (w : Written) : List String :=
  (w.task?.toList.flatMap Task.references).map Symbol.name

/-- The counters after it was written. -/
def next (w : Written) : Counters where
  comparisons := w.counters.comparisons + if w.compares then 1 else 0
  calls := w.counters.calls + if w.calls then 1 else 0

/-- The name of the module and the name in the request are read as they are written, and no comment
in the code has a break. -/
structure Plain (w : Written) : Prop where
  module : ∀ m, w.scope.module = some m → Verbatim m
  name : ∀ t name, w.task? = some t → t.job.target? = some name → Verbatim name
  comments : TidyComments w.code

/-- The code defines and refers to what it should, and has no other symbols than its task. -/
structure Faithful (w : Written) : Prop where
  defined : (definedIn w.code).map Symbol.name = w.ownNames ++ w.labels
  referenced : (referencedIn w.code).map Symbol.name = w.labels ++ w.targetNames
  mentioned : ∀ l ∈ w.code, ∀ s, l.symbol? = some s →
    ∃ t, w.task? = some t ∧ t.module = w.scope.module ∧ t.MayMention w.counters s

theorem referencedIn_withoutComments (c : Code) :
    referencedIn (withoutComments c) = referencedIn c := by
  rw [referencedIn, withoutComments, List.filterMap_filter]
  refine List.filterMap_congr fun l _ => ?_
  cases l <;> rfl

/-- A draft that is written counts what it has and is faithful. -/
theorem of_draft {s : Scope} {k : Counters} {r : Request} {d : Draft} (h : s.draft k r = .ok d) :
    (Written.mk s k r d.code).next = d.counters ∧ (Written.mk s k r d.code).Faithful := by
  have hnone (k : Counters) : (⟨k.comparisons + 0, k.calls + 0⟩ : Counters) = k := by simp
  have hsymbol {l : Line} (hl : l ∈ d.code) {x : Symbol} (hx : l.symbol? = some x) :
      l ∈ withoutComments d.code := by
    refine List.mem_filter.2 ⟨hl, ?_⟩
    cases l with
    | comment text => cases hx
    | define | load | number | act => rfl
  rcases Scope.draft_eq_ok h with ⟨htask, hcounters, hcode⟩ | ⟨t, d', htask, hd, hcounters, hcode⟩
  · refine ⟨?_, ?_, ?_, ?_⟩
    · simp [next, compares, calls, task?, htask, hcounters]
    · rw [← definedIn_withoutComments, hcode]
      simp [ownNames, labels, generated, task?, htask]
    · rw [← referencedIn_withoutComments, hcode]
      simp [targetNames, labels, generated, task?, htask, referencedIn]
    · intro l hl x hx
      have hmem := hsymbol hl hx
      rw [hcode] at hmem
      cases hmem
  · obtain ⟨hdefines, hnext⟩ := Task.draft_defines hd
    refine ⟨?_, ?_, ?_, ?_⟩
    · rw [hcounters, hnext]
      simp [next, compares, calls, task?, htask, Task.next]
    · rw [← definedIn_withoutComments, hcode, hdefines, Task.defines_eq]
      simp [ownNames, labels, generated, task?, htask]
    · rw [← referencedIn_withoutComments, hcode, Task.draft_references hd]
      simp [targetNames, labels, generated, task?, htask]
    · intro l hl x hx
      exact ⟨t, htask, r.module_of_task? htask,
        (Task.covers hd).symbols l (hcode ▸ hsymbol hl hx) x hx⟩

theorem isGenerated {w : Written} {s : Symbol} (h : s ∈ w.generated) : s.IsGenerated := by
  unfold generated at h
  split at h
  · exact Task.isGenerated h
  · cases h

theorem nodup_labels (w : Written) : w.labels.Nodup := by
  unfold labels generated
  split
  · exact Task.nodup_generated _ _
  · exact List.nodup_nil

/-- What generates a label gives no name of its own. -/
theorem ownNames_eq_nil {w : Written} {x : String} (h : x ∈ w.labels) : w.ownNames = [] := by
  obtain ⟨s, hs, -⟩ := List.mem_map.1 h
  unfold generated at hs
  split at hs
  · next t htask =>
    rw [ownNames, htask, Option.bind_some, Task.ownDefinition?_eq_none hs]
    rfl
  · cases hs

/-- A generated symbol has the number that was counted to. -/
theorem of_mem_generated {w : Written} {s : Symbol} (h : s ∈ w.generated) :
    (∃ branch, s = .comparison branch w.counters.comparisons ∧ w.compares = true) ∨
      ∃ module, s = .returnAddress module w.counters.calls ∧ w.calls = true := by
  unfold generated at h
  split at h
  · next t htask =>
    have hcompares : w.compares = t.compares := by rw [compares, htask, Option.any_some]
    have hcalls : w.calls = t.calls := by rw [calls, htask, Option.any_some]
    unfold Task.generated at h
    split at h
    · next hc =>
      rcases List.mem_cons.1 h with rfl | h
      · exact .inl ⟨.holds, rfl, hcompares.trans hc⟩
      · rw [List.mem_singleton.1 h]
        exact .inl ⟨.done, rfl, hcompares.trans hc⟩
    · split at h
      · next hc =>
        rw [List.mem_singleton.1 h]
        exact .inr ⟨t.module, rfl, hcalls.trans hc⟩
      · cases h
  · cases h

end Written

/-- Counters have counted no further than others. -/
structure Counters.Le (k l : Counters) : Prop where
  comparisons : k.comparisons ≤ l.comparisons
  calls : k.calls ≤ l.calls

theorem Counters.Le.refl (k : Counters) : k.Le k := ⟨Int.le_refl _, Int.le_refl _⟩

theorem Counters.Le.trans {k l m : Counters} (h : k.Le l) (h' : l.Le m) : k.Le m :=
  ⟨Int.le_trans h.comparisons h'.comparisons, Int.le_trans h.calls h'.calls⟩

theorem Written.le_next (w : Written) : w.counters.Le w.next := by
  constructor
  · simp only [Written.next]
    split <;> omega
  · simp only [Written.next]
    split <;> omega

/-- What is written later generates other labels: their numbers have been counted further. -/
theorem Written.labels_disjoint {w v : Written} (h : w.next.Le v.counters) :
    List.Disjoint w.labels v.labels := by
  intro x hw hv
  obtain ⟨s, hs, rfl⟩ := List.mem_map.1 hw
  obtain ⟨t, ht, hname⟩ := List.mem_map.1 hv
  rcases of_mem_generated hs with ⟨branch, rfl, hc⟩ | ⟨module, rfl, hc⟩
  · have hle : w.counters.comparisons + 1 ≤ v.counters.comparisons := by
      simpa [next, hc] using h.comparisons
    rcases of_mem_generated ht with ⟨branch', rfl, -⟩ | ⟨module', rfl, -⟩
    · have heq := (Symbol.comparison_inj hname).2
      omega
    · exact Symbol.returnAddress_ne_comparison _ _ _ _ hname
  · have hle : w.counters.calls + 1 ≤ v.counters.calls := by
      simpa [next, hc] using h.calls
    rcases of_mem_generated ht with ⟨branch', rfl, -⟩ | ⟨module', rfl, -⟩
    · exact Symbol.returnAddress_ne_comparison _ _ _ _ hname.symm
    · have heq := Symbol.number_of_returnAddress hname
      omega

/-! ## What a sequence of operations writes -/

namespace Emitter

/-- What an operation writes, unless it fails or only enters a module. -/
def writtenBy? (e : Emitter) (op : Operation) : Option Written :=
  match op, e.perform op with
  | .write r, (.ok (), e') =>
    some { scope := e.scope, counters := e.counters, request := r,
           code := e'.lines.toList.drop e.lines.size }
  | _, _ => none

/-- What a sequence of operations writes, in order. -/
def written (e : Emitter) : List Operation → List Written
  | [] => []
  | op :: ops => (e.writtenBy? op).toList ++ (e.perform op).2.written ops

variable {e : Emitter}

/-- An operation of an open emitter writes nothing and leaves code and counters alone, or it writes
what it should and counts it. -/
theorem perform_cases (ho : e.closed = false) (op : Operation) :
    (e.writtenBy? op = none ∧ (e.perform op).2.counters = e.counters ∧
        (e.perform op).2.lines = e.lines) ∨
      ∃ w, e.writtenBy? op = some w ∧ w.Faithful ∧ w.counters = e.counters ∧
        (e.perform op).2.counters = w.next ∧
        (e.perform op).2.lines.toList = e.lines.toList ++ w.code := by
  rcases hperform : e.perform op with ⟨outcome, e'⟩
  cases outcome with
  | error f =>
    obtain rfl := perform_eq_error ho hperform
    refine .inl ⟨?_, rfl, rfl⟩
    cases op <;> simp only [writtenBy?, hperform]
  | ok u =>
    cases op with
    | enter moduleName =>
      refine .inl ⟨rfl, ?_⟩
      rw [perform] at hperform
      obtain ⟨f, hm⟩ | ⟨m, hm⟩ := e.enterModule_cases moduleName
      · rw [hm] at hperform
        cases hperform
      · rw [hm] at hperform
        obtain rfl := (Prod.mk.inj hperform).2
        exact ⟨rfl, rfl⟩
    | write r =>
      obtain ⟨d, hd, -, hcounters, hlines⟩ := write_eq_ok hperform
      obtain ⟨hnext, hfaithful⟩ := Written.of_draft hd
      refine .inr ⟨⟨e.scope, e.counters, r, d.code⟩, ?_, hfaithful, rfl, hcounters.trans hnext.symm,
        hlines⟩
      have hcode : e'.lines.toList.drop e.lines.size = d.code := by
        rw [hlines, ← Array.length_toList, List.drop_left]
      simp only [writtenBy?, hperform, hcode]

/-- The code of an emitter, its counters and what it has written are in step. -/
theorem written_in_step (ho : e.closed = false) (ops : List Operation) :
    (e.performAll ops).lines.toList = e.lines.toList ++ (e.written ops).flatMap Written.code ∧
      (e.performAll ops).counters.comparisons =
        e.counters.comparisons + (e.written ops).countP Written.compares ∧
      (e.performAll ops).counters.calls =
        e.counters.calls + (e.written ops).countP Written.calls := by
  induction ops generalizing e with
  | nil => simp [performAll, written]
  | cons op ops ih =>
    obtain ⟨hlines, hcomparisons, hcalls⟩ := ih ((closed_perform e op).trans ho)
    rw [performAll_cons, written, hlines, hcomparisons, hcalls]
    rcases perform_cases ho op with ⟨hnone, hk, hl⟩ | ⟨w, hsome, -, hstart, hk, hl⟩
    · rw [hnone, hk, hl]
      exact ⟨rfl, rfl, rfl⟩
    · rw [hsome, hk, hl, Option.toList_some, List.singleton_append, List.flatMap_cons,
        List.append_assoc, List.countP_cons, List.countP_cons]
      simp only [Written.next, hstart]
      refine ⟨trivial, ?_, ?_⟩
      · split <;> omega
      · split <;> omega

/-- What is written is faithful, and each piece follows those before it. -/
theorem follows_written (ho : e.closed = false) (ops : List Operation) :
    (∀ w ∈ e.written ops, w.Faithful ∧ e.counters.Le w.counters) ∧
      (e.written ops).Pairwise fun w v => w.next.Le v.counters := by
  induction ops generalizing e with
  | nil => exact ⟨fun _ h => absurd h List.not_mem_nil, List.Pairwise.nil⟩
  | cons op ops ih =>
    obtain ⟨hrest, hpairs⟩ := ih ((closed_perform e op).trans ho)
    rw [written]
    rcases perform_cases ho op with ⟨hnone, hk, -⟩ | ⟨w, hsome, hfaithful, hstart, hk, -⟩
    · rw [hnone]
      rw [hk] at hrest
      exact ⟨hrest, hpairs⟩
    · -- What comes after starts from the counters that this operation leaves behind.
      rw [hk] at hrest
      rw [hsome, Option.toList_some, List.singleton_append]
      refine ⟨?_, List.pairwise_cons.2 ⟨fun v hv => (hrest v hv).2, hpairs⟩⟩
      intro v hv
      rcases List.mem_cons.1 hv with rfl | hv
      · exact ⟨hfaithful, hstart ▸ Counters.Le.refl _⟩
      · obtain ⟨hv, hle⟩ := hrest v hv
        exact ⟨hv, hstart ▸ w.le_next.trans hle⟩

end Emitter

/-! ## Rows with a label -/

theorem Line.reference?_load {s : Symbol} (h : ∀ r, s ≠ .register r) :
    (Line.load s).reference? = some s := by
  cases s with
  | register r => exact absurd rfl (h r)
  | _ => rfl

/-- Code loads the name of a generated symbol just if it refers to a symbol of that name: numbers
and registers have other names. -/
theorem mem_loaded_iff {c : Code} {s : Symbol} (hs : s.IsGenerated) :
    s.name ∈ c.filterMap Line.loaded? ↔ s.name ∈ (referencedIn c).map Symbol.name := by
  rw [List.mem_filterMap, List.mem_map]
  constructor
  · rintro ⟨l, hl, hloaded⟩
    cases l with
    | load t =>
      have hname : t.name = s.name := Option.some.inj hloaded
      refine ⟨t, List.mem_filterMap.2 ⟨_, hl, Line.reference?_load ?_⟩, hname⟩
      rintro r rfl
      exact hs.name_ne_register r hname.symm
    | number n => exact absurd (Option.some.inj hloaded).symm (hs.name_ne_render n)
    | define | comment | act => cases hloaded
  · rintro ⟨t, ht, hname⟩
    obtain ⟨l, hl, ht⟩ := List.mem_filterMap.1 ht
    refine ⟨l, hl, ?_⟩
    cases l with
    | load u =>
      cases u with
      | register r => cases ht
      | _ => exact congrArg some ((congrArg Symbol.name (Option.some.inj ht)).trans hname)
    | define | number | comment | act => cases ht

namespace Written

variable {w v : Written} {x : String}

theorem Faithful.plain_code (h : w.Faithful) (hw : w.Plain) : Code.Plain w.code where
  comments := hw.comments
  symbols l hl s hs := by
    obtain ⟨t, ht, hmodule, hmention⟩ := h.mentioned l hl s hs
    refine hmention.verbatim (fun m hm => hw.module m (hmodule ▸ hm)) fun name hname => ?_
    exact hw.name t name ht hname

/-- The rows of plain code define the name that was given and the generated labels. -/
theorem Faithful.definitionsIn_text (h : w.Faithful) (hw : w.Plain) :
    definitionsIn w.text = w.ownNames ++ w.labels := by
  rw [text, definitionsIn_renderLines (h.plain_code hw), h.defined]

/-- They load the generated labels and the name that was referred to, and nothing else that looks
like a generated label. -/
theorem Faithful.mem_operandsIn_text (h : w.Faithful) (hw : w.Plain) {s : Symbol}
    (hs : s.IsGenerated) : s.name ∈ operandsIn w.text ↔ s.name ∈ w.labels ++ w.targetNames := by
  rw [text, operandsIn_renderLines (h.plain_code hw), mem_loaded_iff hs, h.referenced]

/-- A generated label is defined once in the code of its command, and referred to there. -/
theorem Faithful.own_label (h : w.Faithful) (hw : w.Plain) (hx : x ∈ w.labels) :
    (definitionsIn w.text).count x = 1 ∧ x ∈ operandsIn w.text := by
  obtain ⟨s, hs, rfl⟩ := List.mem_map.1 hx
  constructor
  · rw [h.definitionsIn_text hw, ownNames_eq_nil hx, List.nil_append]
    exact List.count_eq_one_of_mem w.nodup_labels hx
  · exact (h.mem_operandsIn_text hw (isGenerated hs)).2 (List.mem_append_left _ hx)

/-- Another command defines or refers to a generated label just if it was given its name. -/
theorem Faithful.other_label (h : v.Faithful) (hv : v.Plain)
    (hdisjoint : List.Disjoint w.labels v.labels) (hx : x ∈ w.labels) :
    (x ∈ definitionsIn v.text ↔ x ∈ v.ownNames) ∧ (x ∈ operandsIn v.text ↔ x ∈ v.targetNames) := by
  have hother : x ∉ v.labels := fun hmem => hdisjoint hx hmem
  obtain ⟨s, hs, rfl⟩ := List.mem_map.1 hx
  constructor
  · rw [h.definitionsIn_text hv, List.mem_append]
    simp [hother]
  · rw [h.mem_operandsIn_text hv (isGenerated hs), List.mem_append]
    simp [hother]

end Written

/-- The rows of an emitter's text are those of its lines. -/
theorem Emitter.rows_text (e : Emitter) :
    rows e.text.toList = e.lines.toList.flatMap fun l => rowsOf l.render.toList := by
  rw [Emitter.text, Emitter.textFrom, List.drop_zero, rows_renderLines]

/-- The labels that an open emitter generates are all different, and the numbers on them are those
that it counts. After any operations, failed or not, its code has grown by what they wrote, its text
by the rows of that, and its counters by the comparisons and calls in it. Where names are read as
they are written, each generated label is defined once in the text of its own command, and referred
to there; and another command defines it or refers to it just if it was given its very name, for a
label or a function of its own or for what it refers to. -/
theorem generated_labels_unique {e : Emitter} (ho : e.closed = false) (ops : List Operation) :
    ((e.performAll ops).lines.toList = e.lines.toList ++ (e.written ops).flatMap Written.code ∧
      rows (e.performAll ops).text.toList =
        rows e.text.toList ++ (e.written ops).flatMap (fun w => rows w.text.toList) ∧
      (e.performAll ops).counters.comparisons =
        e.counters.comparisons + (e.written ops).countP Written.compares ∧
      (e.performAll ops).counters.calls =
        e.counters.calls + (e.written ops).countP Written.calls) ∧
    ((e.written ops).flatMap Written.labels).Nodup ∧
    ∀ before w after, e.written ops = before ++ w :: after → ∀ x ∈ w.labels,
      (w.Plain → (definitionsIn w.text).count x = 1 ∧ x ∈ operandsIn w.text) ∧
      ∀ v ∈ before ++ after, v.Plain →
        (x ∈ definitionsIn v.text ↔ x ∈ v.ownNames) ∧
          (x ∈ operandsIn v.text ↔ x ∈ v.targetNames) := by
  obtain ⟨hfaithful, hpairs⟩ := Emitter.follows_written ho ops
  obtain ⟨hlines, hcomparisons, hcalls⟩ := Emitter.written_in_step ho ops
  have hdisjoint : (e.written ops).Pairwise fun w v => List.Disjoint w.labels v.labels :=
    hpairs.imp Written.labels_disjoint
  refine ⟨⟨hlines, ?_, hcomparisons, hcalls⟩, ?_, ?_⟩
  · rw [Emitter.rows_text, Emitter.rows_text, hlines, List.flatMap_append, List.flatMap_assoc]
    simp only [Written.text, rows_renderLines]
  · rw [List.nodup_flatMap]
    exact ⟨fun w _ => w.nodup_labels, hdisjoint⟩
  · intro before w after hsplit x hx
    rw [hsplit] at hfaithful hdisjoint
    have hw : w ∈ before ++ w :: after := List.mem_append_right _ List.mem_cons_self
    refine ⟨fun hplain => (hfaithful w hw).1.own_label hplain hx, ?_⟩
    intro v hv hplain
    obtain ⟨-, hlater, hearlier⟩ := List.pairwise_append.1 hdisjoint
    rcases List.mem_append.1 hv with hv | hv
    · have hv' : v ∈ before ++ w :: after := List.mem_append_left _ hv
      have hapart : List.Disjoint w.labels v.labels := fun y hw hv' =>
        hearlier v hv w List.mem_cons_self hv' hw
      exact (hfaithful v hv').1.other_label hplain hapart hx
    · have hv' : v ∈ before ++ w :: after := List.mem_append_right _ (List.mem_cons_of_mem _ hv)
      exact (hfaithful v hv').1.other_label hplain ((List.pairwise_cons.1 hlater).1 v hv) hx

/-- Two comparisons, a call and the bootstrap, in different modules; there is no operator of the
name that comes third. -/
def mixedOperations : List Operation :=
  [.write (.operator "eq"), .enter "Main", .write (.operator "mul"), .write (.call "Main.f" 0),
    .enter "Sys", .write (.bootstrap "Sys.init" 256), .write (.operator "lt")]

theorem generated_labels_unique_mixedOperations :
    let e : Emitter := { counters := { comparisons := 7, calls := 3 } }
    e.closed = false ∧
      (e.performAll mixedOperations).counters.comparisons = 9 ∧
      (e.performAll mixedOperations).counters.calls = 5 ∧
      (e.written mixedOperations).flatMap Written.labels =
        ["IF_TRUE_7", "END_COMP_7", "Main$ret.3", "Sys$ret.4", "IF_TRUE_8", "END_COMP_8"] ∧
      ((e.written mixedOperations).flatMap Written.labels).Nodup ∧
      ∃ w after, e.written mixedOperations = w :: after ∧ w.Plain ∧
        (definitionsIn w.text).count "IF_TRUE_7" = 1 ∧ "IF_TRUE_7" ∈ operandsIn w.text := by
  intro e
  have ho : e.closed = false := rfl
  have hcounts : (e.written mixedOperations).countP Written.compares = 2 ∧
      (e.written mixedOperations).countP Written.calls = 2 := by decide +kernel
  have hfirst : (e.written mixedOperations).head?.map (fun w =>
      (w.scope.module, w.task?, w.labels, w.code.all fun l => !l.isComment)) =
        some (none, some ⟨none, .command (.arithmetic "eq")⟩,
          ["IF_TRUE_7", "END_COMP_7"], true) := by
    decide +kernel
  obtain ⟨⟨-, -, hcomparisons, hcalls⟩, hnodup, hlabels⟩ :=
    generated_labels_unique ho mixedOperations
  rw [hcounts.1] at hcomparisons
  rw [hcounts.2] at hcalls
  refine ⟨ho, hcomparisons, hcalls, by decide +kernel, hnodup, ?_⟩
  cases hwritten : e.written mixedOperations with
  | nil =>
    rw [hwritten] at hfirst
    cases hfirst
  | cons w after =>
    rw [hwritten, List.head?_cons, Option.map_some, Option.some.injEq, Prod.mk.injEq, Prod.mk.injEq,
      Prod.mk.injEq] at hfirst
    obtain ⟨hmodule, htask, hnames, hcomments⟩ := hfirst
    have hplain : w.Plain := by
      refine ⟨?_, ?_, ?_⟩
      · rintro m hm
        rw [hmodule] at hm
        cases hm
      · intro t name ht hname
        rw [htask] at ht
        obtain rfl := Option.some.inj ht
        cases hname
      · intro text hmem
        have := List.all_eq_true.1 hcomments _ hmem
        cases this
    have hx : "IF_TRUE_7" ∈ w.labels := by
      rw [hnames]
      exact List.mem_cons_self
    obtain ⟨hcount, hload⟩ := (hlabels [] w after hwritten "IF_TRUE_7" hx).1 hplain
    exact ⟨w, after, rfl, hplain, hcount, hload⟩

/-- A comparison, and a function that is given the name of one of its labels and called by it. -/
def sharedOperations : List Operation :=
  [.enter "Main", .write (.operator "eq"), .write (.function "IF_TRUE_0" 0),
    .write (.call "IF_TRUE_0" 0)]

/-- A comparison, and a comment with a break that hides the definition of one of its labels. -/
def hiddenOperations : List Operation :=
  [.write (.operator "eq"), .write (.comment "x\n(IF_TRUE_0)")]

/-- A comparison, and functions with names that are read as one of its labels. -/
def paddedOperations : List Operation :=
  [.write (.operator "eq"), .write (.function " IF_TRUE_0" 0), .write (.function "IF_TRUE_0)//" 0)]

theorem not_unique_sharedOperations :
    let written := fun ops => ({} : Emitter).written ops
    let defining := fun ops =>
      (written ops).countP fun w => (definitionsIn w.text).contains "IF_TRUE_0"
    (∀ ops ∈ [sharedOperations, hiddenOperations, paddedOperations],
      "IF_TRUE_0" ∈ (written ops).flatMap Written.labels) ∧
    defining sharedOperations = 2 ∧ defining hiddenOperations = 2 ∧ defining paddedOperations = 3 ∧
    ((written sharedOperations).countP fun w => (operandsIn w.text).contains "IF_TRUE_0") = 2 := by
  simp only [definitionsIn, operandsIn, Written.text, rows_renderLines]
  decide +kernel

end HackToolchain.Codegen
