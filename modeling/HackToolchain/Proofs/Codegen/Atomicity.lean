import HackToolchain.Codegen.Emitter

/-!
# Operations that fail

An operation of an open emitter that fails leaves the emitter as it was
(`Emitter.perform_eq_error`), so the failing operations of a sequence can be left out of it. A
closed emitter writes nothing any more, whatever is asked of it (`Emitter.lines_performAll`).
`Emitter.failures_erasable` puts both together.
-/

set_option autoImplicit false

namespace HackToolchain.Codegen

/-- What can be done with an emitter: writing, or entering a module. -/
inductive Operation where
  | write (r : Request)
  | enter (moduleName : String)
  deriving Repr, DecidableEq

namespace Emitter

/-- Does an operation. -/
def perform (e : Emitter) : Operation → Except Fault Unit × Emitter
  | .write r => e.write r
  | .enter moduleName => e.enterModule moduleName

/-- The emitter after a sequence of operations, each done whatever came of those before it. -/
def performAll (e : Emitter) (ops : List Operation) : Emitter :=
  ops.foldl (fun e op => (e.perform op).2) e

/-- The operations of a sequence that do not fail. -/
def accepted (e : Emitter) : List Operation → List Operation
  | [] => []
  | op :: ops =>
    match e.perform op with
    | (.ok (), e) => op :: e.accepted ops
    | (.error _, e) => e.accepted ops

variable {e e' : Emitter} {op : Operation} {f : Fault}

@[simp] theorem performAll_cons (e : Emitter) (op : Operation) (ops : List Operation) :
    e.performAll (op :: ops) = (e.perform op).2.performAll ops := rfl

@[simp] theorem performAll_append (e : Emitter) (ops ops' : List Operation) :
    e.performAll (ops ++ ops') = (e.performAll ops).performAll ops' := List.foldl_append

/-! ## One operation -/

/-- What is asked of an emitter is given up and leaves it as it is, or a completed draft is
taken. -/
theorem write_cases (e : Emitter) (r : Request) :
    (∃ f, e.write r = (.error f, e)) ∨ ∃ d, e.write r = e.commit d := by
  unfold write
  cases e.scope.draft e.counters r with
  | error f => exact .inl ⟨_, rfl⟩
  | ok d =>
    by_cases hfits : d.code.all Line.fits = true
    · exact .inr ⟨d, if_pos hfits⟩
    · exact .inl ⟨_, if_neg hfits⟩

theorem enterModule_cases (e : Emitter) (name : String) :
    (∃ f, e.enterModule name = (.error f, e)) ∨
      ∃ m, e.enterModule name =
        (.ok (), { e with scope := { e.scope with module := some m } }) := by
  unfold enterModule
  cases moduleOfName? name with
  | none => exact .inl ⟨_, rfl⟩
  | some m => exact .inr ⟨m, rfl⟩

theorem closed_perform (e : Emitter) (op : Operation) : (e.perform op).2.closed = e.closed := by
  cases op with
  | write r =>
    rw [perform]
    obtain ⟨f, h⟩ | ⟨d, h⟩ := e.write_cases r
    · rw [h]
    · rw [h, commit]
      by_cases hc : e.closed = true <;> simp [hc]
  | enter moduleName =>
    rw [perform]
    obtain ⟨f, h⟩ | ⟨m, h⟩ := e.enterModule_cases moduleName <;> rw [h]

theorem closed_performAll (e : Emitter) (ops : List Operation) :
    (e.performAll ops).closed = e.closed := by
  induction ops generalizing e with
  | nil => rfl
  | cons op ops ih => rw [performAll_cons, ih, closed_perform]

/-- An operation of an open emitter that fails changes nothing: the draft is given up with its code
and its counters, and only a completed draft is taken. -/
theorem perform_eq_error (ho : e.closed = false) (h : e.perform op = (.error f, e')) : e' = e := by
  cases op with
  | write r =>
    rw [perform] at h
    obtain ⟨g, hw⟩ | ⟨d, hw⟩ := e.write_cases r
    · exact (Prod.mk.inj (hw.symm.trans h)).2.symm
    · rw [hw, commit, ho] at h
      simp at h
  | enter moduleName =>
    rw [perform] at h
    obtain ⟨g, hm⟩ | ⟨m, hm⟩ := e.enterModule_cases moduleName
    · exact (Prod.mk.inj (hm.symm.trans h)).2.symm
    · rw [hm] at h
      simp at h

theorem exists_fault_of_closed (hc : e.closed = true) (r : Request) :
    ∃ f, (e.write r).1 = .error f := by
  obtain ⟨f, h⟩ | ⟨d, h⟩ := e.write_cases r
  · exact ⟨f, by rw [h]⟩
  · exact ⟨.closed, by rw [h, commit, if_pos hc]⟩

theorem lines_perform (hc : e.closed = true) (op : Operation) :
    (e.perform op).2.lines = e.lines := by
  cases op with
  | write r =>
    rw [perform]
    obtain ⟨f, h⟩ | ⟨d, h⟩ := e.write_cases r
    · rw [h]
    · rw [h, commit, if_pos hc]
  | enter moduleName =>
    rw [perform]
    obtain ⟨f, h⟩ | ⟨m, h⟩ := e.enterModule_cases moduleName <;> rw [h]

/-! ## Sequences of operations -/

theorem lines_performAll (hc : e.closed = true) (ops : List Operation) :
    (e.performAll ops).lines = e.lines := by
  induction ops generalizing e with
  | nil => rfl
  | cons op ops ih =>
    have hc' : (e.perform op).2.closed = true := (closed_perform e op).trans hc
    rw [performAll_cons, ih hc', lines_perform hc]

/-- Leaving out the operations that fail leads to the same emitter. -/
theorem performAll_accepted (ho : e.closed = false) (ops : List Operation) :
    e.performAll (e.accepted ops) = e.performAll ops := by
  -- The emitter stays open, so an operation that fails leaves it as the next one finds it.
  induction ops generalizing e with
  | nil => rfl
  | cons op ops ih =>
    have ho' : (e.perform op).2.closed = false := (closed_perform e op).trans ho
    rw [accepted, performAll_cons]
    rcases h : e.perform op with ⟨outcome, e'⟩
    rw [h] at ho'
    cases outcome with
    | ok u =>
      simp only [performAll_cons, h]
      exact ih ho'
    | error f =>
      obtain rfl := perform_eq_error ho h
      exact ih ho

/-- The operations that are left do not fail when the others are left out. -/
theorem perform_accepted (ho : e.closed = false) {ops done rest : List Operation}
    (h : e.accepted ops = done ++ op :: rest) : ((e.performAll done).perform op).1 = .ok () := by
  induction ops generalizing e done with
  | nil => simp [accepted] at h
  | cons first ops ih =>
    have ho' : (e.perform first).2.closed = false := (closed_perform e first).trans ho
    rw [accepted] at h
    rcases hp : e.perform first with ⟨outcome, e'⟩
    rw [hp] at h ho'
    cases outcome with
    | error f =>
      obtain rfl := perform_eq_error ho hp
      exact ih ho h
    | ok u =>
      cases done with
      | nil =>
        obtain ⟨rfl, -⟩ := List.cons.inj h
        exact congrArg Prod.fst hp
      | cons other done =>
        obtain ⟨rfl, hrest⟩ := List.cons.inj h
        rw [performAll_cons, hp]
        exact ih ho' hrest

/-- Operations that fail can be left out. On an open emitter each of them leaves the emitter as it
was, and the others, done without them, do not fail and lead to the same emitter: the same text, the
same counters, the same module. On a closed emitter all writing fails, and the text stays. -/
theorem failures_erasable (e : Emitter) (ops : List Operation) :
    (e.closed = false →
      (∀ done op rest f, ops = done ++ op :: rest →
        ((e.performAll done).perform op).1 = .error f →
          ((e.performAll done).perform op).2 = e.performAll done) ∧
      e.performAll (e.accepted ops) = e.performAll ops ∧
      ∀ done op rest, e.accepted ops = done ++ op :: rest →
        ((e.performAll done).perform op).1 = .ok ()) ∧
    (e.closed = true →
      (∀ r, ∃ f, ((e.performAll ops).write r).1 = .error f) ∧
        (e.performAll ops).text = e.text ∧ (e.performAll ops).lineCount = e.lineCount) := by
  constructor
  · intro ho
    refine ⟨?_, performAll_accepted ho ops, fun done op rest h => perform_accepted ho h⟩
    intro done op rest f _ hf
    have ho' := (closed_performAll e done).trans ho
    rcases hp : (e.performAll done).perform op with ⟨outcome, e'⟩
    rw [hp] at hf
    obtain rfl : outcome = .error f := hf
    exact perform_eq_error ho' hp
  · intro hc
    have hlines := lines_performAll hc ops
    refine ⟨exists_fault_of_closed ((closed_performAll e ops).trans hc), ?_, ?_⟩
    · rw [text, text, textFrom, textFrom, hlines]
    · rw [lineCount, lineCount, hlines]

/-- Of these operations the second, the third and the fourth fail in an emitter without a module. -/
def exampleOperations : List Operation :=
  [.write (.call "Main.f" 0), .write (.operator "mul"), .write (.move .push "static" 0),
    .enter ".vm", .write (.bootstrap "Sys.init" 256)]

theorem failures_erasable_exampleOperations :
    (({} : Emitter).closed = false ∧ ({} : Emitter).accepted exampleOperations =
        [.write (.call "Main.f" 0), .write (.bootstrap "Sys.init" 256)] ∧
      ({} : Emitter).performAll [.write (.call "Main.f" 0), .write (.bootstrap "Sys.init" 256)] =
        ({} : Emitter).performAll exampleOperations) ∧
    (({} : Emitter).close.closed = true ∧
      (({} : Emitter).close.performAll exampleOperations).lineCount = 0) := by
  have haccepted : ({} : Emitter).accepted exampleOperations =
      [.write (.call "Main.f" 0), .write (.bootstrap "Sys.init" 256)] := by
    decide +kernel
  obtain ⟨-, herased, -⟩ := (failures_erasable {} exampleOperations).1 rfl
  obtain ⟨-, -, hcount⟩ := (failures_erasable ({} : Emitter).close exampleOperations).2 rfl
  exact ⟨⟨rfl, haccepted, haccepted ▸ herased⟩, rfl, hcount⟩

end Emitter

end HackToolchain.Codegen
