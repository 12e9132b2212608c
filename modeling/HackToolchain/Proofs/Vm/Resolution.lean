import HackToolchain.Proofs.Vm.Agreement

/-!
# Names that stand for something

The stack machine stops at a name that stands for nothing and nowhere else for want of a name
(`Resolves`). Only four kinds of commands have names that may fail: jumps, calls, and pushes and
pops of static variables.
-/

set_option autoImplicit false

namespace HackToolchain.Vm

open Machine

/-- A computation does not stop at a name that stands for nothing. -/
def Resolves {α : Type} (c : Except Stop α) : Prop := c ≠ .error .unresolved

variable {v : Notes} {ram : Ram}

theorem resolves_ok {α : Type} (x : α) : Resolves (.ok x) := by
  simp [Resolves]

theorem Resolves.bind {α β : Type} {first : Except Stop α} {second : α → Except Stop β}
    (h : Resolves first) (k : ∀ value, first = .ok value → Resolves (second value)) :
    Resolves (first >>= second) := by
  cases hf : first with
  | error e =>
    rw [hf] at h
    simpa [Resolves, Bind.bind, Except.bind] using h
  | ok value => exact k value hf

theorem Resolves.map {α β : Type} {first : Except Stop α} (f : α → β) (h : Resolves first) :
    Resolves (f <$> first) := by
  cases hf : first with
  | error e =>
    rw [hf] at h
    simpa [Resolves, Functor.map, Except.map] using h
  | ok value => exact resolves_ok _

theorem resolves_load (a : Word) : Resolves (load v a ram) := by
  unfold load
  split <;> simp [Resolves]

theorem resolves_store (a x : Word) : Resolves (store v a x ram) := by
  unfold store
  split <;> simp [Resolves]

theorem resolves_push (x : Word) : Resolves (push v x ram) :=
  (resolves_load 0).bind fun _ _ => (resolves_store _ _).bind fun _ _ =>
    (resolves_load 0).bind fun _ _ => resolves_store _ _

theorem resolves_pop : Resolves (pop v ram) :=
  (resolves_load 0).bind fun _ _ => (resolves_store _ _).bind fun _ _ =>
    (resolves_load _).bind fun _ _ => resolves_ok _

theorem resolves_operate (op : Operator) : Resolves (operate v op ram) := by
  unfold operate
  split
  · exact resolves_pop.bind fun _ _ => resolves_push _
  · exact resolves_pop.bind fun _ _ => resolves_pop.bind fun _ _ => resolves_push _

/-- An index of a segment has an address, unless it is a constant or a static variable without a
cell. -/
theorem resolves_addressOf {cell : Option Int} {segment : Segment} (index : Int)
    (hc : segment ≠ .constant) (hs : segment = .static → cell.isSome) :
    Resolves (addressOf v cell segment index ram) := by
  cases segment with
  | locals => exact (resolves_load _).bind fun _ _ => resolves_ok _
  | arguments => exact (resolves_load _).bind fun _ _ => resolves_ok _
  | this => exact (resolves_load _).bind fun _ _ => resolves_ok _
  | that => exact (resolves_load _).bind fun _ _ => resolves_ok _
  | pointer => exact resolves_ok _
  | temp => exact resolves_ok _
  | constant => exact absurd rfl hc
  | static =>
    obtain ⟨n, rfl⟩ := Option.isSome_iff_exists.1 (hs rfl)
    simp only [addressOf]
    split <;> simp [Resolves]

theorem resolves_pushFrom {cell : Option Int} {segment : Segment} (index : Int)
    (hs : segment = .static → cell.isSome) : Resolves (pushFrom v cell segment index ram) := by
  unfold pushFrom
  split
  · exact resolves_push _
  · next hc =>
    exact (resolves_addressOf index hc hs).bind fun _ _ =>
      (resolves_load _).bind fun _ _ => resolves_push _

theorem resolves_popInto {cell : Option Int} {segment : Segment} (index : Int)
    (hc : segment ≠ .constant) (hs : segment = .static → cell.isSome) :
    Resolves (popInto v cell segment index ram) :=
  (resolves_addressOf index hc hs).bind fun _ _ => resolves_pop.bind fun _ _ =>
    resolves_store _ _

theorem resolves_save (registers : List Word) : Resolves (save v registers ram) := by
  induction registers generalizing ram with
  | nil => exact resolves_ok _
  | cons r rest ih =>
    exact (resolves_load r).bind fun _ _ => (resolves_push _).bind fun _ _ => ih

theorem resolves_enter (returnAddress : Word) (argumentCount : Int) :
    Resolves (enter v returnAddress argumentCount ram) :=
  (resolves_push _).bind fun _ _ => (resolves_save _).bind fun _ _ =>
    (resolves_load 0).bind fun _ _ => (resolves_store _ _).bind fun _ _ =>
      (resolves_load 0).bind fun _ _ => resolves_store _ _

theorem resolves_clearLocals (count : Nat) : Resolves (clearLocals v count ram) := by
  induction count generalizing ram with
  | zero => exact resolves_ok _
  | succ count ih => exact (resolves_push 0).bind fun _ _ => ih

theorem resolves_restore (frame : Word) (offset : Nat) (registers : List Word) :
    Resolves (restore v frame offset registers ram) := by
  induction registers generalizing ram offset with
  | nil => exact resolves_ok _
  | cons r rest ih =>
    exact (resolves_load _).bind fun _ _ => (resolves_store _ _).bind fun _ _ => ih _

theorem resolves_leave : Resolves (leave v ram) :=
  (resolves_load 1).bind fun _ _ => (resolves_load _).bind fun _ _ =>
    resolves_pop.bind fun _ _ => (resolves_load 2).bind fun _ _ =>
      (resolves_store _ _).bind fun _ _ => (resolves_load 2).bind fun _ _ =>
        (resolves_store _ _).bind fun _ _ => (resolves_restore _ _ _).bind fun _ _ =>
          resolves_ok _

namespace Program

variable {p : Program} {place : Option Nat}

theorem resolves_goTo (h : place.isSome) : Resolves (goTo place ram) := by
  obtain ⟨i, rfl⟩ := Option.isSome_iff_exists.1 h
  exact resolves_ok _

theorem resolves_call {i : Nat} {name : String} (argumentCount : Int)
    (h : (p.entry? name).isSome) : Resolves (p.call v i name argumentCount ram) :=
  (resolves_enter _ _).bind fun _ _ => resolves_goTo h

/-- A command resolves if the names in it stand for something. -/
theorem resolves_perform {i : Nat} {module : Option String} {c : Command}
    (hoperator : ∀ name, c = .arithmetic name → (Operator.ofName? name).isSome)
    (hpush : ∀ segment index, c = .push segment index → ∃ s, Segment.ofName? segment = some s ∧
      (s = .static → (p.cell module index).isSome))
    (hpop : ∀ segment index, c = .pop segment index → ∃ s, Segment.ofName? segment = some s ∧
      s ≠ .constant ∧ (s = .static → (p.cell module index).isSome))
    (hlabel : ∀ name, c = .goto name ∨ c = .ifGoto name → (p.label? module name).isSome)
    (hcall : ∀ name n, c = .call name n → (p.entry? name).isSome) :
    Resolves (p.perform v i module c ram) := by
  cases c with
  | arithmetic name =>
    obtain ⟨op, hop⟩ := Option.isSome_iff_exists.1 (hoperator name rfl)
    simp only [perform, hop]
    exact (resolves_operate op).map _
  | push segment index =>
    obtain ⟨s, hs, hstatic⟩ := hpush segment index rfl
    simp only [perform, hs]
    exact (resolves_pushFrom index hstatic).map _
  | pop segment index =>
    obtain ⟨s, hs, hconstant, hstatic⟩ := hpop segment index rfl
    simp only [perform, hs]
    exact (resolves_popInto index hconstant hstatic).map _
  | label name => exact resolves_ok _
  | goto name => exact resolves_goTo (hlabel name (.inl rfl))
  | ifGoto name =>
    refine resolves_pop.bind fun (x, ram₁) _ => ?_
    by_cases hx : x = 0
    · simp only [hx, if_true]
      exact resolves_ok _
    · simp only [hx, if_false]
      exact resolves_goTo (hlabel name (.inr rfl))
  | function name localCount => exact (resolves_clearLocals _).map _
  | call name argumentCount => exact resolves_call argumentCount (hcall name _ rfl)
  | «return» =>
    refine resolves_leave.bind fun (a, ram₁) _ => ?_
    cases ha : p.taskAt? a <;> simp [ha, Resolves, pure, Except.pure]

end Program

end HackToolchain.Vm
