import HackToolchain.Proofs.Machine.Execution

/-!
# Runs of the processor

The processor with its memory, apart from the rest of the computer: one step executes the word that
the program counter points at. A run of the computer that is not watched is a sequence of such steps
(`Core.Reaches.exists_run`).

Straight code, which does not jump, is also given a meaning of its own: it changes A, D and the
memory (`runOps`). When its words stand in the instruction memory, the processor runs through them
with just this effect (`reaches_of_runOps`). Where an address is loaded and jumped to from there,
the processor changes nothing any more (`Circle.step`).
-/

set_option autoImplicit false

namespace HackToolchain.Machine

/-! ## Steps -/

/-- The processor and the data memory. -/
structure Core where
  registers : Registers
  ram : Ram

namespace Core

/-- Executes the word that the program counter points at, if there is one and it is not refused. -/
def step (rom : Array Word) (s : Core) : Option Core :=
  match rom[s.registers.pc.toNat]? with
  | none => none
  | some w =>
    match execute w s.registers s.ram with
    | (.ok (), registers, ram) => some ⟨registers, ram⟩
    | (.error _, _, _) => none

/-- Steps lead from one state to another. -/
inductive Reaches (rom : Array Word) : Core → Core → Prop
  | refl (s : Core) : Reaches rom s s
  | head {s t u : Core} (first : s.step rom = some t) (rest : Reaches rom t u) : Reaches rom s u

variable {rom : Array Word} {s t u : Core}

theorem Reaches.trans (h : Reaches rom s t) (g : Reaches rom t u) : Reaches rom s u := by
  induction h with
  | refl => exact g
  | head first _ ih => exact .head first (ih g)

theorem Reaches.single (h : s.step rom = some t) : Reaches rom s t := .head h (.refl t)

end Core

/-! ## The computer -/

namespace Computer

/-- The processor and the memory of a computer. -/
def core (c : Computer) : Core := ⟨c.registers, c.ram⟩

/-- The computer after some instructions, which changed its processor and its memory. -/
def advance (c : Computer) (s : Core) (count : Nat) : Computer :=
  { c with registers := s.registers, ram := s.ram, cycles := c.cycles + count }

@[simp] theorem core_advance (c : Computer) (s : Core) (count : Nat) :
    (c.advance s count).core = s := rfl

@[simp] theorem advance_advance (c : Computer) (s t : Core) (m n : Nat) :
    (c.advance s m).advance t n = c.advance t (m + n) := by
  simp [advance, Nat.add_assoc]

theorem step_of_core {c : Computer} {t : Core} (hw : c.watch = none)
    (h : c.core.step c.rom.words = some t) : c.step = (.ok true, c.advance t 1) := by
  have hcurrent : c.current = c.rom.words[c.registers.pc.toNat]? := by
    rw [current, Rom.fetch, if_neg (by omega), Int.toNat_natCast]
  simp only [Core.step, core] at h
  rw [← hcurrent] at h
  cases hw' : c.current with
  | none => simp [hw'] at h
  | some w =>
    rw [hw'] at h
    obtain ⟨registers, ram, he, rfl⟩ : ∃ registers ram,
        execute w c.registers c.ram = (.ok (), registers, ram) ∧ (⟨registers, ram⟩ : Core) = t := by
      rcases hx : execute w c.registers c.ram with ⟨outcome, registers, ram⟩
      simp only [hx] at h
      cases outcome with
      | error e => simp at h
      | ok u => exact ⟨registers, ram, rfl, by simpa using h⟩
    simp only [step, hw', observe, hw, perform, he]
    simp [advance, hw]

theorem exists_runFrom {rom : Array Word} {s t : Core} (h : Core.Reaches rom s t) :
    ∃ count, ∀ (c : Computer) (executed : Nat), c.core = s → c.rom.words = rom → c.watch = none →
      runFrom count executed c = (.ok (executed + count), c.advance t count) := by
  induction h with
  | refl s =>
    refine ⟨0, fun c executed hc _ _ => ?_⟩
    subst hc
    simp [runFrom, advance, core]
  | head first _ ih =>
    obtain ⟨count, ih⟩ := ih
    refine ⟨count + 1, fun c executed hc hrom hw => ?_⟩
    subst hc hrom
    rw [runFrom, step_of_core hw first]
    simp only
    rw [ih (c.advance _ 1) (executed + 1) rfl rfl hw, advance_advance]
    simp only [Nat.add_comm 1 count, Nat.add_assoc]

/-- When steps lead a computer's processor to a state, a run with the right budget takes the
computer there. -/
theorem exists_run {c : Computer} {t : Core} (hw : c.watch = none)
    (h : Core.Reaches c.rom.words c.core t) :
    ∃ count : Nat, c.run (some count) = (.ok count, c.advance t count) := by
  obtain ⟨count, hcount⟩ := exists_runFrom h
  refine ⟨count, ?_⟩
  rw [run]
  simpa [budget] using hcount c 0 rfl rfl hw

end Computer

/-! ## Straight code -/

/-- The instructions: they load a number or they compute. -/
inductive Op where
  | load (n : Int)
  | act (i : Action)

def Op.word : Op → Word
  | .load n => encodeLoad n
  | .act i => i.encode

/-- What straight code works on. -/
structure Data where
  a : Word
  d : Word
  ram : Ram

namespace Data

/-- The state of the processor when it is about to go on at an address. -/
def before (s : Data) (address : Nat) : Core := ⟨⟨s.a, s.d, BitVec.ofNat 16 address⟩, s.ram⟩

end Data

/-- What straight code on a computer works on. -/
def Computer.data (c : Computer) : Data := ⟨c.registers.a, c.registers.d, c.ram⟩

/-- A computer that is about to go on at an address runs as the processor does with its program. -/
theorem Computer.exists_run_of_reaches {c : Computer} {words : Array Word} {address : Nat}
    {t : Core} (hw : c.watch = none) (hrom : c.rom.words = words)
    (hpc : c.registers.pc = BitVec.ofNat 16 address)
    (h : Core.Reaches words (c.data.before address) t) :
    ∃ count : Nat, c.run (some count) = (.ok count, c.advance t count) := by
  have hcore : c.core = c.data.before address := by
    simp [Computer.core, Computer.data, Data.before, ← hpc]
  rw [← hcore, ← hrom] at h
  exact Computer.exists_run hw h

/-- What an instruction does that does not jump. -/
def Op.run : Op → Data → Option Data
  | .load n, s => some { s with a := encodeLoad n }
  | .act i, s =>
    if i.jump = none ∧ (i.needsCell = true → s.a.toNat < s.ram.size) then
      let v := i.computation.eval s.d
        (if i.computation.usesMemory then s.ram.get s.a.toNat else s.a)
      some
        { a := if i.destination.a then v else s.a
          d := if i.destination.d then v else s.d
          ram := if i.destination.m then s.ram.set s.a.toNat v else s.ram }
    else none

/-- What straight code does. -/
def runOps : List Op → Data → Option Data
  | [], s => some s
  | op :: ops, s => (op.run s).bind (runOps ops)

theorem runOps_append (xs ys : List Op) (s : Data) :
    runOps (xs ++ ys) s = (runOps xs s).bind (runOps ys) := by
  induction xs generalizing s with
  | nil => rfl
  | cons op xs ih =>
    simp only [List.cons_append, runOps, Option.bind_assoc]
    congr 1
    funext t
    exact ih t

/-! ## Code in the instruction memory -/

/-- Words stand in the instruction memory from an address on. -/
def Holds (rom : Array Word) (address : Nat) (ws : List Word) : Prop :=
  ∀ (i : Nat) (w : Word), ws[i]? = some w → rom[address + i]? = some w

theorem holds_append {rom : Array Word} {address : Nat} {xs ys : List Word} :
    Holds rom address (xs ++ ys) ↔
      Holds rom address xs ∧ Holds rom (address + xs.length) ys := by
  constructor
  · intro h
    refine ⟨fun i w hi => h i w ?_, fun i w hi => ?_⟩
    · rw [List.getElem?_append_left]
      · exact hi
      · exact (List.getElem?_eq_some_iff.1 hi).1
    · have := h (xs.length + i) w (by rw [List.getElem?_append_right (by omega)]; simpa using hi)
      simpa [Nat.add_assoc] using this
  · rintro ⟨hx, hy⟩ i w hi
    by_cases hlt : i < xs.length
    · exact hx i w (by rwa [List.getElem?_append_left hlt] at hi)
    · rw [List.getElem?_append_right (by omega)] at hi
      have := hy (i - xs.length) w hi
      rwa [show address + xs.length + (i - xs.length) = address + i by omega] at this

theorem holds_cons {rom : Array Word} {address : Nat} {w : Word} {ws : List Word} :
    Holds rom address (w :: ws) ↔ rom[address]? = some w ∧ Holds rom (address + 1) ws := by
  rw [show w :: ws = [w] ++ ws from rfl, holds_append]
  refine and_congr ⟨fun h => h 0 w rfl, fun h i v hi => ?_⟩ Iff.rfl
  cases i with
  | zero => simpa using hi ▸ h
  | succ i => simp at hi

theorem holds_of_toList {rom : Array Word} {pre ws post : List Word}
    (h : rom.toList = pre ++ ws ++ post) : Holds rom pre.length ws := by
  intro i w hi
  have hlt : i < ws.length := (List.getElem?_eq_some_iff.1 hi).1
  rw [← Array.getElem?_toList, h, List.append_assoc, List.getElem?_append_right (by omega),
    Nat.add_sub_cancel_left, List.getElem?_append_left hlt]
  exact hi

variable {rom : Array Word}

theorem toNat_ofNat_of_getElem? {address : Nat} {w : Word} (hrom : rom.size ≤ 65536)
    (h : rom[address]? = some w) : (BitVec.ofNat 16 address).toNat = address := by
  have hlt : address < rom.size := (Array.getElem?_eq_some_iff.1 h).1
  rw [BitVec.toNat_ofNat]
  omega

theorem ofNat_add_one (address : Nat) :
    BitVec.ofNat 16 address + 1 = BitVec.ofNat 16 (address + 1) := by
  apply BitVec.eq_of_toNat_eq
  simp

theorem step_act {address : Nat} {i : Action} (hrom : rom.size ≤ 65536)
    (h : rom[address]? = some i.encode) (s : Data)
    (hcell : i.needsCell = true → s.a.toNat < s.ram.size) :
    (s.before address).step rom =
      some
        ⟨i.after (s.before address).registers s.ram,
          i.stored (s.before address).registers s.ram⟩ := by
  have hpc := toNat_ofNat_of_getElem? hrom h
  simp only [Core.step, Data.before, hpc, h]
  rw [execute_encode i _ _ hcell]

/-- An instruction that does not jump is executed with its effect, and the next one follows. -/
theorem step_op {address : Nat} {op : Op} {s t : Data} (hrom : rom.size ≤ 65536)
    (h : rom[address]? = some op.word) (hrun : op.run s = some t) :
    (s.before address).step rom = some (t.before (address + 1)) := by
  cases op with
  | load n =>
    simp only [Op.run, Option.some.injEq] at hrun
    subst hrun
    have hpc := toNat_ofNat_of_getElem? hrom h
    simp only [Core.step, Data.before, hpc, h, Op.word, execute_encodeLoad, ofNat_add_one]
  | act i =>
    simp only [Op.run] at hrun
    split at hrun
    · next hi =>
      rw [step_act hrom h s hi.2]
      simp only [Option.some.injEq] at hrun
      subst hrun
      simp only [Data.before, Action.after, Action.stored, Action.value, Action.jumps, hi.1,
        Bool.false_eq_true, if_false, ofNat_add_one]
    · simp at hrun

/-- The processor runs through straight code with the effect of this code. -/
theorem reaches_of_runOps {address : Nat} {ops : List Op} {s t : Data} (hrom : rom.size ≤ 65536)
    (h : Holds rom address (ops.map Op.word)) (hrun : runOps ops s = some t) :
    Core.Reaches rom (s.before address) (t.before (address + ops.length)) := by
  induction ops generalizing s address with
  | nil =>
    simp only [runOps, Option.some.injEq] at hrun
    subst hrun
    exact .refl _
  | cons op ops ih =>
    rw [List.map_cons, holds_cons] at h
    obtain ⟨u, hu, hrest⟩ := Option.bind_eq_some_iff.1 hrun
    refine .head (step_op hrom h.1 hu) ?_
    have := ih h.2 hrest
    rwa [show address + 1 + ops.length = address + (op :: ops).length by
      rw [List.length_cons]; omega] at this

theorem step_jump {address : Nat} (hrom : rom.size ≤ 65536) (s : Data)
    (h : rom[address]? = some
      ({ computation := .zero, jump := some .always } : Action).encode) :
    (s.before address).step rom = some (s.before s.a.toNat) := by
  have hstep := step_act hrom h s (by simp [Action.needsCell, Computation.usesMemory,
    Computation.operand?])
  refine hstep.trans ?_
  simp [Action.after, Action.stored, Action.jumps, Jump.holds, Data.before]

theorem reaches_jump {address : Nat} (hrom : rom.size ≤ 65536) (s : Data)
    (h : rom[address]? = some
      ({ computation := .zero, jump := some .always } : Action).encode) :
    Core.Reaches rom (s.before address) (s.before s.a.toNat) := .single (step_jump hrom s h)

/-- A jump on D goes to the address in A if D is as asked, and else on to the next instruction. -/
theorem reaches_jumpOnD {address : Nat} {j : Jump} (hrom : rom.size ≤ 65536) (s : Data)
    (h : rom[address]? = some ({ computation := .d, jump := some j } : Action).encode) :
    Core.Reaches rom (s.before address)
      (s.before (if j.holds s.d.signed then s.a.toNat else address + 1)) := by
  have hstep := step_act hrom h s (by simp [Action.needsCell, Computation.usesMemory,
    Computation.operand?])
  refine .single (hstep.trans ?_)
  have hnext := ofNat_add_one address
  cases hj : j.holds s.d.signed <;>
    simp_all [Action.after, Action.stored, Action.jumps, Action.value, Computation.eval,
      Data.before]

/-! ## A jump to itself -/

/-- At an address there are a load of the address and a jump, so that the processor does nothing but
come back to it. -/
structure Circle (rom : Array Word) (address : Nat) : Prop where
  fits : rom.size ≤ 32767
  load : rom[address]? = some (encodeLoad address)
  jump : rom[address + 1]? = some ({ computation := .zero, jump := some .always } : Action).encode

/-- The processor is at the load, or at the jump with the address in A. -/
def Core.Circles (s : Core) (address : Nat) : Prop :=
  s.registers.pc = BitVec.ofNat 16 address ∨
    s.registers.pc = BitVec.ofNat 16 (address + 1) ∧ s.registers.a = BitVec.ofNat 16 address

/-- The processor goes on in the circle and leaves the memory alone. -/
theorem Circle.step {address : Nat} {s : Core} (h : Circle rom address) (hs : s.Circles address) :
    ∃ t, s.step rom = some t ∧ t.Circles address ∧ t.ram = s.ram := by
  have hrom : rom.size ≤ 65536 := by
    have := h.fits
    omega
  have hlt : address < 32768 := by
    have := (Array.getElem?_eq_some_iff.1 h.load).1
    have := h.fits
    omega
  obtain ⟨⟨a, d, pc⟩, ram⟩ := s
  rcases hs with hpc | ⟨hpc, ha⟩
  · obtain rfl : pc = BitVec.ofNat 16 address := hpc
    have hword : rom[address]? = some (Op.load (address : Int)).word := h.load
    have hload : (Op.load (address : Int)).run ⟨a, d, ram⟩ =
        some ⟨encodeLoad address, d, ram⟩ := rfl
    have hstep := step_op hrom hword hload
    exact ⟨_, hstep, .inr ⟨rfl, encodeLoad_of_lt hlt⟩, rfl⟩
  · obtain rfl : pc = BitVec.ofNat 16 (address + 1) := hpc
    obtain rfl : a = BitVec.ofNat 16 address := ha
    have hback : BitVec.ofNat 16 (BitVec.ofNat 16 address).toNat = BitVec.ofNat 16 address := by
      rw [BitVec.ofNat_toNat, BitVec.setWidth_eq]
    exact ⟨_, step_jump hrom ⟨_, d, ram⟩ h.jump, .inl hback, rfl⟩

end HackToolchain.Machine
