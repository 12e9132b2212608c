import HackToolchain.Proofs.Vm.Stack

/-!
# Activations of functions

A function that is called works on a part of memory of its own: its arguments, its locals and the
stack above them. Commands that keep to it (`Activation.Permits`) leave the frames below alone, and
so do the functions that they call, however deep (`Program.Body.stands`). So a call, when it has
returned, has put its result in the place of its arguments and changed nothing else of its caller's
(`Program.Calls.returned`).
-/

set_option autoImplicit false

namespace HackToolchain.Vm

open Machine Codegen

/-! ## Commands that keep to an activation -/

/-- What a function has of its own: so many arguments, and so many locals. -/
structure Activation where
  arguments : Nat
  locals : Nat
  deriving Repr, DecidableEq

/-- The number of words that a command takes from the stack: the operands of an operator, the word
that is popped or returned, the arguments of a call. -/
def takenCount : Command → Nat
  | .arithmetic name => (Operator.ofName? name).elim 0 operandCount
  | .pop _ _ | .ifGoto _ | .return => 1
  | .call _ argumentCount => argumentCount.toNat
  | .push _ _ | .label _ | .goto _ | .function _ _ => 0

namespace Activation

variable (a : Activation)

/-- The cells that an activation may pop into: its locals and arguments, and the cells that are
nobody's. -/
def mayPop : Segment → Int → Prop
  | .locals, index => index < a.locals
  | .arguments, index => index < a.arguments
  | .temp, _ | .pointer, _ | .static, _ => True
  | _, _ => False

/-- So many words may be taken from the stack: none of them is one of the locals or lies below. -/
def MayTake (count : Nat) (ram : Ram) : Prop :=
  count = 0 ∨ (ram.get 1).toNat + a.locals + count ≤ (ram.get 0).toNat

/-- A command keeps to what the activation has of its own. -/
structure Permits (c : Command) (ram : Ram) : Prop where
  pops : ∀ name index segment, c = .pop name index → Segment.ofName? name = some segment →
    a.mayPop segment index
  takes : a.MayTake (takenCount c) ram

/-! ## Frames -/

/-- The cell at which the locals begin if the arguments begin at another: the return address and
four registers of the caller are saved in between. -/
def frame (base : Nat) : Nat := base + a.arguments + 5

/-- The cells that an activation leaves alone: the bases of its frame, the cells of the stack below
its arguments, and what is saved between the arguments and the locals. -/
def Guards (base c : Nat) : Prop :=
  c = 1 ∨ c = 2 ∨ 256 ≤ c ∧ c < base ∨ base + a.arguments ≤ c ∧ c < a.frame base

/-- An activation stands in memory: its arguments and locals begin where the registers say, and the
stack ends above the locals. -/
structure Stands (base : Nat) (ram : Ram) : Prop where
  arguments : ram.get 2 = BitVec.ofNat 16 base
  locals : ram.get 1 = BitVec.ofNat 16 (a.frame base)
  above : 256 ≤ base
  stack : ∃ sp, Stacked ram sp ∧ a.frame base + a.locals ≤ sp

end Activation

variable {a : Activation} {base sp : Nat} {ram ram₁ : Ram}

/-- An activation goes on standing while its frame is left alone and the stack ends above its
locals. -/
theorem Activation.Stands.of_changes (h : a.Stands base ram)
    (hc : Changes (fun c => ¬ a.Guards base c) ram ram₁) (hs : Stacked ram₁ sp)
    (hsp : a.frame base + a.locals ≤ sp) : a.Stands base ram₁ where
  arguments := (hc 2 fun hn => hn (.inr (.inl rfl))).trans h.arguments
  locals := (hc 1 fun hn => hn (.inl rfl)).trans h.locals
  above := h.above
  stack := ⟨sp, hs, hsp⟩

/-- Where the stack of a standing activation ends, and that its words may be taken down to its
locals. -/
theorem Activation.Stands.exists_stacked (h : a.Stands base ram) {count : Nat}
    (ht : a.MayTake count ram) :
    ∃ low, Stacked ram (low + count) ∧ a.frame base + a.locals ≤ low := by
  obtain ⟨sp, hs, hsp⟩ := h.stack
  have hbelow := hs.below
  rcases ht with rfl | ht
  · exact ⟨sp, hs, hsp⟩
  · rw [h.locals, hs.toNat, toNat_ofNat_of_le (by omega)] at ht
    exact ⟨sp - count, by rwa [Nat.sub_add_cancel (by omega)], by omega⟩

theorem Activation.not_guards_of_le {c : Nat} (hb : 256 ≤ base) (h : a.frame base ≤ c) :
    ¬ a.Guards base c := by
  unfold Activation.Guards Activation.frame at *
  omega

theorem Activation.not_guards_zero (hb : 256 ≤ base) : ¬ a.Guards base 0 := by
  unfold Activation.Guards Activation.frame
  omega

/-- A command that changes the stack above the locals alone leaves the frame alone. -/
theorem Activation.Stands.of_stack {low : Nat} (hs : a.Stands base ram) (h₁ : Stacked ram₁ sp)
    (hlow : a.frame base + a.locals ≤ low) (hsp : low ≤ sp)
    (hc : Changes (fun c => c = 0 ∨ low ≤ c) ram ram₁) :
    a.Stands base ram₁ ∧ Changes (fun c => ¬ a.Guards base c) ram ram₁ := by
  have hc : Changes (fun c => ¬ a.Guards base c) ram ram₁ := by
    refine hc.mono ?_
    rintro c (rfl | hc)
    · exact Activation.not_guards_zero hs.above
    · exact Activation.not_guards_of_le hs.above (by omega)
  exact ⟨hs.of_changes hc h₁ (by omega), hc⟩

/-! ## Programs -/

namespace Program

/-- A program whose commands mean what they say: it goes on behind a call where it returns to, its
pops have indices in the range of their segments, and static variables lie between the registers and
the stack. -/
structure Sound (p : Program) : Prop where
  returns : ∀ i module name argumentCount,
    p.tasks[i]? = some ⟨module, .command (.call name argumentCount)⟩ →
      p.taskAt? (BitVec.ofNat 16 (p.address (i + 1))) = some (i + 1)
  pops : ∀ module name index segment, ⟨module, .command (.pop name index)⟩ ∈ p.tasks →
    Segment.ofName? name = some segment → 0 ≤ index ∧ index ≤ segment.limit
  statics : ∀ module name index cell, ⟨module, .command (.pop name index)⟩ ∈ p.tasks →
    Segment.ofName? name = some .static → p.cell module index = some cell → 16 ≤ cell ∧ cell ≤ 255

/-- A call leads into a function, up to the first command of its body. -/
inductive Enters (p : Program) : Activation → State → State → Prop
  | intro {s t u : State} {module module' : Option String} {name name' : String}
      {arguments locals : Nat}
      (call : p.tasks[s.next]? = some ⟨module, .command (.call name arguments)⟩)
      (enter : p.step .shown s = .ok t)
      (function : p.tasks[t.next]? = some ⟨module', .command (.function name' locals)⟩)
      (begins : p.step .shown t = .ok u) : Enters p ⟨arguments, locals⟩ s u

/-- An activation returns. -/
structure Returns (p : Program) (a : Activation) (s t : State) : Prop where
  command : ∃ module, p.tasks[s.next]? = some ⟨module, .command .return⟩
  permitted : a.Permits .return s.ram
  step : p.step .shown s = .ok t

/-- The commands of an activation, done one after the other; a call is done with all that the
function does until it has returned. Every command keeps to the activation that it is done in. -/
inductive Body (p : Program) : Activation → State → State → Prop
  | nil (a : Activation) (s : State) : Body p a s s
  | plain {a : Activation} {s t u : State} {module : Option String} {c : Command}
      (command : p.tasks[s.next]? = some ⟨module, .command c⟩)
      (plain : c ≠ .return ∧ ∀ name argumentCount, c ≠ .call name argumentCount)
      (permitted : a.Permits c s.ram) (step : p.step .shown s = .ok t) (rest : Body p a t u) :
      Body p a s u
  | call {a inner : Activation} {s t u v w : State} (taken : a.MayTake inner.arguments s.ram)
      (enters : p.Enters inner s t) (body : Body p inner t u) (returns : p.Returns inner u v)
      (rest : Body p a v w) : Body p a s w

/-- A call with so many arguments, up to its return. -/
def Calls (p : Program) (arguments : Nat) (s t : State) : Prop :=
  ∃ locals u v, p.Enters ⟨arguments, locals⟩ s u ∧ p.Body ⟨arguments, locals⟩ u v ∧
    p.Returns ⟨arguments, locals⟩ v t

variable {p : Program} {a inner : Activation} {s t u v : State} {module : Option String}
  {base sp : Nat} {ram ram₁ : Ram}

/-! ## One command -/

theorem toNat_add_index {start index : Nat} (h : start + index ≤ 32768) :
    (BitVec.ofNat 16 start + Word.ofInt index).toNat = start + index := by
  rw [ofNat_add_ofInt, toNat_ofNat_of_le h]

/-- The address at an index of a segment whose base is in a register. -/
theorem toNat_based {register x : Word} {start index : Nat}
    (hstart : ram.get register.toNat = BitVec.ofNat 16 start) (h : start + index ≤ 32768)
    (hx : (do return (← load .shown register ram) + Word.ofInt index) = .ok x) :
    x.toNat = start + index := by
  obtain ⟨y, hy, hxy⟩ := bind_eq_ok.1 hx
  obtain ⟨-, -, rfl⟩ := load_eq_ok.1 hy
  obtain rfl := Except.ok.inj hxy
  rw [hstart, toNat_add_index h]

/-- An address that may be popped into is the stack pointer's no more than a cell that is left
alone. -/
theorem Sound.addressOf (hp : p.Sound) {name : String} {index : Int} {segment : Segment} {x : Word}
    (hmem : ⟨module, .command (.pop name index)⟩ ∈ p.tasks)
    (hname : Segment.ofName? name = some segment) (hs : a.Stands base ram)
    (hpop : a.mayPop segment index)
    (hx : Vm.addressOf .shown (p.cell module index) segment index ram = .ok x) :
    x.toNat ≠ 0 ∧ ¬ a.Guards base x.toNat := by
  obtain ⟨h0, hlimit⟩ := hp.pops module name index segment hmem hname
  obtain ⟨n, rfl⟩ := Int.eq_ofNat_of_zero_le h0
  obtain ⟨sp, hstack, hsp⟩ := hs.stack
  have hbelow := hstack.below
  have habove := hs.above
  unfold Activation.Guards
  unfold Activation.frame at *
  cases segment with
  | locals =>
    simp only [Activation.mayPop] at hpop
    have hlocals : ram.get 1 = BitVec.ofNat 16 (base + a.arguments + 5) := hs.locals
    have hx := toNat_based hlocals (by omega) hx
    omega
  | arguments =>
    simp only [Activation.mayPop] at hpop
    have hx := toNat_based hs.arguments (by omega) hx
    omega
  | pointer =>
    obtain rfl := Except.ok.inj hx
    simp only [Segment.limit] at hlimit
    have hx : (3 + Word.ofInt (n : Int)).toNat = 3 + n := @toNat_add_index 3 n (by omega)
    omega
  | temp =>
    obtain rfl := Except.ok.inj hx
    simp only [Segment.limit] at hlimit
    have hx : (5 + Word.ofInt (n : Int)).toNat = 5 + n := @toNat_add_index 5 n (by omega)
    omega
  | static =>
    cases hc : p.cell module n with
    | none => simp [Vm.addressOf, hc] at hx
    | some cell =>
      obtain ⟨hlow, hhigh⟩ := hp.statics module name n cell hmem hname hc
      obtain ⟨m, rfl⟩ := Int.eq_ofNat_of_zero_le (by omega : 0 ≤ cell)
      simp only [Vm.addressOf, hc] at hx
      rw [if_pos ⟨by omega, by rw [memoryWords]; omega⟩] at hx
      obtain rfl := Except.ok.inj hx
      rw [Word.ofInt, BitVec.ofInt_natCast, toNat_ofNat_of_le (by omega)]
      omega
  | constant => exact absurd hpop (by simp [Activation.mayPop])
  | this => exact absurd hpop (by simp [Activation.mayPop])
  | that => exact absurd hpop (by simp [Activation.mayPop])

theorem Sound.pop (hp : p.Sound) {name : String} {index : Int} {segment : Segment} {low : Nat}
    (hmem : ⟨module, .command (.pop name index)⟩ ∈ p.tasks)
    (hname : Segment.ofName? name = some segment) (hs : a.Stands base ram)
    (hpop : a.mayPop segment index) (hstack : Stacked ram (low + 1))
    (hlow : a.frame base + a.locals ≤ low)
    (h : popInto .shown (p.cell module index) segment index ram = .ok ram₁) :
    a.Stands base ram₁ ∧ Changes (fun c => ¬ a.Guards base c) ram ram₁ := by
  have habove := hs.above
  have h256 : 256 ≤ low := by
    unfold Activation.frame at hlow
    omega
  obtain ⟨x, hx, heffect⟩ := hstack.popInto h256 h
  obtain ⟨hne, hguards⟩ := hp.addressOf hmem hname hs hpop hx
  obtain ⟨h₁, hc⟩ := heffect hne
  have hc : Changes (fun c => ¬ a.Guards base c) ram ram₁ := by
    refine hc.mono ?_
    rintro c (rfl | rfl | rfl)
    · exact Activation.not_guards_zero habove
    · unfold Activation.Guards Activation.frame
      omega
    · exact hguards
  exact ⟨hs.of_changes hc h₁ hlow, hc⟩

theorem Sound.plain (hp : p.Sound) {c : Command}
    (command : p.tasks[s.next]? = some ⟨module, .command c⟩)
    (plain : c ≠ .return ∧ ∀ name argumentCount, c ≠ .call name argumentCount)
    (permitted : a.Permits c s.ram) (hs : a.Stands base s.ram) (step : p.step .shown s = .ok t) :
    a.Stands base t.ram ∧ Changes (fun c => ¬ a.Guards base c) s.ram t.ram := by
  have hmem := List.mem_of_getElem? command
  obtain ⟨low, hstack, hlow⟩ := hs.exists_stacked permitted.takes
  have h256 : 256 ≤ low := by
    have := hs.above
    unfold Activation.frame at hlow
    omega
  -- What a command takes lies above the locals, so that a push, an operator and a jump change cells
  -- from `low` on; only a pop may change a cell below.
  have hsame : Changes (fun c => ¬ a.Guards base c) s.ram s.ram := Changes.refl _ _
  simp only [Program.step, command] at step
  cases c with
  | arithmetic name =>
    simp only [perform] at step
    cases hop : Operator.ofName? name with
    | none => simp [hop] at step
    | some op =>
      simp only [hop, map_eq_ok] at step
      obtain ⟨ram₁, ho, rfl⟩ := step
      simp only [takenCount, hop, Option.elim_some] at hstack
      obtain ⟨h₁, hc⟩ := hstack.operate h256 ho
      exact hs.of_stack h₁ hlow (by omega) (hc.mono fun c hc => by omega)
  | push name index =>
    simp only [perform] at step
    cases hsegment : Segment.ofName? name with
    | none => simp [hsegment] at step
    | some segment =>
      simp only [hsegment, map_eq_ok] at step
      obtain ⟨ram₁, hpush, rfl⟩ := step
      obtain ⟨h₁, hc⟩ := (show Stacked s.ram low from hstack).pushFrom hpush
      exact hs.of_stack h₁ hlow (by omega) (hc.mono fun c hc => by omega)
  | pop name index =>
    simp only [perform] at step
    cases hsegment : Segment.ofName? name with
    | none => simp [hsegment] at step
    | some segment =>
      simp only [hsegment, map_eq_ok] at step
      obtain ⟨ram₁, hpop, rfl⟩ := step
      have hmay := permitted.pops name index segment rfl hsegment
      exact hp.pop hmem hsegment hs hmay hstack hlow hpop
  | label name =>
    obtain rfl := Except.ok.inj step
    exact ⟨hs, hsame⟩
  | goto name =>
    simp only [perform] at step
    obtain ⟨i, -, rfl⟩ := goTo_eq_ok.1 step
    exact ⟨hs, hsame⟩
  | ifGoto name =>
    simp only [perform, bind_eq_ok] at step
    obtain ⟨⟨x, ram₁⟩, hpop, step⟩ := step
    obtain ⟨h₁, -, hc⟩ := (show Stacked s.ram (low + 1) from hstack).pop h256 hpop
    have hafter := hs.of_stack h₁ hlow (Nat.le_refl low) (hc.mono fun c hc => .inl hc)
    have hram : t.ram = ram₁ := by
      by_cases hx : x = 0
      · simp only [hx, if_true] at step
        obtain rfl := Except.ok.inj step
        rfl
      · simp only [hx, if_false] at step
        obtain ⟨i, -, rfl⟩ := goTo_eq_ok.1 step
        rfl
    rw [hram]
    exact hafter
  | function name localCount =>
    simp only [perform, map_eq_ok] at step
    obtain ⟨ram₁, hclear, rfl⟩ := step
    obtain ⟨h₁, hc⟩ := (show Stacked s.ram low from hstack).clearLocals hclear
    exact hs.of_stack h₁ hlow (by omega) hc
  | call name argumentCount => exact absurd rfl (plain.2 name argumentCount)
  | «return» => exact absurd rfl plain.1

/-! ## Calls -/

/-- Entering a function leaves the stack below alone; the function stands on it, with the return
address and the registers of the caller saved. -/
theorem Enters.stands (h : p.Enters a s t) (hs : Stacked s.ram sp) (ha : 256 + a.arguments ≤ sp) :
    a.Stands (sp - a.arguments) t.ram ∧ (∀ c, 256 ≤ c → c < sp → t.ram.get c = s.ram.get c) ∧
      t.ram.get sp = BitVec.ofNat 16 (p.address (s.next + 1)) ∧
      ∀ i < 4, t.ram.get (sp + 1 + i) = s.ram.get (1 + i) := by
  obtain ⟨hcall, henter, hfunction, hbegins⟩ := h
  simp only [Program.step, hcall, perform, Program.call, bind_eq_ok] at henter
  obtain ⟨ram₁, henter, hgo⟩ := henter
  simp only [Program.step, hfunction, perform, map_eq_ok, Int.toNat_natCast] at hbegins
  obtain ⟨ram₂, hclear, rfl⟩ := hbegins
  obtain ⟨h₁, hc₁, hlocals, harguments, hreturn, hsaved⟩ := hs.enter ha henter
  obtain ⟨i, -, rfl⟩ := goTo_eq_ok.1 hgo
  obtain ⟨h₂, hc₂⟩ := h₁.clearLocals hclear
  simp only at ha ⊢
  have habove := hs.above
  refine ⟨⟨?_, ?_, by omega, _, h₂, ?_⟩, ?_, ?_, ?_⟩
  · rw [hc₂ 2 (by omega), harguments]
  · rw [hc₂ 1 (by omega), hlocals, Activation.frame, Nat.sub_add_cancel (by omega)]
  · rw [Activation.frame, Nat.sub_add_cancel (by omega)]
  · intro c hc hcsp
    rw [hc₂ c (by omega), hc₁ c (by omega)]
  · rw [hc₂ sp (by omega), hreturn]
  · intro i hi
    rw [hc₂ _ (by omega), hsaved i hi]

/-- Returning puts the result in the place of the arguments, gives the registers back, and goes to
the return address. -/
theorem Returns.effect (h : p.Returns a s t) (hs : a.Stands base s.ram) :
    p.taskAt? (s.ram.get (base + a.arguments)) = some t.next ∧ Stacked t.ram (base + 1) ∧
      Changes (fun c => c < 256 ∨ c = base) s.ram t.ram ∧
      ∀ i < 4, t.ram.get (1 + i) = s.ram.get (base + a.arguments + 1 + i) := by
  obtain ⟨module, hcommand⟩ := h.command
  have hstep := h.step
  simp only [Program.step, hcommand, perform, bind_eq_ok] at hstep
  obtain ⟨⟨x, ram₁⟩, hleave, hstep⟩ := hstep
  obtain ⟨low, hstack, hlow⟩ := hs.exists_stacked h.permitted.takes
  have hframe := hs.locals
  unfold Activation.frame at hlow hframe
  have habove := hs.above
  obtain ⟨rfl, h₁, hc, hback⟩ := (show Stacked s.ram (low + 1) from hstack).leave hframe
    hs.arguments habove
    (by omega) (by omega) hleave
  rw [Nat.add_sub_cancel] at hstep
  cases hplace : p.taskAt? (s.ram.get (base + a.arguments)) with
  | none => simp [hplace] at hstep
  | some i =>
    rw [hplace] at hstep
    obtain rfl := Except.ok.inj hstep
    exact ⟨rfl, h₁, hc, hback⟩

/-- What a call with so many arguments has done when it has returned: the program goes on behind it,
the result has taken the place of the arguments, the registers of the caller are as they were, and
so is the stack below the arguments. -/
structure Returned (arguments sp : Nat) (s t : State) : Prop where
  next : t.next = s.next + 1
  stacked : Stacked t.ram (sp - arguments + 1)
  registers : ∀ i < 4, t.ram.get (1 + i) = s.ram.get (1 + i)
  cells : ∀ c, 256 ≤ c → c < sp - arguments → t.ram.get c = s.ram.get c

/-- A call does its work if the body of the function leaves its frame alone. -/
theorem Sound.returned (hp : p.Sound) (henters : p.Enters a s t) (hreturns : p.Returns a u v)
    (hs : Stacked s.ram sp) (ha : 256 + a.arguments ≤ sp)
    (hbody : ∀ base, a.Stands base t.ram → a.Stands base u.ram ∧
      Changes (fun c => ¬ a.Guards base c) t.ram u.ram) : Returned a.arguments sp s v := by
  obtain ⟨hstands, hkept, hreturn, hsaved⟩ := henters.stands hs ha
  obtain ⟨hstands', hchanges⟩ := hbody _ hstands
  obtain ⟨hnext, hstack, hchanges', hback⟩ := hreturns.effect hstands'
  rw [Nat.sub_add_cancel (by omega)] at hnext hback
  have hguards (c : Nat) (h : a.Guards (sp - a.arguments) c) : u.ram.get c = t.ram.get c :=
    hchanges c fun hn => hn h
  unfold Activation.Guards Activation.frame at hguards
  -- The return address and the saved registers are among the cells that the body leaves alone.
  refine ⟨?_, hstack, fun i hi => ?_, fun c hc hlt => ?_⟩
  · obtain ⟨hcall, -, -, -⟩ := henters
    rw [hguards sp (by omega), hreturn, hp.returns _ _ _ _ hcall] at hnext
    exact (Option.some.inj hnext).symm
  · rw [hback i hi, hguards _ (by omega), hsaved i hi]
  · rw [hchanges' c (by omega), hguards c (by omega), hkept c hc (by omega)]

/-- The commands of an activation, with all the calls among them, leave its frame alone. -/
theorem Body.stands (hp : p.Sound) (h : p.Body a s t) (base : Nat) (hs : a.Stands base s.ram) :
    a.Stands base t.ram ∧ Changes (fun c => ¬ a.Guards base c) s.ram t.ram := by
  -- Over the commands of the body, with the bodies of the functions it calls. A call asks the same
  -- of another frame, the one of the function, so the place of the frame varies.
  induction h generalizing base with
  | nil a s => exact ⟨hs, Changes.refl _ _⟩
  | plain command plain permitted step rest ih =>
    obtain ⟨hs₁, hc₁⟩ := hp.plain command plain permitted hs step
    obtain ⟨hs₂, hc₂⟩ := ih base hs₁
    exact ⟨hs₂, hc₁.trans hc₂⟩
  | @call a inner s t u v w taken enters body returns rest ihbody ihrest =>
    obtain ⟨low, hstack, hlow⟩ := hs.exists_stacked taken
    have habove := hs.above
    have h256 : 256 + inner.arguments ≤ low + inner.arguments := by
      unfold Activation.frame at hlow
      omega
    have hreturned := hp.returned enters returns hstack h256 ihbody
    have hregisters := hreturned.registers
    have hcells := hreturned.cells
    have hstacked := hreturned.stacked
    rw [Nat.add_sub_cancel] at hcells hstacked
    -- The function gives the registers back, and the frame lies below the arguments it was given.
    have hc₁ : Changes (fun c => ¬ a.Guards base c) s.ram v.ram := by
      intro c hc
      rw [not_not] at hc
      rcases hc with rfl | rfl | ⟨hc, hlt⟩ | ⟨hc, hlt⟩
      · exact hregisters 0 (by omega)
      · exact hregisters 1 (by omega)
      · exact hcells c hc (by unfold Activation.frame at hlow; omega)
      · exact hcells c (by omega) (by omega)
    obtain ⟨hs₂, hc₂⟩ := ihrest base (hs.of_changes hc₁ hstacked (by omega))
    exact ⟨hs₂, hc₁.trans hc₂⟩

/-- A call whose arguments lie on the stack does its work, whatever is called in between. -/
theorem Calls.returned (hp : p.Sound) {arguments : Nat} (h : p.Calls arguments s t)
    (hs : Stacked s.ram sp) (ha : 256 + arguments ≤ sp) : Returned arguments sp s t := by
  obtain ⟨locals, u, v, henters, hbody, hreturns⟩ := h
  exact hp.returned henters hreturns hs ha fun base hstands => hbody.stands hp base hstands

/-! ## Runs -/

theorem run_add {v : Notes} {m n : Nat} (h : p.run v m s = .ok t) (k : p.run v n t = .ok u) :
    p.run v (m + n) s = .ok u := by
  induction m generalizing s with
  | zero =>
    obtain rfl := Except.ok.inj h
    rwa [Nat.zero_add]
  | succ m ih =>
    obtain ⟨s₁, hstep, hrun⟩ := bind_eq_ok.1 h
    rw [Nat.add_right_comm, run, bind_eq_ok]
    exact ⟨s₁, hstep, ih hrun⟩

theorem run_one {v : Notes} (h : p.step v s = .ok t) : p.run v 1 s = .ok t := by
  simp only [run, bind_eq_ok]
  exact ⟨t, h, rfl⟩

theorem Enters.run (h : p.Enters a s t) : p.run .shown 2 s = .ok t := by
  obtain ⟨-, henter, -, hbegins⟩ := h
  exact run_add (run_one henter) (run_one hbegins)

theorem Body.exists_run (h : p.Body a s t) : ∃ n, p.run .shown n s = .ok t := by
  induction h with
  | nil a s => exact ⟨0, rfl⟩
  | plain command plain permitted step rest ih =>
    obtain ⟨n, hn⟩ := ih
    exact ⟨1 + n, run_add (run_one step) hn⟩
  | call taken enters body returns rest ihbody ihrest =>
    obtain ⟨m, hm⟩ := ihbody
    obtain ⟨n, hn⟩ := ihrest
    exact ⟨2 + m + 1 + n,
      run_add (run_add (run_add enters.run hm) (run_one returns.step)) hn⟩

/-- A call up to its return is a run of the stack machine. -/
theorem Calls.exists_run {arguments : Nat} (h : p.Calls arguments s t) :
    ∃ n, p.run .shown n s = .ok t := by
  obtain ⟨locals, u, v, henters, hbody, hreturns⟩ := h
  obtain ⟨n, hn⟩ := hbody.exists_run
  exact ⟨2 + n + 1, run_add (run_add henters.run hn) (run_one hreturns.step)⟩

theorem Enters.lt (h : p.Enters a s t) : (s.ram.get 0).toNat < s.ram.size := by
  obtain ⟨hcall, henter, -, -⟩ := h
  simp only [Program.step, hcall, perform, Program.call, Vm.enter, Vm.push, bind_eq_ok] at henter
  obtain ⟨_, ⟨_, ⟨x, hx, _, hstore, _⟩, _⟩, _⟩ := henter
  obtain ⟨-, -, rfl⟩ := load_eq_ok.1 hx
  exact (store_eq_ok.1 hstore).2.1

theorem Calls.stacked {arguments : Nat} (h : p.Calls arguments s t)
    (hsize : s.ram.size = memoryWords) (ha : 256 ≤ (s.ram.get 0).toNat) :
    Stacked s.ram (s.ram.get 0).toNat := by
  obtain ⟨locals, u, v, henters, -, -⟩ := h
  have hlt := henters.lt
  rw [hsize, memoryWords] at hlt
  exact ⟨hsize, by simp, ha, by omega⟩

/-- A call of a function that does nothing before it pushes a number and returns. -/
theorem exists_calls_constant {i j k : Nat} {m₁ m₂ m₃ m₄ : Option String} {name name' : String}
    {n : Int} (hs : Stacked ram sp) (hsp : sp ≤ 30000)
    (hcall : p.tasks[i]? = some ⟨m₁, .command (.call name 0)⟩) (hplace : p.entry? name = some j)
    (hfunction : p.tasks[j]? = some ⟨m₂, .command (.function name' 0)⟩)
    (hskip : ∀ ram t, p.Body ⟨0, 0⟩ ⟨k, ram⟩ t → p.Body ⟨0, 0⟩ ⟨j + 1, ram⟩ t)
    (hpush : p.tasks[k]? = some ⟨m₃, .command (.push "constant" n)⟩)
    (hreturn : p.tasks[k + 1]? = some ⟨m₄, .command .return⟩)
    (hback : p.taskAt? (BitVec.ofNat 16 (p.address (i + 1))) = some (i + 1)) :
    ∃ t, p.Calls 0 ⟨i, ram⟩ t := by
  have habove := hs.above
  obtain ⟨ram₁, henter, h₁, hframe, hbase, hplaced, -, -⟩ := hs.endsAt.enter 0
    (by omega) (by omega) (by omega) (BitVec.ofNat 16 (p.address (i + 1)))
  obtain ⟨ram₂, ram₃, hpushed, hleave, htaken, -⟩ :=
    h₁.exists_push_leave hframe hbase (by omega) (by omega) (Word.ofInt n)
  rw [hplaced] at hleave
  have hcalled : p.step .shown ⟨i, ram⟩ = .ok ⟨j, ram₁⟩ := by
    simp only [step, hcall]
    exact bind_eq_ok.2 ⟨ram₁, henter, by rw [hplace]; rfl⟩
  have hbegun : p.step .shown ⟨j, ram₁⟩ = .ok ⟨j + 1, ram₁⟩ := by
    simp only [step, hfunction]
    rfl
  have hgone : p.step .shown ⟨k, ram₁⟩ = .ok ⟨k + 1, ram₂⟩ := by
    simp only [step, hpush]
    exact map_eq_ok.2 ⟨ram₂, hpushed, rfl⟩
  have hreturned : p.step .shown ⟨k + 1, ram₂⟩ = .ok ⟨i + 1, ram₃⟩ := by
    simp only [step, hreturn]
    exact bind_eq_ok.2 ⟨(_, ram₃), hleave, by simp only [hback]; rfl⟩
  refine ⟨⟨i + 1, ram₃⟩, 0, ⟨j + 1, ram₁⟩, ⟨k + 1, ram₂⟩, ?_, ?_, ?_⟩
  · exact .intro hcall hcalled hfunction hbegun
  · exact hskip _ _ (.plain hpush (by simp) ⟨by simp, .inl rfl⟩ hgone (.nil _ _))
  · exact ⟨⟨_, hreturn⟩, ⟨by simp, .inr htaken⟩, hreturned⟩

end Program

end HackToolchain.Vm
