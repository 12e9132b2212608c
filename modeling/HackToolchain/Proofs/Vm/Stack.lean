import HackToolchain.Proofs.Vm.Effects

/-!
# What commands do to a stack

The stack pointer as a number that is behind the cells of registers and variables (`Stacked`), and
for each operation of the stack machine that succeeds where the stack ends afterwards and which
cells may have changed. An operation can succeed only where there is room for it.
-/

set_option autoImplicit false

namespace HackToolchain.Vm

open Machine

/-- A full memory whose stack ends below a cell, behind the cells of registers and variables. -/
structure Stacked (ram : Ram) (sp : Nat) : Prop where
  size : ram.size = memoryWords
  pointer : ram.get 0 = BitVec.ofNat 16 sp
  above : 256 ≤ sp
  below : sp ≤ 32768

variable {ram ram₁ : Ram} {sp : Nat} {x : Word}

theorem Stacked.endsAt (h : Stacked ram sp) : EndsAt ram sp := ⟨h.size, h.pointer, h.below⟩

theorem EndsAt.stacked (h : EndsAt ram sp) (ha : 256 ≤ sp) : Stacked ram sp :=
  ⟨h.size, h.pointer, ha, h.below⟩

theorem Stacked.toNat (h : Stacked ram sp) : (ram.get 0).toNat = sp := h.endsAt.toNat

/-- In a memory with nothing in it but the stack pointer the stack begins there. -/
theorem exists_stacked {sp : Nat} (h : 256 ≤ sp) (hb : sp ≤ 32768) : ∃ ram, Stacked ram sp :=
  ⟨(Ram.zeros memoryWords).set 0 (BitVec.ofNat 16 sp), (Ram.size_set ..).trans (size_zeros _),
    get_set_self (size_zeros _) (by decide) _, h, hb⟩

/-! ## Pushing and popping -/

/-- A push stores a word where the stack ends, and the stack is one cell longer then. -/
theorem Stacked.push (h : Stacked ram sp) (hp : push .shown x ram = .ok ram₁) :
    Stacked ram₁ (sp + 1) ∧ ram₁.get sp = x ∧ Changes (fun c => c = 0 ∨ c = sp) ram ram₁ := by
  have habove := h.above
  obtain ⟨ram₂, hp', h₁, hget, hc⟩ := h.endsAt.push (by omega) (h.endsAt.lt_of_push hp) x
  obtain rfl := Except.ok.inj (hp.symm.trans hp')
  exact ⟨h₁.stacked (by omega), hget, hc⟩

/-- A pop takes the word below the stack's end, and the stack is one cell shorter then. -/
theorem Stacked.pop (h : Stacked ram (sp + 1)) (hsp : 256 ≤ sp)
    (hp : pop .shown ram = .ok (x, ram₁)) :
    Stacked ram₁ sp ∧ x = ram.get sp ∧ Changes (· = 0) ram ram₁ := by
  obtain ⟨ram₂, hp', h₁, hc⟩ := h.endsAt.pop (by omega)
  obtain ⟨rfl, rfl⟩ := Prod.mk.inj (Except.ok.inj (hp.symm.trans hp'))
  exact ⟨h₁.stacked hsp, rfl, hc⟩

/-! ## Operators and segments -/

theorem Stacked.operate {op : Operator} (h : Stacked ram (sp + operandCount op)) (hsp : 256 ≤ sp)
    (ho : operate .shown op ram = .ok ram₁) :
    Stacked ram₁ (sp + 1) ∧ Changes (fun c => c = 0 ∨ c = sp) ram ram₁ := by
  obtain ⟨ram₂, ho', h₁, -, hc⟩ := h.endsAt.operate (by omega)
  obtain rfl := Except.ok.inj (ho.symm.trans ho')
  exact ⟨h₁.stacked (by omega), hc⟩

theorem Stacked.pushFrom {cell : Option Int} {segment : Segment} {index : Int} (h : Stacked ram sp)
    (hp : pushFrom .shown cell segment index ram = .ok ram₁) :
    Stacked ram₁ (sp + 1) ∧ Changes (fun c => c = 0 ∨ c = sp) ram ram₁ := by
  unfold Vm.pushFrom at hp
  split at hp
  · obtain ⟨h₁, -, hc⟩ := h.push hp
    exact ⟨h₁, hc⟩
  · obtain ⟨a, -, hp⟩ := bind_eq_ok.1 hp
    obtain ⟨y, -, hp⟩ := bind_eq_ok.1 hp
    obtain ⟨h₁, -, hc⟩ := h.push hp
    exact ⟨h₁, hc⟩

/-- A pop into a segment changes the cell at the address that it had before. -/
theorem Stacked.popInto {cell : Option Int} {segment : Segment} {index : Int}
    (h : Stacked ram (sp + 1)) (hsp : 256 ≤ sp)
    (hp : popInto .shown cell segment index ram = .ok ram₁) :
    ∃ a, addressOf .shown cell segment index ram = .ok a ∧ (a.toNat ≠ 0 →
      Stacked ram₁ sp ∧ Changes (fun c => c = 0 ∨ c = 13 ∨ c = a.toNat) ram ram₁) := by
  have hopened := hp
  simp only [Vm.popInto, bind_eq_ok] at hopened
  obtain ⟨a, ha, ⟨y, ram₂⟩, hpop, hstore⟩ := hopened
  refine ⟨a, ha, fun hne => ?_⟩
  have hsize : (if segment = .static then ram else note .shown 13 a ram).size = memoryWords := by
    split
    · exact h.size
    · exact (Ram.size_set ..).trans h.size
  obtain ⟨-, hlt, -⟩ := store_eq_ok.1 hstore
  rw [size_pop hpop, hsize] at hlt
  obtain ⟨ram₃, hp', h₁, -, hc⟩ := h.endsAt.popInto (by omega) ha hne hlt
  obtain rfl := Except.ok.inj (hp.symm.trans hp')
  exact ⟨h₁.stacked hsp, hc.mono fun c hc => by omega⟩

/-! ## Functions -/

theorem Stacked.clearLocals {count : Nat} (h : Stacked ram sp)
    (hc : clearLocals .shown count ram = .ok ram₁) :
    Stacked ram₁ (sp + count) ∧ Changes (fun c => c = 0 ∨ sp ≤ c) ram ram₁ := by
  induction count generalizing ram sp with
  | zero =>
    obtain rfl := Except.ok.inj hc
    exact ⟨h, Changes.refl _ _⟩
  | succ count ih =>
    obtain ⟨ram₂, hpush, hrest⟩ := bind_eq_ok.1 hc
    obtain ⟨h₂, -, hc₂⟩ := h.push hpush
    obtain ⟨h₁, hc₁⟩ := ih h₂ hrest
    rw [Nat.add_right_comm] at h₁
    refine ⟨h₁, (hc₂.mono fun c hc => ?_).trans (hc₁.mono fun c hc => ?_)⟩
    · omega
    · omega

/-- Registers are saved only where there is room. -/
theorem EndsAt.le_of_save {registers : List Word} (h : EndsAt ram sp) (h0 : 0 < sp)
    (hs : Vm.save .shown registers ram = .ok ram₁) : sp + registers.length ≤ 32768 := by
  induction registers generalizing ram sp with
  | nil => exact h.below
  | cons r rest ih =>
    simp only [Vm.save, bind_eq_ok] at hs
    obtain ⟨x, -, ram₂, hpush, hs⟩ := hs
    obtain ⟨_, hpush', h₂, -⟩ := h.push h0 (h.lt_of_push hpush) x
    obtain rfl := Except.ok.inj (hpush.symm.trans hpush')
    have := ih h₂ (by omega) hs
    rw [List.length_cons]
    omega

/-- Entering a function leaves the return address and the registers of the caller on the stack,
points at the arguments below them, and lets the locals begin above. -/
theorem Stacked.enter {returnAddress : Word} {arguments : Nat} (h : Stacked ram sp)
    (ha : 256 + arguments ≤ sp) (he : enter .shown returnAddress arguments ram = .ok ram₁) :
    Stacked ram₁ (sp + 5) ∧ Changes (fun c => c ≤ 2 ∨ sp ≤ c) ram ram₁ ∧
      ram₁.get 1 = BitVec.ofNat 16 (sp + 5) ∧ ram₁.get 2 = BitVec.ofNat 16 (sp - arguments) ∧
      ram₁.get sp = returnAddress ∧ ∀ i < 4, ram₁.get (sp + 1 + i) = ram.get (1 + i) := by
  have hroom : sp + 5 ≤ 32768 := by
    simp only [Vm.enter, bind_eq_ok] at he
    obtain ⟨ram₂, hpush, ram₃, hsave, -⟩ := he
    obtain ⟨h₂, -, -⟩ := h.push hpush
    exact h₂.endsAt.le_of_save (Nat.succ_pos sp) hsave
  obtain ⟨ram₂, he', h₁, hframe, hbase, hreturn, hsaved, hc⟩ :=
    h.endsAt.enter arguments (by omega) (by omega) hroom returnAddress
  obtain rfl := Except.ok.inj (he.symm.trans he')
  exact ⟨h₁.stacked (by omega), hc.mono fun c hc => by omega, hframe, hbase, hreturn, hsaved⟩

/-- Leaving a function puts the result where the arguments begin, ends the stack behind it, and
gives the caller its registers back. -/
theorem Stacked.leave {a : Word} {frame base : Nat} (h : Stacked ram (sp + 1))
    (hframe : ram.get 1 = BitVec.ofNat 16 frame) (hbase : ram.get 2 = BitVec.ofNat 16 base)
    (hb : 256 ≤ base) (hbf : base + 5 ≤ frame) (hf : frame ≤ sp)
    (hl : leave .shown ram = .ok (a, ram₁)) :
    a = ram.get (frame - 5) ∧ Stacked ram₁ (base + 1) ∧
      Changes (fun c => c < 256 ∨ c = base) ram ram₁ ∧
      ∀ i < 4, ram₁.get (1 + i) = ram.get (frame - 4 + i) := by
  obtain ⟨ram₂, hl', h₁, -, hback, hc⟩ := h.endsAt.leave hframe hbase (by omega) hbf hf
  obtain ⟨rfl, rfl⟩ := Prod.mk.inj (Except.ok.inj (hl.symm.trans hl'))
  exact ⟨rfl, h₁.stacked (by omega), hc.mono fun c hc => by omega, hback⟩

end HackToolchain.Vm
