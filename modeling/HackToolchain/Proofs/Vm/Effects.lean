import HackToolchain.Proofs.Vm.Agreement

/-!
# What the operations of the stack machine do

For each operation, when it succeeds, what it leaves in which cell, and which cells it may change at
all. The stack pointer is taken as a number (`EndsAt`); the stack may begin anywhere behind the
cells that an operation uses itself, and may reach up to the last cell. Notes are shown here, so
that the cells of the notes are among those that change.
-/

set_option autoImplicit false

namespace HackToolchain.Vm

open Machine

/-! ## Changes -/

/-- Cells other than some stay as they are. -/
def Changes (cells : Nat → Prop) (ram ram' : Ram) : Prop :=
  ∀ c, ¬ cells c → ram'.get c = ram.get c

namespace Changes

variable {P Q : Nat → Prop} {ram ram₁ ram₂ : Ram}

theorem refl (P : Nat → Prop) (ram : Ram) : Changes P ram ram := fun _ _ => rfl

theorem trans (h : Changes P ram ram₁) (g : Changes P ram₁ ram₂) : Changes P ram ram₂ :=
  fun c hc => (g c hc).trans (h c hc)

theorem mono (h : Changes P ram ram₁) (hPQ : ∀ c, P c → Q c) : Changes Q ram ram₁ :=
  fun c hc => h c fun hp => hc (hPQ c hp)

theorem set (a : Nat) (x : Word) (ram : Ram) : Changes (· = a) ram (ram.set a x) := by
  intro c hc
  rw [Ram.get_set, if_neg (by omega)]

end Changes

/-! ## Addresses -/

theorem toNat_ofNat_of_le {n : Nat} (h : n ≤ 32768) : (BitVec.ofNat 16 n).toNat = n := by
  rw [BitVec.toNat_ofNat]
  omega

theorem ofNat_sub_ofNat {m n : Nat} (h : n ≤ m) (hm : m ≤ 32768) :
    BitVec.ofNat 16 m - BitVec.ofNat 16 n = BitVec.ofNat 16 (m - n) := by
  apply BitVec.eq_of_toNat_eq
  rw [BitVec.toNat_sub, toNat_ofNat_of_le hm, toNat_ofNat_of_le (by omega),
    toNat_ofNat_of_le (by omega)]
  omega

/-- An index that stays within the memory is added to an address as it is. -/
theorem ofNat_add_ofInt {m n : Nat} :
    BitVec.ofNat 16 m + Word.ofInt n = BitVec.ofNat 16 (m + n) := by
  rw [Word.ofInt, BitVec.ofInt_natCast, ← BitVec.ofNat_add]

variable {ram ram₁ : Ram} {sp : Nat} {x : Word}

theorem load_shown (hs : ram.size = memoryWords) {a : Word} (h : a.toNat < 32768) :
    Vm.load .shown a ram = .ok (ram.get a.toNat) :=
  load_eq_ok.2 ⟨rfl, by rw [hs, memoryWords]; exact h, rfl⟩

theorem store_shown (hs : ram.size = memoryWords) {a : Word} (h : a.toNat < 32768) (x : Word) :
    Vm.store .shown a x ram = .ok (ram.set a.toNat x) :=
  store_eq_ok.2 ⟨rfl, by rw [hs, memoryWords]; exact h, rfl⟩

theorem get_set_self (hs : ram.size = memoryWords) {a : Nat} (h : a < 32768) (x : Word) :
    (ram.set a x).get a = x := by
  rw [Ram.get_set, if_pos ⟨rfl, by rw [hs, memoryWords]; exact h⟩]

theorem get_set_of_ne {a c : Nat} (h : a ≠ c) (x : Word) : (ram.set a x).get c = ram.get c := by
  rw [Ram.get_set, if_neg fun hac => h hac.1]

theorem size_pop {v : Notes} (hp : pop v ram = .ok (x, ram₁)) : ram₁.size = ram.size := by
  simp only [pop, bind_eq_ok] at hp
  obtain ⟨_, -, _, hstore, _, -, hx⟩ := hp
  obtain ⟨-, rfl⟩ := Prod.mk.inj (Except.ok.inj hx)
  obtain ⟨-, -, rfl⟩ := store_eq_ok.1 hstore
  exact Ram.size_set ..

theorem get_zeros (n a : Nat) : (Ram.zeros n).get a = 0 := by
  simp only [Ram.get, Ram.zeros, Array.getD_eq_getD_getElem?, Array.getElem?_replicate]
  split
  · rfl
  · rfl

theorem size_zeros (n : Nat) : (Ram.zeros n).size = n := by simp [Ram.size, Ram.zeros]

/-! ## The end of the stack -/

/-- A full memory whose stack ends below a cell. -/
structure EndsAt (ram : Ram) (sp : Nat) : Prop where
  size : ram.size = memoryWords
  pointer : ram.get 0 = BitVec.ofNat 16 sp
  below : sp ≤ 32768

namespace EndsAt

theorem toNat (h : EndsAt ram sp) : (ram.get 0).toNat = sp := by
  rw [h.pointer, toNat_ofNat_of_le h.below]

/-- Cells other than the stack pointer may change without moving the stack. -/
theorem of_changes {P : Nat → Prop} (h : EndsAt ram sp) (hc : Changes P ram ram₁)
    (hs : ram₁.size = ram.size) (h0 : ¬ P 0) : EndsAt ram₁ sp :=
  ⟨hs.trans h.size, (hc 0 h0).trans h.pointer, h.below⟩

theorem set {a : Nat} (h : EndsAt ram sp) (ha : a ≠ 0) : EndsAt (ram.set a x) sp :=
  h.of_changes (Changes.set a x ram) (Ram.size_set ram a x) fun h0 => ha h0.symm

theorem move {n : Nat} (h : EndsAt ram sp) (hn : n ≤ 32768) :
    EndsAt (ram.set 0 (BitVec.ofNat 16 n)) n :=
  ⟨(Ram.size_set ..).trans h.size, get_set_self h.size (by decide) _, hn⟩

/-! ## Pushing and popping -/

theorem push_eq (h : EndsAt ram sp) (h0 : 0 < sp) (hlt : sp < 32768) (x : Word) :
    Vm.push .shown x ram = .ok ((ram.set sp x).set 0 (BitVec.ofNat 16 (sp + 1))) := by
  have hpointer : ram.get (0 : Word).toNat = BitVec.ofNat 16 sp := h.pointer
  have h₁ : EndsAt (ram.set sp x) sp := h.set (by omega)
  have hpointer₁ : (ram.set sp x).get (0 : Word).toNat = BitVec.ofNat 16 sp := h₁.pointer
  simp only [Vm.push, bind_eq_ok]
  refine ⟨_, load_shown h.size (by decide), ram.set sp x, ?_, _, load_shown h₁.size (by decide), ?_⟩
  · rw [hpointer, store_shown h.size (by rw [toNat_ofNat_of_le h.below]; exact hlt),
      toNat_ofNat_of_le h.below]
  · rw [hpointer₁, store_shown h₁.size (by decide),
      show BitVec.ofNat 16 sp + 1 = BitVec.ofNat 16 (sp + 1) from ofNat_add_one sp]
    rfl

/-- A push stores a word where the stack ends, and the stack is one cell longer then. -/
theorem push (h : EndsAt ram sp) (h0 : 0 < sp) (hlt : sp < 32768) (x : Word) :
    ∃ ram₁, Vm.push .shown x ram = .ok ram₁ ∧ EndsAt ram₁ (sp + 1) ∧ ram₁.get sp = x ∧
      Changes (fun c => c = 0 ∨ c = sp) ram ram₁ := by
  have h₁ : EndsAt (ram.set sp x) sp := h.set (by omega)
  refine ⟨_, h.push_eq h0 hlt x, h₁.move (by omega), ?_, ?_⟩
  · rw [get_set_of_ne (by omega), get_set_self h.size hlt]
  · refine ((Changes.set sp x ram).mono fun c hc => .inr hc).trans ?_
    exact (Changes.set _ _ _).mono fun c hc => .inl hc

/-- Nothing can be pushed behind the last cell. -/
theorem lt_of_push (h : EndsAt ram sp) (hp : Vm.push .shown x ram = .ok ram₁) : sp < 32768 := by
  simp only [Vm.push, bind_eq_ok] at hp
  obtain ⟨a, ha, _, hstore, -⟩ := hp
  obtain ⟨-, -, rfl⟩ := load_eq_ok.1 ha
  obtain ⟨-, hlt, -⟩ := store_eq_ok.1 hstore
  rwa [show (ram.get (0 : Word).toNat).toNat = sp from h.toNat, h.size, memoryWords] at hlt

theorem pop_eq (h : EndsAt ram (sp + 1)) (h0 : 0 < sp) :
    Vm.pop .shown ram = .ok (ram.get sp, ram.set 0 (BitVec.ofNat 16 sp)) := by
  have hbelow := h.below
  have hpointer : ram.get (0 : Word).toNat - 1 = BitVec.ofNat 16 sp := by
    rw [show ram.get (0 : Word).toNat = BitVec.ofNat 16 (sp + 1) from h.pointer]
    exact ofNat_sub_ofNat (n := 1) (by omega) hbelow
  have h₁ : EndsAt (ram.set 0 (BitVec.ofNat 16 sp)) sp := h.move (by omega)
  simp only [Vm.pop, bind_eq_ok]
  refine ⟨_, load_shown h.size (by decide), ram.set 0 (BitVec.ofNat 16 sp), ?_, ram.get sp, ?_, rfl⟩
  · rw [hpointer, store_shown h.size (by decide)]
    rfl
  · rw [hpointer, load_shown h₁.size (by rw [toNat_ofNat_of_le (by omega)]; omega),
      toNat_ofNat_of_le (by omega), get_set_of_ne (by omega)]

/-- A pop takes the word below the stack's end, and the stack is one cell shorter then. -/
theorem pop (h : EndsAt ram (sp + 1)) (h0 : 0 < sp) :
    ∃ ram₁, Vm.pop .shown ram = .ok (ram.get sp, ram₁) ∧ EndsAt ram₁ sp ∧
      Changes (· = 0) ram ram₁ :=
  ⟨_, h.pop_eq h0, h.move (by have := h.below; omega), Changes.set _ _ _⟩

end EndsAt

/-! ## Operators -/

def operandCount (op : Operator) : Nat := if op.isUnary then 1 else 2

/-- The value of an operator; one of a single operand does not look at the second. -/
def operatorValue (op : Operator) (x y : Word) : Word :=
  if op.isUnary then unaryValue op x else binaryValue op x y

/-- An operator leaves its value in the place of its first operand, which is on top then. -/
theorem EndsAt.operate {op : Operator} (h : EndsAt ram (sp + operandCount op)) (h0 : 0 < sp) :
    ∃ ram₁, Vm.operate .shown op ram = .ok ram₁ ∧ EndsAt ram₁ (sp + 1) ∧
      ram₁.get sp = operatorValue op (ram.get sp) (ram.get (sp + 1)) ∧
      Changes (fun c => c = 0 ∨ c = sp) ram ram₁ := by
  have hbelow := h.below
  unfold Vm.operate operatorValue
  unfold operandCount at h hbelow
  cases hunary : op.isUnary with
  | true =>
    rw [if_pos hunary] at h hbelow
    obtain ⟨ram₂, hpop, h₂, hc⟩ := h.pop h0
    obtain ⟨ram₁, hpush, h₁, hget, hc'⟩ := h₂.push h0 (by omega) (unaryValue op (ram.get sp))
    refine ⟨ram₁, ?_, h₁, hget, (hc.mono fun c => .inl).trans hc'⟩
    rw [if_pos rfl, bind_eq_ok]
    exact ⟨_, hpop, hpush⟩
  | false =>
    rw [if_neg (by simp [hunary])] at h hbelow
    obtain ⟨ram₂, hpop, h₂, hc⟩ := (show EndsAt ram (sp + 1 + 1) from h).pop (by omega)
    obtain ⟨ram₃, hpop', h₃, hc'⟩ := h₂.pop h0
    rw [hc sp (by omega)] at hpop'
    obtain ⟨ram₁, hpush, h₁, hget, hc''⟩ :=
      h₃.push h0 (by omega) (binaryValue op (ram.get sp) (ram.get (sp + 1)))
    refine ⟨ram₁, ?_, h₁, hget, ((hc.mono fun c => .inl).trans (hc'.mono fun c => .inl)).trans hc''⟩
    rw [if_neg Bool.false_ne_true, bind_eq_ok]
    refine ⟨_, hpop, ?_⟩
    rw [bind_eq_ok]
    exact ⟨_, hpop', hpush⟩

/-! ## Segments -/

/-- What stands at an index of a segment: a constant is its own index, and the other segments have a
cell there. -/
inductive Fetches (cell : Option Int) (index : Int) (ram : Ram) : Segment → Word → Prop
  | constant : Fetches cell index ram .constant (Word.ofInt index)
  | stored {segment : Segment} {a : Word}
      (address : addressOf .shown cell segment index ram = .ok a) (inside : a.toNat < 32768) :
      Fetches cell index ram segment (ram.get a.toNat)

theorem EndsAt.pushFrom {cell : Option Int} {segment : Segment} {index : Int} (h : EndsAt ram sp)
    (h0 : 0 < sp) (hlt : sp < 32768) (hx : Fetches cell index ram segment x) :
    ∃ ram₁, Vm.pushFrom .shown cell segment index ram = .ok ram₁ ∧ EndsAt ram₁ (sp + 1) ∧
      ram₁.get sp = x ∧ Changes (fun c => c = 0 ∨ c = sp) ram ram₁ := by
  obtain ⟨ram₁, hpush, h₁⟩ := h.push h0 hlt x
  refine ⟨ram₁, ?_, h₁⟩
  unfold Vm.pushFrom
  cases hx with
  | constant => rw [if_pos rfl, hpush]
  | stored address inside =>
    rw [if_neg (by rintro rfl; simp [addressOf] at address)]
    simp only [bind_eq_ok]
    exact ⟨_, address, _, load_shown h.size inside, hpush⟩

/-- A pop into a segment stores the topmost word at the address that the index had before. A note is
taken of the address, unless it is that of a static variable. -/
theorem EndsAt.popInto {cell : Option Int} {segment : Segment} {index : Int} {a : Word}
    (h : EndsAt ram (sp + 1)) (hsp : 13 < sp)
    (ha : addressOf .shown cell segment index ram = .ok a) (h0 : a.toNat ≠ 0)
    (hlt : a.toNat < 32768) :
    ∃ ram₁, Vm.popInto .shown cell segment index ram = .ok ram₁ ∧ EndsAt ram₁ sp ∧
      ram₁.get a.toNat = ram.get sp ∧
      Changes (fun c => c = 0 ∨ c = a.toNat ∨ c = 13 ∧ segment ≠ .static) ram ram₁ := by
  obtain ⟨ram₀, hram₀⟩ : ∃ ram₀, ram₀ = if segment = .static then ram else note .shown 13 a ram :=
    ⟨_, rfl⟩
  have h₀ : EndsAt ram₀ (sp + 1) ∧ Changes (fun c => c = 13 ∧ segment ≠ .static) ram ram₀ := by
    rw [hram₀]
    split
    · exact ⟨h, Changes.refl _ _⟩
    · next hs => exact ⟨h.set (by decide), (Changes.set _ _ _).mono fun c hc => ⟨hc, hs⟩⟩
  obtain ⟨h₀, hc₀⟩ := h₀
  obtain ⟨ram₂, hpop, h₂, hc₂⟩ := h₀.pop (by omega)
  rw [hc₀ sp (by omega), hram₀] at hpop
  refine ⟨ram₂.set a.toNat (ram.get sp), ?_, h₂.set h0, get_set_self h₂.size hlt _, ?_⟩
  · simp only [Vm.popInto, bind_eq_ok]
    exact ⟨a, ha, _, hpop, store_shown h₂.size hlt _⟩
  · refine ((hc₀.mono fun c hc => .inr (.inr hc)).trans (hc₂.mono fun c hc => .inl hc)).trans ?_
    exact (Changes.set _ _ _).mono fun c hc => .inr (.inl hc)

/-! ## Entering functions -/

/-- The locals of a function begin as zeros. -/
theorem EndsAt.clearLocals (count : Nat) (h : EndsAt ram sp) (h0 : 0 < sp)
    (hlt : sp + count ≤ 32768) :
    ∃ ram₁, Vm.clearLocals .shown count ram = .ok ram₁ ∧ EndsAt ram₁ (sp + count) ∧
      (∀ c, sp ≤ c → c < sp + count → ram₁.get c = 0) ∧
      Changes (fun c => c = 0 ∨ sp ≤ c ∧ c < sp + count) ram ram₁ := by
  induction count generalizing ram sp with
  | zero => exact ⟨ram, rfl, h, fun c hc hc' => by omega, Changes.refl _ _⟩
  | succ count ih =>
    obtain ⟨ram₂, hpush, h₂, hget, hc₂⟩ := h.push h0 (by omega) 0
    obtain ⟨ram₁, hrest, h₁, hzero, hc₁⟩ := ih h₂ (by omega) (by omega)
    rw [Nat.add_right_comm] at h₁
    refine ⟨ram₁, ?_, h₁, fun c hc hc' => ?_, ?_⟩
    · simp only [Vm.clearLocals, bind_eq_ok]
      exact ⟨ram₂, hpush, hrest⟩
    · rcases Nat.eq_or_lt_of_le hc with rfl | hc
      · rw [hc₁ sp (by omega), hget]
      · exact hzero c hc (by omega)
    · exact (hc₂.mono fun c hc => by omega).trans (hc₁.mono fun c hc => by omega)

/-- Registers that are saved stand on the stack in order. -/
theorem EndsAt.save (registers : List Word) (h : EndsAt ram sp)
    (hr : ∀ r ∈ registers, 0 < r.toNat ∧ r.toNat < sp) (hlt : sp + registers.length ≤ 32768) :
    ∃ ram₁, Vm.save .shown registers ram = .ok ram₁ ∧ EndsAt ram₁ (sp + registers.length) ∧
      (∀ i r, registers[i]? = some r → ram₁.get (sp + i) = ram.get r.toNat) ∧
      Changes (fun c => c = 0 ∨ sp ≤ c ∧ c < sp + registers.length) ram ram₁ := by
  induction registers generalizing ram sp with
  | nil => exact ⟨ram, rfl, h, by simp, Changes.refl _ _⟩
  | cons r rest ih =>
    rw [List.length_cons] at hlt ⊢
    obtain ⟨hr0, hrlt⟩ := hr r List.mem_cons_self
    have hrest : ∀ r' ∈ rest, 0 < r'.toNat ∧ r'.toNat < sp := fun r' hr' =>
      hr r' (List.mem_cons_of_mem _ hr')
    have hload := load_shown (a := r) h.size (by omega)
    obtain ⟨ram₂, hpush, h₂, hget, hc₂⟩ := h.push (by omega) (by omega) (ram.get r.toNat)
    obtain ⟨ram₁, hsave, h₁, hsaved, hc₁⟩ :=
      ih h₂ (fun r' hr' => ⟨(hrest r' hr').1, by have := (hrest r' hr').2; omega⟩) (by omega)
    rw [Nat.add_assoc, Nat.add_comm 1] at h₁
    refine ⟨ram₁, ?_, h₁, fun i r' hi => ?_, ?_⟩
    · simp only [Vm.save, bind_eq_ok]
      exact ⟨_, hload, ram₂, hpush, hsave⟩
    · cases i with
      | zero =>
        simp only [List.getElem?_cons_zero, Option.some.injEq] at hi
        subst hi
        rw [Nat.add_zero, hc₁ sp (by omega), hget]
      | succ i =>
        rw [List.getElem?_cons_succ] at hi
        have hmem := hrest r' (List.mem_of_getElem? hi)
        rw [Nat.add_comm i 1, ← Nat.add_assoc, hsaved i r' hi, hc₂ _ (by omega)]
    · exact (hc₂.mono fun c hc => by omega).trans (hc₁.mono fun c hc => by omega)

/-- The registers of the language, in the order in which they are saved. -/
theorem getElem?_registers {i : Nat} (hi : i < 4) :
    ([1, 2, 3, 4] : List Word)[i]? = some (BitVec.ofNat 16 (1 + i)) ∧
      ([4, 3, 2, 1] : List Word)[3 - i]? = some (BitVec.ofNat 16 (1 + i)) := by
  rcases i with _ | _ | _ | _ | i
  · exact ⟨rfl, rfl⟩
  · exact ⟨rfl, rfl⟩
  · exact ⟨rfl, rfl⟩
  · exact ⟨rfl, rfl⟩
  · omega

/-- Entering a function leaves the return address and the registers of the caller on the stack,
points at the arguments below them, and lets the locals begin above. -/
theorem EndsAt.enter (arguments : Nat) (h : EndsAt ram sp) (hsp : 4 < sp) (ha : arguments ≤ sp)
    (hlt : sp + 5 ≤ 32768) (returnAddress : Word) :
    ∃ ram₁, Vm.enter .shown returnAddress arguments ram = .ok ram₁ ∧ EndsAt ram₁ (sp + 5) ∧
      ram₁.get 1 = BitVec.ofNat 16 (sp + 5) ∧ ram₁.get 2 = BitVec.ofNat 16 (sp - arguments) ∧
      ram₁.get sp = returnAddress ∧ (∀ i < 4, ram₁.get (sp + 1 + i) = ram.get (1 + i)) ∧
      Changes (fun c => c ≤ 2 ∨ sp ≤ c ∧ c < sp + 5) ram ram₁ := by
  obtain ⟨ram₂, hpush, h₂, hreturn, hc₂⟩ := h.push (by omega) (by omega) returnAddress
  obtain ⟨ram₃, hsave, h₃, hsaved, hc₃⟩ := h₂.save [1, 2, 3, 4]
    (by simp; omega) (by simp only [List.length_cons, List.length_nil]; omega)
  simp only [List.length_cons, List.length_nil, Nat.zero_add, Nat.add_assoc, Nat.reduceAdd]
    at h₃ hc₃
  have hpointer : ram₃.get (0 : Word).toNat = BitVec.ofNat 16 (sp + 5) := h₃.pointer
  -- The stack pointer stands above the frame when it is read for the arguments, five cells and the
  -- arguments below, and for the locals, which begin there.
  have hbase : BitVec.ofNat 16 (sp + 5) - Word.ofInt ((arguments : Int) + 5) =
      BitVec.ofNat 16 (sp - arguments) := by
    rw [show (arguments : Int) + 5 = (arguments + 5 : Nat) from rfl, Word.ofInt,
      BitVec.ofInt_natCast, ofNat_sub_ofNat (by omega) hlt]
    congr 1
    omega
  have h₄ := h₃.set (x := BitVec.ofNat 16 (sp - arguments)) (a := 2) (by decide)
  have hpointer' : (ram₃.set 2 (BitVec.ofNat 16 (sp - arguments))).get (0 : Word).toNat =
      BitVec.ofNat 16 (sp + 5) := h₄.pointer
  have hget (c : Nat) (hc : 3 ≤ c) : ((ram₃.set 2 (BitVec.ofNat 16 (sp - arguments))).set 1
      (BitVec.ofNat 16 (sp + 5))).get c = ram₃.get c := by
    rw [get_set_of_ne (by omega), get_set_of_ne (by omega)]
  refine ⟨(ram₃.set 2 (BitVec.ofNat 16 (sp - arguments))).set 1 (BitVec.ofNat 16 (sp + 5)), ?_,
    h₄.set (by decide), get_set_self h₄.size (by decide) _, ?_, ?_, fun i hi => ?_, fun c hc => ?_⟩
  · simp only [Vm.enter, bind_eq_ok]
    refine ⟨ram₂, hpush, ram₃, hsave, _, load_shown h₃.size (by decide), _, ?_, _,
      load_shown h₄.size (by decide), ?_⟩
    · rw [hpointer, hbase]
      exact store_shown h₃.size (by decide) _
    · rw [hpointer']
      exact store_shown h₄.size (by decide) _
  · rw [get_set_of_ne (by decide), get_set_self h₃.size (by decide)]
  · rw [hget sp (by omega), hc₃ sp (by omega), hreturn]
  · rw [hget _ (by omega), hsaved i _ (getElem?_registers hi).1, toNat_ofNat_of_le (by omega),
      hc₂ _ (by omega)]
  · rw [hget c (by omega), hc₃ c (by omega), hc₂ c (by omega)]

/-! ## Leaving functions -/

/-- Registers given back have their saved words again. -/
theorem exists_restore (registers : List Word) {frame : Nat} {offset : Nat}
    (hsize : ram.size = memoryWords) (hnote : ram.get 13 = BitVec.ofNat 16 frame)
    (hoffset : 0 < offset) (hframe : 13 + offset + registers.length ≤ frame + 1)
    (hf : frame ≤ 32768) (hr : ∀ r ∈ registers, 0 < r.toNat ∧ r.toNat < 13)
    (hn : registers.Nodup) :
    ∃ ram₁, Vm.restore .shown (BitVec.ofNat 16 frame) offset registers ram = .ok ram₁ ∧
      ram₁.size = memoryWords ∧
      (∀ i r, registers[i]? = some r → ram₁.get r.toNat = ram.get (frame - (offset + i))) ∧
      Changes (fun c => ∃ r ∈ registers, r.toNat = c) ram ram₁ := by
  induction registers generalizing ram offset with
  | nil => exact ⟨ram, rfl, hsize, by simp, Changes.refl _ _⟩
  | cons r rest ih =>
    rw [List.length_cons] at hframe
    obtain ⟨hr₀, hr₁⟩ := hr r List.mem_cons_self
    obtain ⟨hnew, hn⟩ := List.nodup_cons.1 hn
    -- No register comes twice, so what has been given back is not overwritten.
    have hnew : ¬ ∃ r' ∈ rest, r'.toNat = r.toNat := fun ⟨r', hr', he⟩ =>
      hnew (BitVec.eq_of_toNat_eq he ▸ hr')
    have haddress : (noted .shown 13 (BitVec.ofNat 16 frame) ram - BitVec.ofNat 16 offset).toNat =
        frame - offset := by
      rw [noted, hnote, ofNat_sub_ofNat (by omega) hf, toNat_ofNat_of_le (by omega)]
    have hload : Vm.load .shown
        (noted .shown 13 (BitVec.ofNat 16 frame) ram - BitVec.ofNat 16 offset) ram =
          .ok (ram.get (frame - offset)) := by
      rw [load_shown hsize (by rw [haddress]; omega), haddress]
    have hstore := store_shown hsize (a := r) (by omega) (ram.get (frame - offset))
    have hsize' := (Ram.size_set ram r.toNat (ram.get (frame - offset))).trans hsize
    obtain ⟨ram₁, hrest, hs, hback, hc⟩ := ih hsize'
      (by rw [get_set_of_ne (by omega), hnote]) (Nat.succ_pos offset) (by omega)
      (fun r' hr' => hr r' (List.mem_cons_of_mem _ hr')) hn
    refine ⟨ram₁, ?_, hs, fun i r' hi => ?_, fun c hnc => ?_⟩
    · simp only [Vm.restore, bind_eq_ok]
      exact ⟨_, hload, _, hstore, hrest⟩
    · cases i with
      | zero =>
        simp only [List.getElem?_cons_zero, Option.some.injEq] at hi
        subst hi
        rw [hc _ hnew, get_set_self hsize (by omega), Nat.add_zero]
      | succ i =>
        rw [List.getElem?_cons_succ] at hi
        have hlength := (List.getElem?_eq_some_iff.1 hi).1
        rw [hback i r' hi, get_set_of_ne (by omega)]
        congr 1
        omega
    · have hne : r.toNat ≠ c := fun he => hnc ⟨r, List.mem_cons_self, he⟩
      rw [hc c fun ⟨r', hr', he⟩ => hnc ⟨r', List.mem_cons_of_mem _ hr', he⟩, get_set_of_ne hne]

theorem EndsAt.notes (h : EndsAt ram sp) (f r : Word) :
    EndsAt ((ram.set 13 f).set 14 r) sp ∧ ((ram.set 13 f).set 14 r).get 13 = f ∧
      ((ram.set 13 f).set 14 r).get 14 = r ∧
      Changes (fun c => c = 13 ∨ c = 14) ram ((ram.set 13 f).set 14 r) := by
  have h₁ := h.set (x := f) (a := 13) (by decide)
  refine ⟨h₁.set (by decide), ?_, get_set_self h₁.size (by decide) _, fun c hc => ?_⟩
  · rw [get_set_of_ne (by decide), get_set_self h.size (by decide)]
  · rw [get_set_of_ne (by omega), get_set_of_ne (by omega)]

/-- The result goes where the arguments begin, and the stack ends behind it. -/
theorem EndsAt.putResult {base : Nat} (h : EndsAt ram (sp + 1))
    (hbase : ram.get 2 = BitVec.ofNat 16 base) (hb : 2 < base) (hle : base ≤ sp) :
    ∃ ram₂ ram₃ ram₁, Vm.pop .shown ram = .ok (ram.get sp, ram₂) ∧
      Vm.load .shown 2 ram₂ = .ok (BitVec.ofNat 16 base) ∧
      Vm.store .shown (BitVec.ofNat 16 base) (ram.get sp) ram₂ = .ok ram₃ ∧
      Vm.load .shown 2 ram₃ = .ok (BitVec.ofNat 16 base) ∧
      Vm.store .shown 0 (BitVec.ofNat 16 base + 1) ram₃ = .ok ram₁ ∧
      EndsAt ram₁ (base + 1) ∧ ram₁.get base = ram.get sp ∧
      Changes (fun c => c = 0 ∨ c = base) ram ram₁ := by
  have hbelow := h.below
  obtain ⟨ram₂, hpop, h₂, hc₂⟩ := h.pop (by omega)
  have h₃ : EndsAt (ram₂.set base (ram.get sp)) sp := h₂.set (by omega)
  refine ⟨ram₂, ram₂.set base (ram.get sp),
    (ram₂.set base (ram.get sp)).set 0 (BitVec.ofNat 16 (base + 1)), hpop, ?_, ?_, ?_, ?_,
    h₃.move (by omega), ?_, fun c hc => ?_⟩
  · rw [load_shown h₂.size (by decide), show (2 : Word).toNat = 2 from rfl, hc₂ 2 (by omega), hbase]
  · rw [store_shown h₂.size (by rw [toNat_ofNat_of_le (by omega)]; omega),
      toNat_ofNat_of_le (by omega)]
  · rw [load_shown h₃.size (by decide), show (2 : Word).toNat = 2 from rfl,
      get_set_of_ne (by omega), hc₂ 2 (by omega), hbase]
  · rw [store_shown h₃.size (by decide),
      show BitVec.ofNat 16 base + 1 = BitVec.ofNat 16 (base + 1) from ofNat_add_one base]
    rfl
  · rw [get_set_of_ne (by omega), get_set_self h₂.size (by omega)]
  · rw [get_set_of_ne (by omega), get_set_of_ne (by omega), hc₂ c (by omega)]

/-- Leaving a function puts the result where the arguments begin, ends the stack behind it, and
gives the caller its registers back. -/
theorem EndsAt.leave {frame base : Nat} (h : EndsAt ram (sp + 1))
    (hframe : ram.get 1 = BitVec.ofNat 16 frame) (hbase : ram.get 2 = BitVec.ofNat 16 base)
    (hb : 14 < base) (hbf : base + 5 ≤ frame) (hf : frame ≤ sp) :
    ∃ ram₁, Vm.leave .shown ram = .ok (ram.get (frame - 5), ram₁) ∧ EndsAt ram₁ (base + 1) ∧
      ram₁.get base = ram.get sp ∧ (∀ i < 4, ram₁.get (1 + i) = ram.get (frame - 4 + i)) ∧
      Changes (fun c => c ≤ 4 ∨ c = 13 ∨ c = 14 ∨ c = base) ram ram₁ := by
  have hbelow := h.below
  have hfive : (BitVec.ofNat 16 frame - 5).toNat = frame - 5 := by
    rw [show (5 : Word) = BitVec.ofNat 16 5 from rfl, ofNat_sub_ofNat (by omega) (by omega),
      toNat_ofNat_of_le (by omega)]
  have hload : Vm.load .shown 1 ram = .ok (BitVec.ofNat 16 frame) := by
    rw [load_shown h.size (by decide)]
    exact congrArg _ hframe
  have hload' : Vm.load .shown (BitVec.ofNat 16 frame - 5)
      (ram.set 13 (BitVec.ofNat 16 frame)) = .ok (ram.get (frame - 5)) := by
    rw [load_shown ((Ram.size_set ..).trans h.size) (by rw [hfive]; omega), hfive,
      get_set_of_ne (by omega)]
  -- The memory with both notes is the one from which the result is popped.
  obtain ⟨h₀, h13, h14, hc₀⟩ := h.notes (BitVec.ofNat 16 frame) (ram.get (frame - 5))
  generalize hram₀ : (ram.set 13 (BitVec.ofNat 16 frame)).set 14 (ram.get (frame - 5)) = ram₀ at *
  obtain ⟨ram₂, ram₃, ram₄, hpop, harg, hput, harg', hmove, h₄, hresult, hc₄⟩ :=
    h₀.putResult ((hc₀ 2 (by omega)).trans hbase) (by omega) (by omega)
  rw [hc₀ sp (by omega)] at hpop hput hresult
  -- The saved registers lie above the result, so storing it has not changed them.
  obtain ⟨ram₁, hrestore, hs, hback, hc⟩ := exists_restore [4, 3, 2, 1] h₄.size
    ((hc₄ 13 (by omega)).trans h13) Nat.one_pos
    (by simp only [List.length_cons, List.length_nil]; omega) (by omega) (by simp) (by simp)
  replace hc : Changes (fun c => 1 ≤ c ∧ c ≤ 4) ram₄ ram₁ := hc.mono fun c hc => by
    simp only [List.mem_cons, List.not_mem_nil, or_false, exists_eq_or_imp, exists_eq_left] at hc
    rcases hc with rfl | rfl | rfl | rfl <;> decide
  refine ⟨ram₁, ?_, h₄.of_changes hc (hs.trans h₄.size.symm) (by omega), ?_, fun i hi => ?_,
    fun c hnc => ?_⟩
  · simp only [Vm.leave, note, bind_eq_ok]
    refine ⟨_, hload, _, hload', _, hram₀ ▸ hpop, _, harg, _, hput, _, harg', _, hmove, ram₁,
      hrestore, ?_⟩
    rw [noted, hc 14 (by omega), hc₄ 14 (by omega), h14]
    rfl
  · rw [hc base (by omega), hresult]
  · have := hback (3 - i) _ (getElem?_registers hi).2
    rw [toNat_ofNat_of_le (by omega)] at this
    rw [this, hc₄ _ (by omega), hc₀ _ (by omega)]
    congr 1
    omega
  · rw [hc c (by omega), hc₄ c (by omega), hc₀ c (by omega)]

/-- In the frame of a function without arguments and locals a word is pushed and returned. -/
theorem EndsAt.exists_push_leave (h : EndsAt ram (sp + 5))
    (hframe : ram.get 1 = BitVec.ofNat 16 (sp + 5)) (hbase : ram.get 2 = BitVec.ofNat 16 sp)
    (hlow : 14 < sp) (hhigh : sp + 5 < 32768) (x : Word) : ∃ ram₁ ram₂,
      Vm.push .shown x ram = .ok ram₁ ∧ Vm.leave .shown ram₁ = .ok (ram.get sp, ram₂) ∧
        (ram₁.get 1).toNat + 1 ≤ (ram₁.get 0).toNat ∧
        Changes (fun c => c ≤ 4 ∨ c = 13 ∨ c = 14 ∨ sp ≤ c) ram ram₂ := by
  obtain ⟨ram₁, hpush, h₁, -, hc₁⟩ := h.push (by omega) hhigh x
  have hget (c : Nat) (h0 : c ≠ 0) (hc : c ≠ sp + 5) : ram₁.get c = ram.get c :=
    hc₁ c fun h => h.elim h0 hc
  have hframe₁ := (hget 1 (by omega) (by omega)).trans hframe
  obtain ⟨ram₂, hleave, -, -, -, hc₂⟩ := h₁.leave hframe₁
    ((hget 2 (by omega) (by omega)).trans hbase) hlow (by omega) (by omega)
  rw [Nat.add_sub_cancel, hget sp (by omega) (by omega)] at hleave
  refine ⟨ram₁, ram₂, hpush, hleave, ?_, ?_⟩
  · rw [hframe₁, h₁.toNat, toNat_ofNat_of_le (by omega)]
  · exact (hc₁.mono fun c hc => by omega).trans (hc₂.mono fun c hc => by omega)

end HackToolchain.Vm
