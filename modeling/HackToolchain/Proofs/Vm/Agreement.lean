import HackToolchain.Proofs.Vm.StackMachine

/-!
# Memories that agree

Two memories agree when they have the same words in the cells that commands may use. What the stack
machine loads from one of them stands in the other, and storing and noting keep them agreeing.
-/

set_option autoImplicit false

namespace HackToolchain.Vm

open Machine

theorem bind_eq_ok {ε α β : Type} {first : Except ε α} {second : α → Except ε β} {result : β} :
    (first >>= second) = .ok result ↔ ∃ value, first = .ok value ∧ second value = .ok result := by
  cases first with
  | error e => simp [bind, Except.bind]
  | ok value => simp [bind, Except.bind]

theorem map_eq_ok {ε α β : Type} {first : Except ε α} {f : α → β} {result : β} :
    (f <$> first) = .ok result ↔ ∃ value, first = .ok value ∧ f value = result := by
  cases first with
  | error e => simp [Functor.map, Except.map]
  | ok value => simp [Functor.map, Except.map]

variable {v : Notes} {ram ram₁ other : Ram} {a x : Word}

theorem load_eq_ok :
    load v a ram = .ok x ↔
      v.allows a.toNat = true ∧ a.toNat < ram.size ∧ ram.get a.toNat = x := by
  unfold load
  by_cases h : v.allows a.toNat = true ∧ a.toNat < ram.size
  · simp [h]
  · rw [if_neg (by simpa using h)]
    simp only [reduceCtorEq, false_iff]
    exact fun hx => h ⟨hx.1, hx.2.1⟩

theorem store_eq_ok :
    store v a x ram = .ok ram₁ ↔
      v.allows a.toNat = true ∧ a.toNat < ram.size ∧ ram.set a.toNat x = ram₁ := by
  unfold store
  by_cases h : v.allows a.toNat = true ∧ a.toNat < ram.size
  · simp [h]
  · rw [if_neg (by simpa using h)]
    simp only [reduceCtorEq, false_iff]
    exact fun hx => h ⟨hx.1, hx.2.1⟩

/-- Memories agree in the cells that may be used; both have all cells. -/
structure Agrees (v : Notes) (ram other : Ram) : Prop where
  size : ram.size = memoryWords
  size' : other.size = memoryWords
  get : ∀ a, v.allows a = true → ram.get a = other.get a

theorem ram_ext (hs : ram.size = other.size) (h : ∀ a, ram.get a = other.get a) : ram = other := by
  obtain ⟨cells⟩ := ram
  obtain ⟨cells'⟩ := other
  simp only [Ram.size] at hs
  congr 1
  refine Array.ext hs fun i hi hi' => ?_
  have := h i
  simp only [Ram.get, Array.getD_eq_getD_getElem?, Array.getElem?_eq_getElem hi,
    Array.getElem?_eq_getElem hi', Option.getD_some] at this
  exact this

namespace Agrees

theorem refl (h : ram.size = memoryWords) : Agrees v ram ram := ⟨h, h, fun _ _ => rfl⟩

/-- Where notes are shown, memories that agree are the same. -/
theorem eq_of_shown (h : Agrees .shown ram other) : ram = other :=
  ram_ext (h.size.trans h.size'.symm) fun a => h.get a rfl

/-- What is loaded from a memory stands in the other. -/
theorem load (h : Agrees v ram other) (hl : load v a ram = .ok x) :
    a.toNat < other.size ∧ other.get a.toNat = x := by
  obtain ⟨ha, hlt, rfl⟩ := load_eq_ok.1 hl
  rw [h.size']
  exact ⟨h.size ▸ hlt, (h.get _ ha).symm⟩

/-- What is stored in a memory may be stored in the other. -/
theorem store (h : Agrees v ram other) (hs : store v a x ram = .ok ram₁) :
    v.allows a.toNat = true ∧ a.toNat < other.size ∧ Agrees v ram₁ (other.set a.toNat x) := by
  obtain ⟨ha, hlt, rfl⟩ := store_eq_ok.1 hs
  refine ⟨ha, h.size'.symm ▸ h.size ▸ hlt, ⟨?_, ?_, ?_⟩⟩
  · rw [Ram.size_set, h.size]
  · rw [Ram.size_set, h.size']
  · intro b hb
    rw [Ram.get_set, Ram.get_set, h.size, h.size', h.get b hb]

theorem loadAt (n : Nat) (hn : a.toNat = n) (h : Agrees v ram other)
    (hl : Vm.load v a ram = .ok x) :
    n < other.size ∧ other.get n = x := hn ▸ h.load hl

theorem storeAt (n : Nat) (hn : a.toNat = n) (h : Agrees v ram other)
    (hs : Vm.store v a x ram = .ok ram₁) :
    v.allows n = true ∧ n < other.size ∧ Agrees v ram₁ (other.set n x) := hn ▸ h.store hs

/-- What is popped from a memory stands where the other's stack pointer has moved down to. -/
theorem pop (h : Agrees v ram other) (hp : Vm.pop v ram = .ok (x, ram₁)) :
    let popped := other.set 0 (other.get 0 - 1)
    0 < other.size ∧ Agrees v ram₁ popped ∧ (other.get 0 - 1).toNat < popped.size ∧
      popped.get (other.get 0 - 1).toNat = x := by
  simp only [Vm.pop, bind_eq_ok] at hp
  obtain ⟨sp, hsp, ram₂, hstore, y, hload, hp⟩ := hp
  obtain ⟨rfl, rfl⟩ := Prod.mk.inj (Except.ok.inj hp)
  obtain ⟨h0, rfl⟩ := h.loadAt 0 rfl hsp
  obtain ⟨-, -, hagrees⟩ := h.storeAt 0 rfl hstore
  obtain ⟨hlt, hget⟩ := hagrees.load hload
  exact ⟨h0, hagrees, hlt, hget⟩

theorem note {cell : Nat} (h : Agrees v ram other) (hc : cell = 13 ∨ cell = 14) :
    Agrees v (note v cell x ram) (other.set cell x) := by
  cases v with
  | shown =>
    refine ⟨by rw [Vm.note, Ram.size_set, h.size], by rw [Ram.size_set, h.size'], fun b hb => ?_⟩
    rw [Vm.note, Ram.get_set, Ram.get_set, h.size, h.size', h.get b hb]
  | hidden =>
    refine ⟨h.size, by rw [Ram.size_set, h.size'], fun b hb => ?_⟩
    have hne : cell ≠ b := by
      rintro rfl
      rcases hc with rfl | rfl <;> exact absurd hb (by decide)
    rw [Vm.note, Ram.get_set, if_neg (by simp [hne]), h.get b hb]

end Agrees

/-- A memory holds a note, or it does not matter what it holds. -/
def HoldsNote (v : Notes) (cell : Nat) (x : Word) (other : Ram) : Prop :=
  v = .hidden → other.get cell = x

theorem noted_eq {cell : Nat} (h : Agrees v ram other) (hn : HoldsNote v cell x other) :
    noted v cell x ram = other.get cell := by
  cases v with
  | shown => exact h.get cell rfl
  | hidden => exact (hn rfl).symm

/-- Storing in a cell that may be used destroys no note. -/
theorem HoldsNote.set {cell : Nat} {y : Word} (h : HoldsNote v cell x other)
    (hc : cell = 13 ∨ cell = 14) (ha : v.allows a.toNat = true) :
    HoldsNote v cell x (other.set a.toNat y) := by
  rintro rfl
  have hne : a.toNat ≠ cell := by
    intro he
    rw [he] at ha
    rcases hc with rfl | rfl <;> exact absurd ha (by decide)
  rw [Ram.get_set, if_neg (by simp [hne]), h rfl]

theorem holdsNote_set {cell : Nat} (h : cell < other.size) :
    HoldsNote v cell x (other.set cell x) := by
  intro _
  rw [Ram.get_set, if_pos ⟨rfl, h⟩]

theorem HoldsNote.set_of_ne {cell cell' : Nat} {y : Word} (h : HoldsNote v cell x other)
    (hne : cell' ≠ cell) : HoldsNote v cell x (other.set cell' y) := by
  intro hv
  rw [Ram.get_set, if_neg (by simp [hne]), h hv]

end HackToolchain.Vm
