import HackToolchain.Proofs.Codegen.Layout
import HackToolchain.Proofs.Vm.Agreement

/-!
# The effects of straight code

What the pieces of generated code do that do not jump: each of them follows what the stack machine
does. If the machine goes on from a memory, the code runs to its end from any memory that agrees
with it, and the memories agree again (`yields_pushD`, `yields_popD`, `yields_pushCode`,
`yields_popCode`, …).
-/

set_option autoImplicit false

namespace HackToolchain.Codegen

open Text Machine Asm Vm

/-! ## Straight code -/

attribute [simp] runOps Op.run Action.needsCell Line.toA Line.toD Line.toM Line.toAM

def Register.word : Register → Word
  | .sp => 0
  | .lcl => 1
  | .arg => 2
  | .this => 3
  | .that => 4
  | .r13 => 13
  | .r14 => 14

@[simp] theorem word_eq :
    Register.sp.word = 0 ∧ Register.lcl.word = 1 ∧ Register.arg.word = 2 ∧ Register.this.word = 3 ∧
      Register.that.word = 4 ∧ Register.r13.word = 13 ∧ Register.r14.word = 14 :=
  ⟨rfl, rfl, rfl, rfl, rfl, rfl, rfl⟩

@[simp] theorem encodeLoad_address (r : Register) : encodeLoad (r.address : Int) = r.word := by
  cases r <;> decide

@[simp] theorem toNat_word (r : Register) : r.word.toNat = r.address := by
  cases r <;> rfl

theorem encodeLoad_ofInt {n : Int} (h0 : 0 ≤ n) (h : n ≤ 32767) : encodeLoad n = Word.ofInt n := by
  obtain ⟨m, rfl⟩ := Int.eq_ofNat_of_zero_le h0
  rw [encodeLoad_of_lt (by omega), Word.ofInt, BitVec.ofInt_natCast]

/-- Straight code runs to its end, where something holds. -/
def Yields (ops : List Op) (s : Data) (Q : Data → Prop) : Prop :=
  ∃ t, runOps ops s = some t ∧ Q t

theorem Yields.append {xs ys : List Op} {s : Data} {P Q : Data → Prop} (h : Yields xs s P)
    (g : ∀ t, P t → Yields ys t Q) : Yields (xs ++ ys) s Q := by
  obtain ⟨t, ht, hp⟩ := h
  obtain ⟨u, hu, hq⟩ := g t hp
  exact ⟨u, by rw [runOps_append, ht]; exact hu, hq⟩

theorem Yields.mono {ops : List Op} {s : Data} {P Q : Data → Prop} (h : Yields ops s P)
    (g : ∀ t, P t → Q t) : Yields ops s Q := by
  obtain ⟨t, ht, hp⟩ := h
  exact ⟨t, ht, g t hp⟩

/-- A number in the code is loaded as its word. -/
def LoadsNumber (p : Assembly) (n : Int) : Prop :=
  ∃ m : Int, (Line.number n).ops p = [.load m] ∧ encodeLoad m = Word.ofInt n

theorem Placed.loadsNumber {p : Assembly} {address : Nat} {c : Code} {n : Int}
    (h : Placed p address c) (hl : .number n ∈ c) : LoadsNumber p n := by
  obtain ⟨h0, hle, hops⟩ := h.ops_number hl
  exact ⟨n, hops, encodeLoad_ofInt h0 hle⟩

variable {p : Assembly} {v : Notes} {ram ram₁ : Ram} {s : Data} {x : Word}

/-! ## The stack -/

/-- The first half of a push: a word is stored in the first free cell. -/
def storeTop (v : Notes) (x : Word) (ram : Ram) : Except Stop Ram := do
  let sp ← load v 0 ram
  store v sp x ram

/-- The second half of a push: the stack pointer moves up. -/
def moveUp (v : Notes) (ram : Ram) : Except Stop Ram := do
  let sp ← load v 0 ram
  store v 0 (sp + 1) ram

theorem push_eq (v : Notes) (x : Word) (ram : Ram) :
    push v x ram = storeTop v x ram >>= moveUp v := by
  simp only [push, storeTop, bind_assoc]
  rfl

theorem yields_storeTop {c : Computation} (hr : Agrees v ram s.ram)
    (h : storeTop v x ram = .ok ram₁)
    (hm : c.usesMemory = false) (hc : ∀ y, c.eval s.d y = x) :
    Yields (codeOps p (pointAtTop ++ [Line.toM c])) s fun t => t.d = s.d ∧ Agrees v ram₁ t.ram := by
  simp only [storeTop, bind_eq_ok] at h
  obtain ⟨sp, hsp, h⟩ := h
  obtain ⟨hz, rfl⟩ := hr.loadAt 0 rfl hsp
  obtain ⟨-, hlt, hr₁⟩ := hr.store h
  have hpoint : (Computation.y .m).usesMemory = true := rfl
  have hvalue (d y : Word) : (Computation.y .m).eval d y = y := rfl
  simpa [Yields, pointAtTop, hpoint, hvalue, hz, hlt, hm, hc] using hr₁

theorem yields_incrementSp (hr : Agrees v ram s.ram) (h : moveUp v ram = .ok ram₁) :
    Yields (codeOps p incrementSp) s fun t => t.d = s.d ∧ Agrees v ram₁ t.ram := by
  simp only [moveUp, bind_eq_ok] at h
  obtain ⟨sp, hsp, h⟩ := h
  obtain ⟨hz, rfl⟩ := hr.loadAt 0 rfl hsp
  obtain ⟨-, -, hr₁⟩ := hr.storeAt 0 rfl h
  simpa [Yields, incrementSp, Computation.usesMemory, Computation.operand?, Computation.eval, hz]
    using hr₁

theorem yields_pushD (hr : Agrees v ram s.ram) (h : push v s.d ram = .ok ram₁) :
    Yields (codeOps p pushD) s fun t => Agrees v ram₁ t.ram := by
  rw [push_eq, bind_eq_ok] at h
  obtain ⟨ram₂, hstore, hmove⟩ := h
  rw [pushD, codeOps_append]
  refine (yields_storeTop hr hstore rfl fun _ => rfl).append fun t ht => ?_
  exact (yields_incrementSp ht.2 hmove).mono fun u hu => hu.2

/-- Popping into D changes no cell but the stack pointer. -/
theorem yields_popD {y : Word} (hr : Agrees v ram s.ram) (h : pop v ram = .ok (y, ram₁)) :
    Yields (codeOps p popD) s fun t =>
      t.d = y ∧ Agrees v ram₁ t.ram ∧ ∃ w, t.ram = s.ram.set 0 w := by
  obtain ⟨h0, hr₁, hlt, rfl⟩ := hr.pop h
  simpa [Yields, popD, Computation.usesMemory, Computation.operand?, Computation.eval, h0,
    -BitVec.toNat_sub] using ⟨hlt, hr₁⟩

/-- Giving the topmost cell back and pointing at it, which then is the first free cell. -/
theorem yields_pointAtPopped {y : Word} (hr : Agrees v ram s.ram)
    (h : pop v ram = .ok (y, ram₁)) :
    Yields (codeOps p (decrementSp ++ pointAtTop)) s fun t =>
      t.d = s.d ∧ Agrees v ram₁ t.ram ∧ t.a = t.ram.get 0 ∧ t.a.toNat < t.ram.size ∧
        t.ram.get t.a.toNat = y := by
  obtain ⟨h0, hr₁, hlt, rfl⟩ := hr.pop h
  have hget : (s.ram.set 0 (s.ram.get 0 - 1#16)).get 0 = s.ram.get 0 - 1#16 := by
    rw [Ram.get_set, if_pos ⟨rfl, h0⟩]
  rw [Ram.size_set] at hlt
  simpa [Yields, decrementSp, pointAtTop, Computation.usesMemory, Computation.operand?,
    Computation.eval, h0, hget, Ram.size_set, -BitVec.toNat_sub] using ⟨hr₁, hlt⟩

theorem yields_storeHere {c : Computation} (hr : Agrees v ram s.ram)
    (h : storeTop v x ram = .ok ram₁) (ha : s.a = s.ram.get 0)
    (hc : c.eval s.d (if c.usesMemory then s.ram.get s.a.toNat else s.a) = x) :
    Yields (codeOps p [Line.toM c]) s fun t => Agrees v ram₁ t.ram := by
  simp only [storeTop, bind_eq_ok] at h
  obtain ⟨sp, hsp, h⟩ := h
  obtain ⟨-, rfl⟩ := hr.loadAt 0 rfl hsp
  obtain ⟨-, hlt, hr₁⟩ := hr.store h
  rw [← ha] at hlt hr₁
  simpa [Yields, hlt, hc] using hr₁

/-- The operators that do not compare. -/
theorem yields_operatorCode {op : Operator} {number : Int} (hr : Agrees v ram s.ram)
    (hop : op.isComparison = false) (h : operate v op ram = .ok ram₁) :
    Yields (codeOps p (operatorCode op number)) s fun t => Agrees v ram₁ t.ram := by
  have hfinish {y z : Word} {ram₂ ram₃ : Ram} {s : Data} {c : Computation}
      (hr : Agrees v ram₂ s.ram) (hpop : pop v ram₂ = .ok (z, ram₃))
      (hpush : push v y ram₃ = .ok ram₁) (hc : c.eval s.d z = y) (hm : c.usesMemory = true) :
      Yields (codeOps p (decrementSp ++ pointAtTop ++ [Line.toM c] ++ incrementSp)) s fun t =>
        Agrees v ram₁ t.ram := by
    rw [push_eq, bind_eq_ok] at hpush
    obtain ⟨ram₄, hstore, hmove⟩ := hpush
    rw [codeOps_append, codeOps_append]
    refine ((yields_pointAtPopped hr hpop).append fun t ht => ?_).append fun u hu =>
      (yields_incrementSp hu hmove).mono fun w hw => hw.2
    obtain ⟨hd, hr₃, ha, -, hz⟩ := ht
    exact yields_storeHere hr₃ hstore ha (by rw [hm, if_pos rfl, hz, hd, hc])
  cases hu : op.isUnary with
  | true =>
    simp only [operate, hu, if_true, bind_eq_ok] at h
    obtain ⟨⟨z, ram₂⟩, hpop, hpush⟩ := h
    cases op <;> simp [Operator.isUnary] at hu
    · exact hfinish hr hpop hpush rfl rfl
    · exact hfinish hr hpop hpush rfl rfl
  | false =>
    simp only [operate, hu, Bool.false_eq_true, if_false, bind_eq_ok] at h
    obtain ⟨⟨y, ram₂⟩, hpop, ⟨z, ram₃⟩, hpop', hpush⟩ := h
    have hcode : operatorCode op number =
        popD ++ (decrementSp ++ pointAtTop ++ [Line.toM (binary op)] ++ incrementSp) := by
      cases op <;> simp [Operator.isUnary, Operator.isComparison] at hu hop <;>
        simp [operatorCode, Operator.isUnary, combine, unary?, comparisonJump?, binary]
    rw [hcode, codeOps_append]
    refine (yields_popD hr hpop).append fun t ht => ?_
    obtain ⟨rfl, hr₂, -⟩ := ht
    refine hfinish hr₂ hpop' hpush ?_ ?_
    · cases op <;> simp [Operator.isUnary, Operator.isComparison] at hu hop <;>
        simp [binary, binaryValue, Computation.eval, BitVec.add_comm, BitVec.and_comm,
          BitVec.or_comm]
    · cases op <;> simp [Operator.isUnary, Operator.isComparison] at hu hop <;> rfl

/-! ## Push and pop -/

theorem yields_numberToD {n : Int} (hn : LoadsNumber p n) :
    Yields (codeOps p (numberToD n)) s fun t => t.d = Word.ofInt n ∧ t.ram = s.ram := by
  obtain ⟨m, hops, hm⟩ := hn
  simp [Yields, numberToD, hops, hm, Computation.usesMemory, Computation.operand?, Computation.eval]

theorem yields_fetchBased {r : Register} {index : Int} {base : Word} (hn : LoadsNumber p index)
    (hr : Agrees v ram s.ram) (hbase : load v r.word ram = .ok base)
    (hx : load v (base + Word.ofInt index) ram = .ok x) :
    Yields (codeOps p
      (numberToD index ++ [Line.load (.register r), .toA (.add .m), .toD (.y .m)])) s
      fun t => t.d = x ∧ t.ram = s.ram := by
  rw [codeOps_append]
  refine (yields_numberToD hn).append fun t ht => ?_
  obtain ⟨hd, ht⟩ := ht
  rw [← ht] at hr ⊢
  obtain ⟨hlt, rfl⟩ := hr.loadAt r.address (toNat_word r) hbase
  rw [BitVec.add_comm] at hx
  obtain ⟨hlt', rfl⟩ := hr.load hx
  simp [Yields, Computation.usesMemory, Computation.operand?, Computation.eval, hlt, hlt', hd,
    -BitVec.toNat_add]

theorem yields_addressBased {r : Register} {index : Int} {base : Word} (hn : LoadsNumber p index)
    (hr : Agrees v ram s.ram) (hbase : load v r.word ram = .ok base) :
    Yields (codeOps p (numberToD index ++ [Line.load (.register r), .toD (.add .m)])) s
      fun t => t.d = base + Word.ofInt index ∧ t.ram = s.ram := by
  rw [codeOps_append]
  refine (yields_numberToD hn).append fun t ht => ?_
  obtain ⟨hd, ht⟩ := ht
  rw [← ht] at hr ⊢
  obtain ⟨hlt, rfl⟩ := hr.loadAt r.address (toNat_word r) hbase
  simp [Yields, Computation.usesMemory, Computation.operand?, Computation.eval, hlt, hd,
    BitVec.add_comm]

theorem yields_addressFixed {base index : Int} (hb : LoadsNumber p base)
    (hn : LoadsNumber p index) :
    Yields (codeOps p (numberToD index ++ [Line.number base, .toD (.add .a)])) s
      fun t => t.d = Word.ofInt base + Word.ofInt index ∧ t.ram = s.ram := by
  rw [codeOps_append]
  refine (yields_numberToD hn).append fun t ht => ?_
  obtain ⟨m, hops, hm⟩ := hb
  simp [Yields, hops, hm, Computation.usesMemory, Computation.operand?, Computation.eval, ht.1,
    ht.2, BitVec.add_comm]

theorem yields_fetchFixed {base index : Int} (hb : LoadsNumber p base) (hn : LoadsNumber p index)
    (hr : Agrees v ram s.ram) (hx : load v (Word.ofInt base + Word.ofInt index) ram = .ok x) :
    Yields (codeOps p (numberToD index ++ [Line.number base, .toA (.add .a), .toD (.y .m)])) s
      fun t => t.d = x ∧ t.ram = s.ram := by
  rw [codeOps_append]
  refine (yields_numberToD hn).append fun t ht => ?_
  obtain ⟨hd, ht⟩ := ht
  rw [← ht] at hr ⊢
  rw [BitVec.add_comm] at hx
  obtain ⟨hlt, rfl⟩ := hr.load hx
  obtain ⟨m, hops, hm⟩ := hb
  simp [Yields, hops, hm, Computation.usesMemory, Computation.operand?, Computation.eval, hlt, hd,
    -BitVec.toNat_add]

/-- What the assembler gives for the static symbols of a module: their cells. -/
def LoadsStatic (p : Assembly) (module : Option String) (cell : Option Int) (index : Int) : Prop :=
  ∀ m n, module = some m → cell = some n → (Line.load (.static m index)).ops p = [.load n]

theorem addressOf_static {module : Option String} {cell : Option Int} {index : Int} {a : Word}
    {m : String} (hs : LoadsStatic p module cell index) (hm : module = some m)
    (ha : addressOf v cell .static index ram = .ok a) :
    ∃ n : Int, (Line.load (.static m index)).ops p = [.load n] ∧ encodeLoad n = a := by
  cases cell with
  | none => simp [addressOf] at ha
  | some n =>
    simp only [addressOf] at ha
    split at ha
    · next hn =>
      obtain rfl := Except.ok.inj ha
      have : (memoryWords : Int) = 32768 := rfl
      exact ⟨n, hs m n hm rfl, encodeLoad_ofInt hn.1 (by omega)⟩
    · simp at ha

theorem addressOf_based {cell : Option Int} {segment : Segment} {r : Register} {index : Int}
    {a : Word} (hreg : baseRegister? segment = some r)
    (ha : addressOf v cell segment index ram = .ok a) :
    ∃ base, load v r.word ram = .ok base ∧ a = base + Word.ofInt index := by
  cases segment <;> simp only [baseRegister?, Option.some.injEq, reduceCtorEq] at hreg <;>
    subst hreg <;> simp only [addressOf, bind_eq_ok] at ha <;> obtain ⟨base, hb, ha⟩ := ha <;>
    exact ⟨base, hb, (Except.ok.inj ha).symm⟩

theorem addressOf_fixed {cell : Option Int} {segment : Segment} {index : Int} {a : Word}
    (hreg : baseRegister? segment = none) (hstatic : segment ≠ .static)
    (ha : addressOf v cell segment index ram = .ok a) :
    a = Word.ofInt (fixedBase segment) + Word.ofInt index := by
  cases segment with
  | pointer => exact (Except.ok.inj ha).symm
  | temp => exact (Except.ok.inj ha).symm
  | static => exact absurd rfl hstatic
  | constant => cases ha
  | locals | arguments | this | that => simp [baseRegister?] at hreg

/-- The code of a push follows the stack machine. -/
theorem yields_pushCode {module : Option String} {cell : Option Int} {segment : Segment}
    {index : Int} {code : Code} (hcode : pushCode module segment index = .ok code)
    (hnumber : ∀ n, .number n ∈ code → LoadsNumber p n) (hs : LoadsStatic p module cell index)
    (hr : Agrees v ram s.ram) (h : pushFrom v cell segment index ram = .ok ram₁) :
    Yields (codeOps p code) s fun t => Agrees v ram₁ t.ram := by
  have hpush {x : Word} {t : Data} (hd : t.d = x) (ht : t.ram = s.ram)
      (h : push v x ram = .ok ram₁) : Yields (codeOps p pushD) t fun t => Agrees v ram₁ t.ram :=
    yields_pushD (ht ▸ hr) (hd ▸ h)
  unfold pushFrom at h
  by_cases hconst : segment = .constant
  · subst hconst
    rw [if_pos rfl] at h
    obtain rfl := Except.ok.inj hcode
    have hn := hnumber index (by simp [numberToD])
    rw [codeOps_append]
    exact (yields_numberToD hn).append fun t ht => hpush ht.1 ht.2 h
  · rw [if_neg hconst] at h
    simp only [bind_eq_ok] at h
    obtain ⟨a, ha, x, hx, h⟩ := h
    cases hreg : baseRegister? segment with
    | some r =>
      obtain ⟨base, hb, rfl⟩ := addressOf_based hreg ha
      have hform : code = numberToD index ++
          [Line.load (.register r), .toA (.add .m), .toD (.y .m)] ++ pushD := by
        cases segment <;> simp_all [pushCode, baseRegister?]
      subst hform
      have hn := hnumber index (by simp [numberToD])
      rw [codeOps_append]
      exact (yields_fetchBased hn hr hb hx).append fun t ht => hpush ht.1 ht.2 h
    | none =>
      by_cases hstatic : segment = .static
      · subst hstatic
        cases module with
        | none => simp [pushCode, staticSymbol, Except.map] at hcode
        | some m =>
          obtain ⟨n, hops, rfl⟩ := addressOf_static hs rfl ha
          obtain rfl := Except.ok.inj hcode
          obtain ⟨hlt, rfl⟩ := hr.load hx
          rw [codeOps_append]
          refine Yields.append (P := fun t => t.d = s.ram.get (encodeLoad n).toNat ∧ t.ram = s.ram)
            ?_ fun t ht => hpush ht.1 ht.2 h
          simp [Yields, hops, Computation.usesMemory, Computation.operand?, Computation.eval, hlt]
      · have hform : code = numberToD index ++
            [Line.number (fixedBase segment), .toA (.add .a), .toD (.y .m)] ++ pushD := by
          cases segment <;> simp_all [pushCode, baseRegister?]
        obtain rfl := addressOf_fixed hreg hstatic ha
        subst hform
        have hn := hnumber index (by simp [numberToD])
        have hb := hnumber (fixedBase segment) (by simp [numberToD])
        rw [codeOps_append]
        exact (yields_fetchFixed hb hn hr hx).append fun t ht => hpush ht.1 ht.2 h

/-- Storing the popped value at the address in D, which is noted down meanwhile. -/
theorem yields_popToD {a y : Word} {ram₂ : Ram} (hr : Agrees v ram s.ram) (hd : s.d = a)
    (hpop : pop v (note v 13 a ram) = .ok (y, ram₂)) (hstore : store v a y ram₂ = .ok ram₁) :
    Yields (codeOps p popToD) s fun t => Agrees v ram₁ t.ram := by
  have hcell : 13 < s.ram.size := by rw [hr.size']; decide
  rw [popToD, codeOps_append, codeOps_append]
  -- D is needed for the popped value, so the address waits in the cell of the note.
  have hnote : Yields (codeOps p [Line.load (.register .r13), .toM .d]) s fun t =>
      t.ram = s.ram.set 13 a := by
    simp [Yields, Computation.usesMemory, Computation.operand?, Computation.eval, hcell, hd]
  refine (hnote.append (Q := fun t => t.d = y ∧ Agrees v ram₂ t.ram ∧ t.ram.get 13 = a)
    fun t ht => ?_).append fun t ht => ?_
  · have hr' : Agrees v (note v 13 a ram) t.ram := ht ▸ hr.note (.inl rfl)
    refine (yields_popD hr' hpop).mono fun u hu => ?_
    obtain ⟨hy, hr₂, w, hw⟩ := hu
    refine ⟨hy, hr₂, ?_⟩
    rw [hw, ht, Ram.get_set, if_neg (by simp), Ram.get_set, if_pos ⟨rfl, hcell⟩]
  · obtain ⟨hy, hr₂, ha⟩ := ht
    obtain ⟨-, hlt, hr₁⟩ := hr₂.store hstore
    have hcell' : 13 < t.ram.size := by rw [hr₂.size']; decide
    simpa [Yields, Computation.usesMemory, Computation.operand?, Computation.eval, hcell', ha, hlt,
      hy] using hr₁

/-- The code of a pop follows the stack machine. -/
theorem yields_popCode {module : Option String} {cell : Option Int} {segment : Segment}
    {index : Int} {code : Code} (hcode : popCode module segment index = .ok code)
    (hnumber : ∀ n, .number n ∈ code → LoadsNumber p n) (hs : LoadsStatic p module cell index)
    (hr : Agrees v ram s.ram) (h : popInto v cell segment index ram = .ok ram₁) :
    Yields (codeOps p code) s fun t => Agrees v ram₁ t.ram := by
  simp only [popInto, bind_eq_ok] at h
  -- The segment has a base in a register, or is that of static variables, or has fixed cells.
  obtain ⟨a, ha, ⟨y, ram₂⟩, hpop, hstore⟩ := h
  cases hreg : baseRegister? segment with
  | some r =>
    obtain ⟨base, hb, rfl⟩ := addressOf_based hreg ha
    have hform : code = numberToD index ++ [Line.load (.register r), .toD (.add .m)] ++ popToD := by
      cases segment <;> simp_all [popCode, baseRegister?]
    have hstatic : segment ≠ .static := by
      rintro rfl
      simp [baseRegister?] at hreg
    rw [if_neg hstatic] at hpop
    subst hform
    have hn := hnumber index (by simp [numberToD])
    rw [codeOps_append]
    exact (yields_addressBased hn hr hb).append fun t ht =>
      yields_popToD (ht.2 ▸ hr) ht.1 hpop hstore
  | none =>
    by_cases hstatic : segment = .static
    · subst hstatic
      rw [if_pos rfl] at hpop
      cases module with
      | none => simp [popCode, staticSymbol, Except.map] at hcode
      | some m =>
        obtain ⟨n, hops, rfl⟩ := addressOf_static hs rfl ha
        obtain rfl := Except.ok.inj hcode
        rw [codeOps_append]
        refine (yields_popD hr hpop).append fun t ht => ?_
        obtain ⟨rfl, hr₂, -⟩ := ht
        obtain ⟨-, hlt, hr₁⟩ := hr₂.store hstore
        simpa [Yields, hops, Computation.usesMemory, Computation.operand?, Computation.eval, hlt]
          using hr₁
    · have hconst : segment ≠ .constant := by
        rintro rfl
        simp [popCode] at hcode
      have hform : code = numberToD index ++
          [Line.number (fixedBase segment), .toD (.add .a)] ++ popToD := by
        cases segment <;> simp_all [popCode, baseRegister?]
      obtain rfl := addressOf_fixed hreg hstatic ha
      rw [if_neg hstatic] at hpop
      subst hform
      have hn := hnumber index (by simp [numberToD])
      have hb := hnumber (fixedBase segment) (by simp [numberToD])
      rw [codeOps_append]
      exact (yields_addressFixed hb hn).append fun t ht =>
        yields_popToD (ht.2 ▸ hr) ht.1 hpop hstore

/-! ## Functions -/

theorem yields_zeroLocals {count : Nat} (hr : Agrees v ram s.ram)
    (h : clearLocals v count ram = .ok ram₁) :
    Yields (codeOps p (zeroLocals count)) s fun t => Agrees v ram₁ t.ram := by
  induction count generalizing ram s with
  | zero =>
    obtain rfl := Except.ok.inj h
    exact ⟨s, rfl, hr⟩
  | succ count ih =>
    simp only [clearLocals, bind_eq_ok] at h
    obtain ⟨ram₂, hpush, hrest⟩ := h
    have hcode : zeroLocals (count + 1) = [Line.toD .zero] ++ pushD ++ zeroLocals count := rfl
    rw [hcode, codeOps_append, codeOps_append]
    refine (Yields.append (P := fun t => t.d = 0 ∧ t.ram = s.ram) ?_
      fun t ht => yields_pushD (ht.2 ▸ hr) (ht.1 ▸ hpush)).append fun t ht => ih ht hrest
    simp [Yields, Computation.usesMemory, Computation.operand?, Computation.eval]

theorem yields_saveCode {r : Register} (hr : Agrees v ram s.ram)
    (hx : load v r.word ram = .ok x) (h : push v x ram = .ok ram₁) :
    Yields (codeOps p (saveCode r)) s fun t => Agrees v ram₁ t.ram := by
  obtain ⟨hlt, rfl⟩ := hr.loadAt r.address (toNat_word r) hx
  rw [saveCode, codeOps_append]
  refine Yields.append (P := fun t => t.d = s.ram.get r.address ∧ t.ram = s.ram) ?_
    fun t ht => yields_pushD (ht.2 ▸ hr) (ht.1 ▸ h)
  simp [Yields, Computation.usesMemory, Computation.operand?, Computation.eval, hlt]

theorem yields_save (rs : List Register) (hr : Agrees v ram s.ram)
    (h : save v (rs.map Register.word) ram = .ok ram₁) :
    Yields (codeOps p (rs.flatMap saveCode)) s fun t => Agrees v ram₁ t.ram := by
  induction rs generalizing ram s with
  | nil =>
    obtain rfl := Except.ok.inj h
    exact ⟨s, rfl, hr⟩
  | cons r rs ih =>
    simp only [List.map_cons, save, bind_eq_ok] at h
    obtain ⟨x, hx, ram₂, hpush, hrest⟩ := h
    rw [List.flatMap_cons, codeOps_append]
    exact (yields_saveCode hr hx hpush).append fun t ht => ih ht hrest

/-- The code of a call up to the jump. -/
def enterCode (module : Option String) (number : Int) (argumentCount : Int) : Code :=
  [Line.load (.returnAddress module number), .toD (.y .a)] ++ pushD ++
    savedRegisters.flatMap saveCode ++
    [Line.load (.register .sp), .toD (.y .m), .number (argumentCount + frameSize),
      .toD (.dMinusY .a), .load (.register .arg), .toM .d] ++
    [Line.load (.register .sp), .toD (.y .m), .load (.register .lcl), .toM .d]

theorem callCode_eq (module : Option String) (number : Int) (name : String) (argumentCount : Int) :
    callCode module number name argumentCount =
      enterCode module number argumentCount ++ [Line.load (.function name)] ++ [Line.jump] ++
        [Line.define (.returnAddress module number)] := by
  simp [callCode, enterCode]

/-- The code of a call up to the jump builds the frame. -/
theorem yields_enterCode {module : Option String} {number argumentCount place : Int}
    {returnAddress : Word}
    (hret : (Line.load (.returnAddress module number)).ops p = [.load place])
    (hplace : encodeLoad place = returnAddress) (hn : LoadsNumber p (argumentCount + frameSize))
    (hr : Agrees v ram s.ram) (h : enter v returnAddress argumentCount ram = .ok ram₁) :
    Yields (codeOps p (enterCode module number argumentCount)) s fun t => Agrees v ram₁ t.ram := by
  simp only [enter, bind_eq_ok] at h
  obtain ⟨ram₂, hpush, ram₃, hsave, sp, hsp, ram₄, harg, sp', hsp', hlcl⟩ := h
  simp only [enterCode, codeOps_append]
  refine ((((Yields.append (P := fun t => t.d = returnAddress ∧ t.ram = s.ram) ?_
    fun t ht => yields_pushD (ht.2 ▸ hr) (ht.1 ▸ hpush)).append fun t ht =>
      yields_save savedRegisters ht hsave).append (Q := fun t => Agrees v ram₄ t.ram)
        fun t ht => ?_)).append fun t ht => ?_
  · simp [Yields, hret, hplace, Computation.usesMemory, Computation.operand?, Computation.eval]
  · obtain ⟨hlt, rfl⟩ := ht.loadAt 0 rfl hsp
    obtain ⟨-, hlt', hr₄⟩ := ht.storeAt 2 rfl harg
    obtain ⟨m, hops, hm⟩ := hn
    have hframe : argumentCount + frameSize = argumentCount + 5 := rfl
    rw [hframe] at hops hm
    simpa [Yields, hframe, hops, hm, Computation.usesMemory, Computation.operand?,
      Computation.eval, hlt, hlt'] using hr₄
  · obtain ⟨hlt, rfl⟩ := ht.loadAt 0 rfl hsp'
    obtain ⟨-, hlt', hr₁⟩ := ht.storeAt 1 rfl hlcl
    simpa [Yields, Computation.usesMemory, Computation.operand?, Computation.eval, hlt, hlt']
      using hr₁

/-- The code that gives registers back their saved contents, from so many cells below the frame's
end on. -/
def restoreFrom (offset : Nat) : List Register → Code
  | [] => []
  | r :: rest => restoreCode r offset ++ restoreFrom (offset + 1) rest

/-- The code that notes the end of the frame and the return address down. -/
def noteFrameCode : Code :=
  [Line.load (.register .lcl), .toD (.y .m), .load (.register .r13), .toM .d] ++
    [Line.number frameSize, .toA (.dMinusY .a), .toD (.y .m), .load (.register .r14), .toM .d]

/-- The code that puts the result in place and ends the stack above it. -/
def storeResultCode : Code :=
  popD ++ [Line.load (.register .arg), .toA (.y .m), .toM .d] ++
    [Line.load (.register .arg), .toD (.incY .m), .load (.register .sp), .toM .d]

/-- The code of a return up to the jump. -/
def leaveCode : Code :=
  noteFrameCode ++ storeResultCode ++ restoreFrom 1 [.that, .this, .arg, .lcl] ++
    [Line.load (.register .r14), .toA (.y .m)]

theorem returnCode_eq : returnCode = leaveCode ++ [Line.jump] := by decide

/-- Memories agree, and in the second the two notes of a return are found. -/
structure Returning (v : Notes) (frame returnAddress : Word) (ram other : Ram) : Prop where
  agrees : Agrees v ram other
  frame : HoldsNote v 13 frame other
  returnAddress : HoldsNote v 14 returnAddress other

theorem Returning.store {frame returnAddress a y : Word} {ram ram₁ other : Ram}
    (h : Returning v frame returnAddress ram other) (hs : store v a y ram = .ok ram₁) :
    a.toNat < other.size ∧ Returning v frame returnAddress ram₁ (other.set a.toNat y) := by
  obtain ⟨hallow, hlt, hr⟩ := h.agrees.store hs
  exact ⟨hlt, hr, h.frame.set (.inl rfl) hallow, h.returnAddress.set (.inr rfl) hallow⟩

theorem yields_restoreCode {r : Register} {offset : Nat} {frame returnAddress : Word}
    (hn : LoadsNumber p offset) (hr : Returning v frame returnAddress ram s.ram)
    (hx : load v (noted v 13 frame ram - BitVec.ofNat 16 offset) ram = .ok x)
    (h : store v r.word x ram = .ok ram₁) :
    Yields (codeOps p (restoreCode r offset)) s fun t =>
      Returning v frame returnAddress ram₁ t.ram := by
  rw [noted_eq hr.agrees hr.frame] at hx
  obtain ⟨hlt, rfl⟩ := hr.agrees.load hx
  obtain ⟨hlt', hr₁⟩ := hr.store h
  rw [toNat_word] at hlt' hr₁
  obtain ⟨m, hops, hm⟩ := hn
  have hcell : 13 < s.ram.size := by rw [hr.agrees.size']; decide
  have hword : Word.ofInt (offset : Int) = BitVec.ofNat 16 offset := BitVec.ofInt_natCast ..
  simpa [Yields, restoreCode, hops, hm, hword, Computation.usesMemory, Computation.operand?,
    Computation.eval, hcell, hlt, hlt', -BitVec.toNat_sub] using hr₁

theorem yields_restoreFrom (rs : List Register) {offset : Nat} {frame returnAddress : Word}
    (hn : ∀ n, .number n ∈ restoreFrom offset rs → LoadsNumber p n)
    (hr : Returning v frame returnAddress ram s.ram)
    (h : restore v frame offset (rs.map Register.word) ram = .ok ram₁) :
    Yields (codeOps p (restoreFrom offset rs)) s fun t =>
      Returning v frame returnAddress ram₁ t.ram := by
  induction rs generalizing offset ram s with
  | nil =>
    obtain rfl := Except.ok.inj h
    exact ⟨s, rfl, hr⟩
  | cons r rs ih =>
    simp only [List.map_cons, restore, bind_eq_ok] at h
    obtain ⟨x, hx, ram₂, hstore, hrest⟩ := h
    have hoffset := hn offset (by simp [restoreFrom, restoreCode])
    rw [restoreFrom, codeOps_append]
    exact (yields_restoreCode hoffset hr hx hstore).append fun t ht =>
      ih (fun n hmem => hn n (List.mem_append_right _ hmem)) ht hrest

/-- Noting the end of the frame and the return address down. -/
theorem yields_noteFrameCode {frame returnAddress : Word} (hn : LoadsNumber p frameSize)
    (hr : Agrees v ram s.ram) (hframe : load v 1 ram = .ok frame)
    (hret : load v (frame - 5) (note v 13 frame ram) = .ok returnAddress) :
    Yields (codeOps p noteFrameCode) s fun t =>
      Returning v frame returnAddress (note v 14 returnAddress (note v 13 frame ram)) t.ram := by
  obtain ⟨hlt, rfl⟩ := hr.loadAt 1 rfl hframe
  have hr₁ := hr.note (x := s.ram.get 1) (.inl rfl)
  obtain ⟨hlt', rfl⟩ := hr₁.load hret
  have hr₂ := hr₁.note (x := (s.ram.set 13 (s.ram.get 1)).get (s.ram.get 1 - 5).toNat) (.inr rfl)
  have hsize : s.ram.size = memoryWords := hr.size'
  have h13 : 13 < s.ram.size := by rw [hsize]; decide
  have h14 : 14 < s.ram.size := by rw [hsize]; decide
  have hreturning : Returning v (s.ram.get 1)
      ((s.ram.set 13 (s.ram.get 1)).get (s.ram.get 1 - 5).toNat) _ _ :=
    ⟨hr₂, (holdsNote_set h13).set_of_ne (by decide), holdsNote_set (by rwa [Ram.size_set])⟩
  obtain ⟨m, hops, hm⟩ := hn
  have hfive : Word.ofInt frameSize = 5#16 := rfl
  have hlt' : (s.ram.get 1 - 5#16).toNat < s.ram.size := by rwa [Ram.size_set] at hlt'
  simpa [Yields, noteFrameCode, hops, hm, hfive, Computation.usesMemory, Computation.operand?,
    Computation.eval, hlt, hlt', h13, h14, Ram.size_set, -BitVec.toNat_sub] using hreturning

/-- Putting the result in place and ending the stack above it. -/
theorem yields_storeResultCode {frame returnAddress y arg arg' : Word} {ram₂ ram₃ : Ram}
    (hr : Returning v frame returnAddress ram s.ram) (hpop : pop v ram = .ok (y, ram₂))
    (harg : load v 2 ram₂ = .ok arg) (hstore : store v arg y ram₂ = .ok ram₃)
    (harg' : load v 2 ram₃ = .ok arg') (hsp : store v 0 (arg' + 1) ram₃ = .ok ram₁) :
    Yields (codeOps p storeResultCode) s fun t => Returning v frame returnAddress ram₁ t.ram := by
  rw [storeResultCode, codeOps_append, codeOps_append]
  refine (Yields.append (P := fun t => t.d = y ∧ Returning v frame returnAddress ram₂ t.ram)
    (Q := fun t => Returning v frame returnAddress ram₃ t.ram) ?_ fun t ht => ?_).append
      fun t ht => ?_
  · refine (yields_popD hr.agrees hpop).mono fun t ht => ?_
    obtain ⟨hd, hr₂, w, hw⟩ := ht
    refine ⟨hd, hr₂, ?_, ?_⟩
    · exact hw ▸ hr.frame.set_of_ne (by decide)
    · exact hw ▸ hr.returnAddress.set_of_ne (by decide)
  · obtain ⟨hd, ht⟩ := ht
    obtain ⟨hlt, rfl⟩ := ht.agrees.loadAt 2 rfl harg
    obtain ⟨hlt', hr₃⟩ := ht.store hstore
    simpa [Yields, Computation.usesMemory, Computation.operand?, Computation.eval, hlt, hlt', hd]
      using hr₃
  · obtain ⟨hlt, rfl⟩ := ht.agrees.loadAt 2 rfl harg'
    obtain ⟨hlt', hr₁⟩ := ht.store hsp
    simpa [Yields, Computation.usesMemory, Computation.operand?, Computation.eval, hlt,
      show 0 < t.ram.size from hlt'] using hr₁

/-- The code of a return up to the jump tears the frame down, and points at the return address. -/
theorem yields_leaveCode {returnAddress : Word}
    (hn : ∀ n, .number n ∈ leaveCode → LoadsNumber p n) (hr : Agrees v ram s.ram)
    (h : leave v ram = .ok (returnAddress, ram₁)) :
    Yields (codeOps p leaveCode) s fun t => t.a = returnAddress ∧ Agrees v ram₁ t.ram := by
  simp only [leave, bind_eq_ok] at h
  obtain ⟨frame, hframe, ret, hret, ⟨y, ram₂⟩, hpop, arg, harg, ram₃, hstore, arg', harg', ram₄,
    hsp, ram₅, hrestore, h⟩ := h
  obtain ⟨rfl, rfl⟩ := Prod.mk.inj (Except.ok.inj h)
  rw [leaveCode, codeOps_append, codeOps_append, codeOps_append]
  have hfive := hn frameSize (by simp [leaveCode, noteFrameCode])
  refine (((yields_noteFrameCode hfive hr hframe hret).append fun t ht =>
    yields_storeResultCode ht hpop harg hstore harg' hsp).append fun t ht =>
      yields_restoreFrom [.that, .this, .arg, .lcl] (fun n hmem => hn n (by
        simp only [leaveCode, List.mem_append]
        exact .inl (.inr hmem))) ht hrestore).append fun t ht => ?_
  have hcell : 14 < t.ram.size := by rw [ht.agrees.size']; decide
  have hnoted := noted_eq ht.agrees ht.returnAddress
  simpa [Yields, Computation.usesMemory, Computation.operand?, Computation.eval, hcell, hnoted]
    using ht.agrees

end HackToolchain.Codegen
