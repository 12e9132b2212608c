import HackToolchain.Proofs.Codegen.Blocks
import HackToolchain.Proofs.Codegen.Statics
import HackToolchain.Proofs.Codegen.Symbols
import HackToolchain.Proofs.Vm.Effects

/-!
# Running placed code

The processor runs through straight code that is placed in a program (`Placed.reaches_of_yields`).
The code of the operators, of calls and of returns jumps as well: comparisons to the places that
they define themselves, calls to the function, and returns to the address that is found in the
frame. All of it does on the processor what the stack machine does, wherever it is placed
(`Placed.reaches_operatorCode`, `Placed.reaches_callCode`, `Placed.reaches_returnCode`).
-/

set_option autoImplicit false

namespace HackToolchain.Codegen

open Text Machine Asm Vm

variable {p : Assembly} {address : Nat} {v : Notes} {ram ram₁ : Ram} {s : Data} {Q : Data → Prop}

namespace Placed

/-- The processor runs through a straight piece of placed code. -/
theorem reaches_of_yields (c₁ c₂ c₃ : Code) (hp : Placed p address (c₁ ++ c₂ ++ c₃))
    (hsize : p.words.size ≤ 65536) (h : Yields (codeOps p c₂) s Q) :
    ∃ t, Q t ∧ Core.Reaches p.words (s.before (address + (codeOps p c₁).length))
      (t.before (address + (codeOps p (c₁ ++ c₂)).length)) := by
  obtain ⟨t, ht, hq⟩ := h
  have := reaches_of_runOps hsize (hp.part c₁ c₂ c₃).holds ht
  rw [codeOps_append, List.length_append, ← Nat.add_assoc]
  exact ⟨t, hq, this⟩

theorem getElem?_act {a : Action} {c₁ c₃ : Code}
    (hp : Placed p address (c₁ ++ [Line.act a] ++ c₃)) :
    p.words[address + (codeOps p c₁).length]? = some a.encode := by
  have h := (hp.part c₁ [Line.act a] c₃).holds
  rw [codeOps_cons, Line.ops_act, codeOps_nil, List.append_nil, List.map_singleton] at h
  exact h 0 _ rfl

theorem reaches_of_jump (c₁ c₃ : Code) (hp : Placed p address (c₁ ++ [Line.jump] ++ c₃))
    (hsize : p.words.size ≤ 65536) (s : Data) :
    Core.Reaches p.words (s.before (address + (codeOps p c₁).length)) (s.before s.a.toNat) :=
  reaches_jump hsize s hp.getElem?_act

theorem reaches_of_jumpOnD (jump : Jump) (c₁ c₃ : Code)
    (hp : Placed p address (c₁ ++ [Line.jumpOnD jump] ++ c₃)) (hsize : p.words.size ≤ 65536)
    (s : Data) :
    Core.Reaches p.words (s.before (address + (codeOps p c₁).length))
      (s.before
        (if jump.holds s.d.signed then s.a.toNat
        else address + (codeOps p (c₁ ++ [Line.jumpOnD jump])).length)) := by
  have hops : codeOps p [Line.jumpOnD jump] = [.act { computation := .d, jump := some jump }] := by
    rw [codeOps_cons, codeOps_nil, List.append_nil]
    exact Line.ops_act p _
  have hlength : (codeOps p (c₁ ++ [Line.jumpOnD jump])).length = (codeOps p c₁).length + 1 := by
    rw [codeOps_append, List.length_append, hops, List.length_singleton]
  have := reaches_jumpOnD hsize s hp.getElem?_act
  rwa [Nat.add_assoc, ← hlength] at this

/-- The address of placed code is loaded as it is. -/
theorem toNat_encodeLoad {c : Code} (hp : Placed p address c) (hsize : p.words.size ≤ 32767) :
    (encodeLoad (address : Int)).toNat = address :=
  toNat_encodeLoad_of_lt (by have := hp.end_le; omega)

end Placed

/-! ## Static variables -/

/-- The cell that the assembler gave to a static variable. -/
def staticCell (p : Assembly) (module : Option String) (index : Int) : Option Int :=
  module.bind fun m => (Symbol.static m index).operand?.bind p.vars.find?

theorem Placed.loadsStatic {c : Code} (h : Placed p address c) (module : Option String)
    (index : Int) :
    LoadsStatic p module (staticCell p module index) index := by
  rintro m n rfl hcell
  rw [staticCell, Option.bind_some, Option.bind_eq_some_iff] at hcell
  obtain ⟨operand, hoperand, hfind⟩ := hcell
  exact h.ops_load_of_var (Symbol.operand?_eq_some.1 hoperand) hfind

/-! ## Comparisons -/

/-- The value of a comparison: its jump is taken for the difference of the operands, or not. -/
theorem binaryValue_of_comparison {op : Operator} {jump : Jump}
    (hj : comparisonJump? op = some jump)
    (x y : Word) : binaryValue op x y = truth (jump.holds (x - y).signed) := by
  cases op <;> simp only [comparisonJump?, Option.some.injEq, reduceCtorEq] at hj <;> subst hj <;>
    rfl

/-- The code of a comparison up to its jump. -/
def compareCode (number : Int) : Code :=
  popD ++ (decrementSp ++ pointAtTop) ++
    [Line.toD (.yMinusD .m), .load (.comparison .holds number)]

/-- The code of a comparison that does not hold, up to its jump. -/
def denyCode (number : Int) : Code :=
  pointAtTop ++ [Line.toM .zero] ++ [Line.load (.comparison .done number)]

/-- The code of a comparison up to the branch that affirms. -/
def untilAffirmed (jump : Jump) (number : Int) : Code :=
  compareCode number ++ [Line.jumpOnD jump] ++ denyCode number ++ [Line.jump]

/-- The code of a comparison up to where the branches meet. -/
def untilMet (jump : Jump) (number : Int) : Code :=
  untilAffirmed jump number ++ [Line.define (.comparison .holds number)] ++
    (pointAtTop ++ [Line.toM .minusOne])

theorem operatorCode_of_comparison {op : Operator} {number : Int} {jump : Jump}
    (hj : comparisonJump? op = some jump) :
    operatorCode op number =
      untilMet jump number ++ [Line.define (.comparison .done number)] ++ incrementSp := by
  cases op <;> simp only [comparisonJump?, Option.some.injEq, reduceCtorEq] at hj <;> subst hj <;>
    simp [operatorCode, Operator.isUnary, combine, unary?, comparisonJump?, comparison, compareCode,
      denyCode, untilAffirmed, untilMet]

theorem yields_compareCode {number place : Int} {x y : Word} {ram₂ : Ram}
    (hload : (Line.load (.comparison .holds number)).ops p = [.load place])
    (hr : Agrees v ram s.ram) (hpop : pop v ram = .ok (y, ram₂))
    (hpop' : pop v ram₂ = .ok (x, ram₁)) :
    Yields (codeOps p (compareCode number)) s fun t =>
      t.d = x - y ∧ t.a = encodeLoad place ∧ Agrees v ram₁ t.ram := by
  rw [compareCode, codeOps_append, codeOps_append]
  refine ((yields_popD hr hpop).append (Q := fun t => t.d = y ∧ Agrees v ram₁ t.ram ∧
    t.a.toNat < t.ram.size ∧ t.ram.get t.a.toNat = x) fun t ht => ?_).append fun t ht => ?_
  · obtain ⟨rfl, hr₂, -⟩ := ht
    exact (yields_pointAtPopped hr₂ hpop').mono fun u hu =>
      ⟨hu.1, hu.2.1, hu.2.2.2.1, hu.2.2.2.2⟩
  · obtain ⟨rfl, hr₁, hlt, rfl⟩ := ht
    simpa [Yields, hload, Computation.usesMemory, Computation.operand?, Computation.eval, hlt]
      using hr₁

theorem yields_denyCode {number place : Int}
    (hload : (Line.load (.comparison .done number)).ops p = [.load place])
    (hr : Agrees v ram s.ram) (hstore : storeTop v 0 ram = .ok ram₁) :
    Yields (codeOps p (denyCode number)) s fun t =>
      t.a = encodeLoad place ∧ Agrees v ram₁ t.ram := by
  rw [denyCode, codeOps_append]
  refine (yields_storeTop hr hstore rfl fun _ => rfl).append fun t ht => ?_
  simpa [Yields, hload] using ht.2

/-- The code of a comparison stands at an address. -/
def Compares (p : Assembly) (address : Nat) (jump : Jump) (number : Int) : Prop :=
  Placed p address
    (untilMet jump number ++ [Line.define (.comparison .done number)] ++ incrementSp)

namespace Compares

variable {jump : Jump} {number : Int} (h : Compares p address jump number)

include h

theorem length_define (branch : Branch) :
    (codeOps p [Line.define (.comparison branch number)]).length = 0 := by
  have hops := Placed.ops_define h (unbroken_comparison branch number)
    (by cases branch <;> simp [untilMet])
  simp [hops]

/-- The branch that affirms. -/
theorem affirmed : Placed p (address + (codeOps p (untilAffirmed jump number)).length)
    (Line.define (.comparison .holds number) :: (pointAtTop ++ [Line.toM .minusOne])) := by
  refine Placed.part _ _ ([Line.define (.comparison .done number)] ++ incrementSp) ?_
  have := h
  rw [Compares, untilMet] at this
  simpa using this

/-- Where the branches meet. -/
theorem met : Placed p (address + (codeOps p (untilMet jump number)).length)
    (Line.define (.comparison .done number) :: incrementSp) := by
  refine Placed.part _ _ [] ?_
  have := h
  rw [Compares] at this
  simpa using this

theorem exists_read (branch : Branch) :
    ∃ a, (Line.load (.comparison branch number)).read = some a :=
  Placed.exists_read h (by cases branch <;> simp [untilMet, untilAffirmed, compareCode, denyCode])

theorem ops_load_holds : (Line.load (.comparison .holds number)).ops p =
    [.load ((address + (codeOps p (untilAffirmed jump number)).length : Nat) : Int)] := by
  obtain ⟨a, ha⟩ := h.exists_read .holds
  exact h.affirmed.ops_load_of_define ha

theorem ops_load_done : (Line.load (.comparison .done number)).ops p =
    [.load ((address + (codeOps p (untilMet jump number)).length : Nat) : Int)] := by
  obtain ⟨a, ha⟩ := h.exists_read .done
  exact h.met.ops_load_of_define ha

variable (hsize : p.words.size ≤ 32767)

include hsize

/-- Behind both branches the stack pointer moves up. -/
theorem reaches_end {d : Data} (hd : Agrees v ram d.ram) (hmove : moveUp v ram = .ok ram₁) :
    ∃ e : Data, Core.Reaches p.words
        (d.before (address + (codeOps p (untilMet jump number)).length))
        (e.before (address + (codeOps p (untilMet jump number ++
          [Line.define (.comparison .done number)] ++ incrementSp)).length)) ∧
      Agrees v ram₁ e.ram := by
  obtain ⟨e, ⟨-, he⟩, hreach⟩ := Placed.reaches_of_yields
    (untilMet jump number ++ [Line.define (.comparison .done number)]) incrementSp []
    (by simpa [Compares] using h) (by omega) (yields_incrementSp hd hmove)
  rw [codeOps_append, List.length_append, h.length_define, Nat.add_zero] at hreach
  exact ⟨e, hreach, he⟩

/-- The branch that affirms runs to where the branches meet. -/
theorem reaches_affirmed {d : Data} (hd : Agrees v ram d.ram)
    (hstore : storeTop v (truth true) ram = .ok ram₁) :
    ∃ e : Data, Core.Reaches p.words
        (d.before (address + (codeOps p (untilAffirmed jump number)).length))
        (e.before (address + (codeOps p (untilMet jump number)).length)) ∧ Agrees v ram₁ e.ram := by
  obtain ⟨e, ⟨-, he⟩, hreach⟩ := Placed.reaches_of_yields
    (untilAffirmed jump number ++ [Line.define (.comparison .holds number)])
    (pointAtTop ++ [Line.toM .minusOne])
    ([Line.define (.comparison .done number)] ++ incrementSp)
    (by simpa [Compares, untilMet] using h) (by omega)
    (yields_storeTop hd hstore rfl fun _ => rfl)
  rw [codeOps_append p (untilAffirmed jump number), List.length_append, h.length_define,
    Nat.add_zero] at hreach
  exact ⟨e, hreach, he⟩

/-- The branch that denies jumps there. -/
theorem reaches_denied {d : Data} (hd : Agrees v ram d.ram)
    (hstore : storeTop v (truth false) ram = .ok ram₁) :
    ∃ e : Data, Core.Reaches p.words
        (d.before (address + (codeOps p (compareCode number ++ [Line.jumpOnD jump])).length))
        (e.before (address + (codeOps p (untilMet jump number)).length)) ∧ Agrees v ram₁ e.ram := by
  obtain ⟨e, ⟨ha, he⟩, hreach⟩ := Placed.reaches_of_yields
    (compareCode number ++ [Line.jumpOnD jump]) (denyCode number)
    ([Line.jump] ++ [Line.define (.comparison .holds number)] ++
      (pointAtTop ++ [Line.toM .minusOne]) ++
      [Line.define (.comparison .done number)] ++ incrementSp)
    (by simpa [Compares, untilMet, untilAffirmed] using h) (by omega)
    (yields_denyCode h.ops_load_done hd hstore)
  have hjump := Placed.reaches_of_jump
    (compareCode number ++ [Line.jumpOnD jump] ++ denyCode number)
    ([Line.define (.comparison .holds number)] ++ (pointAtTop ++ [Line.toM .minusOne]) ++
      [Line.define (.comparison .done number)] ++ incrementSp)
    (by simpa [Compares, untilMet, untilAffirmed] using h) (by omega) e
  rw [ha, h.met.toNat_encodeLoad hsize] at hjump
  exact ⟨e, hreach.trans hjump, he⟩

end Compares

namespace Placed

/-- Comparing: the code for both outcomes meets behind the second. -/
theorem reaches_comparison {op : Operator} {number : Int} {jump : Jump}
    (hp : Placed p address (operatorCode op number)) (hsize : p.words.size ≤ 32767)
    (hj : comparisonJump? op = some jump) (h : operate v op ram = .ok ram₁) {d : Data}
    (hd : Agrees v ram d.ram) : ∃ e : Data,
      Core.Reaches p.words (d.before address)
        (e.before (address + (codeOps p (operatorCode op number)).length)) ∧
      Agrees v ram₁ e.ram := by
  have hbinary : op.isUnary = false := by
    cases op <;> first | rfl | simp [comparisonJump?] at hj
  simp only [operate, hbinary, Bool.false_eq_true, if_false, bind_eq_ok] at h
  obtain ⟨⟨y, ram₂⟩, hpop, ⟨x, ram₃⟩, hpop', hpush⟩ := h
  rw [binaryValue_of_comparison hj, push_eq, bind_eq_ok] at hpush
  obtain ⟨ram₄, hstore, hmove⟩ := hpush
  rw [operatorCode_of_comparison hj] at hp ⊢
  have hcompares : Compares p address jump number := hp
  obtain ⟨e, ⟨hdiff, ha, hr₃⟩, hreach⟩ := reaches_of_yields [] (compareCode number)
    ([Line.jumpOnD jump] ++ denyCode number ++ [Line.jump] ++
      [Line.define (.comparison .holds number)] ++ (pointAtTop ++ [Line.toM .minusOne]) ++
      [Line.define (.comparison .done number)] ++ incrementSp)
    (by simpa [untilMet, untilAffirmed] using hp) (by omega)
    (yields_compareCode hcompares.ops_load_holds hd hpop hpop')
  have hjump := reaches_of_jumpOnD jump (compareCode number)
    (denyCode number ++ [Line.jump] ++
      [Line.define (.comparison .holds number)] ++ (pointAtTop ++ [Line.toM .minusOne]) ++
      [Line.define (.comparison .done number)] ++ incrementSp)
    (by simpa [untilMet, untilAffirmed] using hp) (by omega) e
  rw [hdiff, ha, hcompares.affirmed.toNat_encodeLoad hsize] at hjump
  have hstart := hreach.trans hjump
  cases hh : jump.holds (x - y).signed with
  | true =>
    rw [hh] at hstore hstart
    obtain ⟨f, hbranch, hf⟩ := hcompares.reaches_affirmed hsize hr₃ hstore
    obtain ⟨g, hend, hg⟩ := hcompares.reaches_end hsize hf hmove
    exact ⟨g, (hstart.trans hbranch).trans hend, hg⟩
  | false =>
    rw [hh] at hstore hstart
    obtain ⟨f, hbranch, hf⟩ := hcompares.reaches_denied hsize hr₃ hstore
    obtain ⟨g, hend, hg⟩ := hcompares.reaches_end hsize hf hmove
    exact ⟨g, (hstart.trans hbranch).trans hend, hg⟩

/-- The code of an operator does what the operator does. -/
theorem reaches_operatorCode {op : Operator} {number : Int}
    (hp : Placed p address (operatorCode op number)) (hsize : p.words.size ≤ 32767)
    (h : operate v op ram = .ok ram₁) {d : Data} (hd : Agrees v ram d.ram) : ∃ e : Data,
      Core.Reaches p.words (d.before address)
        (e.before (address + (codeOps p (operatorCode op number)).length)) ∧
      Agrees v ram₁ e.ram := by
  cases hj : comparisonJump? op with
  | some jump => exact hp.reaches_comparison hsize hj h hd
  | none =>
    have hcompare : op.isComparison = false := by
      cases op <;> first | rfl | simp [comparisonJump?] at hj
    obtain ⟨e, he, hreach⟩ := reaches_of_yields [] (operatorCode op number) []
      (by simpa using hp) (by omega) (yields_operatorCode hd hcompare h)
    exact ⟨e, hreach, he⟩

/-! ## Calls and returns -/

/-- The code of a call, behind other code, builds the frame and goes to the function. It says to
return to where it ends. -/
theorem reaches_callCode (before : Code) {module : Option String} {name : String}
    {number argumentCount : Int} {target : Nat} {ram₂ : Ram}
    (hp : Placed p address (before ++ callCode module number name argumentCount))
    (hsize : p.words.size ≤ 32767)
    (hload : (Line.load (.function name)).ops p = [.load target]) (htarget : target ≤ 32767)
    (hbefore : ∀ d : Data, Agrees v ram d.ram →
      Yields (codeOps p before) d fun e => Agrees v ram₁ e.ram)
    (h : enter v (BitVec.ofNat 16 (address +
        (codeOps p (before ++ callCode module number name argumentCount)).length))
      argumentCount ram₁ = .ok ram₂) {d : Data} (hd : Agrees v ram d.ram) : ∃ e : Data,
      Core.Reaches p.words (d.before address) (e.before target) ∧ Agrees v ram₂ e.ram := by
  rw [callCode_eq] at hp h
  generalize hfront : before ++ enterCode module number argumentCount = front
  have hcode : before ++ (enterCode module number argumentCount ++ [Line.load (.function name)] ++
      [Line.jump] ++ [Line.define (.returnAddress module number)]) =
        front ++ [Line.load (.function name)] ++ [Line.jump] ++
          [Line.define (.returnAddress module number)] := by
    rw [← hfront]
    simp
  rw [hcode] at hp h
  obtain ⟨a, ha⟩ := hp.exists_read (l := .load (.returnAddress module number))
    (by simp [← hfront, enterCode])
  obtain ⟨b, hb⟩ := hp.exists_read (l := .define (.returnAddress module number)) (by simp)
  have hret := (Placed.part (front ++ [Line.load (.function name)] ++ [Line.jump])
    [Line.define (.returnAddress module number)] []
    (by rwa [List.append_nil])).ops_load_of_define ha
  -- Behind the jump there is only the definition of the return address, which takes no room.
  have hdefine := hp.ops_define (Symbol.unbroken_of_read hb ha) (by simp)
  have hend := hp.end_le
  rw [codeOps_append p _ [_], codeOps_cons, hdefine, codeOps_nil, List.append_nil, List.append_nil]
    at h hend
  have hplace := encodeLoad_of_lt (Nat.lt_of_le_of_lt hend (Nat.lt_succ_of_le hsize))
  have hnumber := hp.loadsNumber (n := argumentCount + frameSize) (by simp [← hfront, enterCode])
  have hyields : Yields (codeOps p (front ++ [Line.load (.function name)])) d fun e =>
      e.a = BitVec.ofNat 16 target ∧ Agrees v ram₂ e.ram := by
    rw [codeOps_append, ← hfront, codeOps_append]
    refine ((hbefore d hd).append fun e he =>
      yields_enterCode hret hplace hnumber he h).append fun e he => ?_
    simpa [Yields, hload, encodeLoad_of_lt (Nat.lt_succ_of_le htarget)] using he
  obtain ⟨e, ⟨ha, he⟩, hreach⟩ := reaches_of_yields [] _
    ([Line.jump] ++ [Line.define (.returnAddress module number)]) (by simpa using hp) (by omega)
    hyields
  have hjump := reaches_of_jump (front ++ [Line.load (.function name)])
    [Line.define (.returnAddress module number)] hp (by omega) e
  rw [ha, toNat_ofNat_of_le (by omega)] at hjump
  exact ⟨e, hreach.trans hjump, he⟩

/-- The code of a return tears the frame down and goes to the return address. -/
theorem reaches_returnCode {place : Word} (hp : Placed p address returnCode)
    (hsize : p.words.size ≤ 65536) (h : leave v ram = .ok (place, ram₁)) {d : Data}
    (hd : Agrees v ram d.ram) : ∃ e : Data,
      Core.Reaches p.words (d.before address) (e.before place.toNat) ∧ Agrees v ram₁ e.ram := by
  rw [returnCode_eq] at hp
  obtain ⟨e, ⟨rfl, he⟩, hreach⟩ := reaches_of_yields [] leaveCode [Line.jump] hp hsize
    (yields_leaveCode (fun n hn => hp.loadsNumber (List.mem_append_left _ hn)) hd h)
  have hjump := reaches_of_jump leaveCode [] (by simpa using hp) hsize e
  exact ⟨e, hreach.trans hjump, he⟩

end Placed

end HackToolchain.Codegen
