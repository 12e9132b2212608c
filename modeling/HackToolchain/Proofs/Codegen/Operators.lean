import HackToolchain.Proofs.Codegen.Standing

/-!
# Arithmetic on the machine

The code of an operator, wherever it stands in an assembled program, replaces the operands by the
value of the operator and changes no other cell but the stack pointer (`runsTo_operatorCode`). The
comparisons look at the sign of a difference of sixteen bits: of every two words exactly one
comparison holds (`existsUnique_comparison`), and the order that is seen is the signed one for just
those words whose difference is a signed word itself (`gt_iff_iff`, `lt_iff_iff`).
-/

set_option autoImplicit false

namespace HackToolchain.Codegen

open Machine Asm Vm

/-! ## Values of comparisons -/

theorem truth_eq_iff {b : Bool} : truth b = 0xFFFF ↔ b = true := by
  cases b <;> decide

/-- A comparison gives no other values than the two truth values. -/
theorem operatorValue_of_comparison {op : Operator} (h : op.isComparison = true) (x y : Word) :
    operatorValue op x y = 0xFFFF ∨ operatorValue op x y = 0 := by
  have htruth (b : Bool) : truth b = 0xFFFF ∨ truth b = 0 := by cases b <;> decide
  cases op <;> simp only [Operator.isComparison, Bool.false_eq_true] at h <;> exact htruth _

/-- What each comparison looks at. -/
theorem operatorValue_eq_iff (x y : Word) :
    (operatorValue .eq x y = 0xFFFF ↔ (x - y).signed = 0) ∧
      (operatorValue .gt x y = 0xFFFF ↔ 0 < (x - y).signed) ∧
      (operatorValue .lt x y = 0xFFFF ↔ (x - y).signed < 0) := by
  refine ⟨?_, ?_, ?_⟩ <;> exact truth_eq_iff.trans decide_eq_true_iff

/-- The difference of two words, as a signed number: it is wrapped to sixteen bits. -/
theorem signed_sub (x y : Word) :
    (x - y).signed = (x.signed - y.signed).bmod 65536 ∧
      -32768 ≤ x.signed ∧ x.signed ≤ 32767 ∧ -32768 ≤ y.signed ∧ y.signed ≤ 32767 := by
  have hx := BitVec.le_toInt x
  have hx' := BitVec.toInt_lt (x := x)
  have hy := BitVec.le_toInt y
  have hy' := BitVec.toInt_lt (x := y)
  refine ⟨BitVec.toInt_sub .., ?_, ?_, ?_, ?_⟩ <;> simp only [Word.signed] <;> omega

/-- Words are equal if their difference is zero, which takes no account of an overflow. -/
theorem eq_iff (x y : Word) : operatorValue .eq x y = 0xFFFF ↔ x = y := by
  rw [(operatorValue_eq_iff x y).1, Word.signed, ← BitVec.toInt_zero (w := 16), BitVec.toInt_inj]
  exact BitVec.sub_eq_iff_eq_add.trans (by rw [BitVec.zero_add])

/-- The order that `gt` sees is the signed one for just those words whose difference does not
overflow. -/
theorem gt_iff_iff (x y : Word) :
    (operatorValue .gt x y = 0xFFFF ↔ y.signed < x.signed) ↔
      -32768 ≤ x.signed - y.signed ∧ x.signed - y.signed ≤ 32767 := by
  obtain ⟨hsub, hbounds⟩ := signed_sub x y
  rw [(operatorValue_eq_iff x y).2.1, hsub, Int.bmod_def]
  split <;> omega

theorem lt_iff_iff (x y : Word) :
    (operatorValue .lt x y = 0xFFFF ↔ x.signed < y.signed) ↔
      -32768 ≤ x.signed - y.signed ∧ x.signed - y.signed ≤ 32767 := by
  obtain ⟨hsub, hbounds⟩ := signed_sub x y
  rw [(operatorValue_eq_iff x y).2.2, hsub, Int.bmod_def]
  split <;> omega

/-- Of every two words exactly one comparison holds. -/
theorem existsUnique_comparison (x y : Word) :
    ∃! op : Operator, op.isComparison = true ∧ operatorValue op x y = 0xFFFF := by
  obtain ⟨heq, hgt, hlt⟩ := operatorValue_eq_iff x y
  -- A comparison other than the one that sees the sign of the difference sees another sign.
  have hunique {op : Operator} (h : op.isComparison = true ∧ operatorValue op x y = 0xFFFF) :
      op = .eq ∧ (x - y).signed = 0 ∨ op = .gt ∧ 0 < (x - y).signed ∨
        op = .lt ∧ (x - y).signed < 0 := by
    obtain ⟨hcompare, hvalue⟩ := h
    cases op <;> simp only [Operator.isComparison, Bool.false_eq_true] at hcompare
    · exact .inl ⟨rfl, heq.1 hvalue⟩
    · exact .inr (.inl ⟨rfl, hgt.1 hvalue⟩)
    · exact .inr (.inr ⟨rfl, hlt.1 hvalue⟩)
  rcases Int.lt_trichotomy (x - y).signed 0 with hneg | hzero | hpos
  · refine ⟨.lt, ⟨rfl, hlt.2 hneg⟩, fun op h => ?_⟩
    rcases hunique h with ⟨-, h⟩ | ⟨-, h⟩ | ⟨rfl, -⟩
    · omega
    · omega
    · rfl
  · refine ⟨.eq, ⟨rfl, heq.2 hzero⟩, fun op h => ?_⟩
    rcases hunique h with ⟨rfl, -⟩ | ⟨-, h⟩ | ⟨-, h⟩
    · rfl
    · omega
    · omega
  · refine ⟨.gt, ⟨rfl, hgt.2 hpos⟩, fun op h => ?_⟩
    rcases hunique h with ⟨-, h⟩ | ⟨rfl, -⟩ | ⟨-, h⟩
    · omega
    · rfl
    · omega

/-! ## The machine -/

variable {source file : String} {base : Int} {p : Assembly} {address : Nat} {op : Operator}
  {number : Int} {c : Computer} {sp : Nat}

/-- The code of an operator replaces the operands by the value of the operator. -/
theorem runsTo_operatorCode (hp : Placed p address (operatorCode op number))
    (hsize : p.words.size ≤ 32767) (hc : Stands c p address)
    (hsp : (c.ram.get 0).toNat = sp + operandCount op) (hlow : 1 ≤ sp)
    (hhigh : sp + operandCount op ≤ 32768) :
    RunsTo c (address + codeSize (operatorCode op number)) fun ram =>
      Topped sp (operatorValue op (c.ram.get sp) (c.ram.get (sp + 1))) c.ram ram := by
  obtain ⟨ram₁, hoperate, h₁, hget, hchanges⟩ := (hc.endsAt hsp hhigh).operate hlow
  obtain ⟨e, hreach, he⟩ := hp.reaches_operatorCode hsize hoperate (d := c.data)
    (Agrees.refl hc.full)
  rw [hp.length_codeOps] at hreach
  refine (hc.runsTo hreach he).mono fun ram hram => ?_
  subst hram
  exact .of_changes h₁ hget hchanges

/-- Arithmetic on the machine is arithmetic of sixteen bits. A computer that stands at the code of
an operator, with the operands in cells behind the first, stands behind the code when it has
executed it; the operands have been replaced by the value of the operator, and no cell but the stack
pointer has changed besides. So exactly one comparison holds of every two words, `eq` tells whether
they are the same, and `gt` and `lt` see the signed order just where the difference does not
overflow. -/
theorem arithmetic_is_wrapped (ha : assemble source file base = .ok p)
    (hsize : p.words.size ≤ 32767) (hcode : StandsIn source address (operatorCode op number))
    (hc : Stands c p address) (hsp : (c.ram.get 0).toNat = sp + operandCount op) (hlow : 1 ≤ sp)
    (hhigh : sp + operandCount op ≤ 32768) :
    RunsTo c (address + codeSize (operatorCode op number)) (fun ram =>
      Topped sp (operatorValue op (c.ram.get sp) (c.ram.get (sp + 1))) c.ram ram) ∧
    ∀ x y : Word,
      (∃! op : Operator, op.isComparison = true ∧ operatorValue op x y = 0xFFFF) ∧
      (∀ op : Operator, op.isComparison = true →
        operatorValue op x y = 0xFFFF ∨ operatorValue op x y = 0) ∧
      (operatorValue .eq x y = 0xFFFF ↔ x = y) ∧
      ((operatorValue .gt x y = 0xFFFF ↔ y.signed < x.signed) ↔
        -32768 ≤ x.signed - y.signed ∧ x.signed - y.signed ≤ 32767) ∧
      ((operatorValue .lt x y = 0xFFFF ↔ x.signed < y.signed) ↔
        -32768 ≤ x.signed - y.signed ∧ x.signed - y.signed ≤ 32767) :=
  ⟨runsTo_operatorCode (hcode.placed ha) hsize hc hsp hlow hhigh, fun x y =>
    ⟨existsUnique_comparison x y, fun _ h => operatorValue_of_comparison h x y, eq_iff x y,
      gt_iff_iff x y, lt_iff_iff x y⟩⟩

/-- The least word is less than one, but their difference is positive. -/
theorem arithmetic_is_wrapped_least : ∃ (p : Assembly) (c : Computer),
    assemble (renderLines ([Line.toD .zero] ++ operatorCode .lt 0 ++ [])) "<input>" 16 = .ok p ∧
      p.words.size ≤ 32767 ∧
      StandsIn (renderLines ([Line.toD .zero] ++ operatorCode .lt 0 ++ [])) 1 (operatorCode .lt 0) ∧
      Stands c p 1 ∧ (c.ram.get 0).toNat = 256 + operandCount .lt ∧
      (c.ram.get 256).signed < (c.ram.get 257).signed ∧
      RunsTo c 21 fun ram => ram.get 256 = 0 ∧ (ram.get 0).toNat = 257 := by
  have hcode : Code.assembles ([Line.toD .zero] ++ operatorCode .lt 0 ++ []) = true := by
    decide +kernel
  obtain ⟨p, hp, hfits⟩ := exists_assemble_renderLines 32767 hcode (by decide +kernel) "<input>" 16
  have hstands := standsIn_renderLines [Line.toD .zero] (operatorCode .lt 0) [] hcode
  rw [show codeSize [Line.toD .zero] = 1 by decide +kernel] at hstands
  obtain ⟨ram, hram⟩ : ∃ ram : Ram, ram =
    (((Ram.zeros memoryWords).set 0 258).set 256 0x8000).set 257 1 := ⟨_, rfl⟩
  have hfull : ram.size = memoryWords := by simp only [hram, Ram.size_set, size_zeros]
  have hget : ram.get 0 = 258 ∧ ram.get 256 = 0x8000 ∧ ram.get 257 = 1 := by
    simp [hram, Ram.get_set, Ram.size_set, size_zeros, memoryWords]
  obtain ⟨h0, hx, hy⟩ := hget
  have hsp : (ram.get 0).toNat = 256 + operandCount .lt := by
    rw [h0]
    decide
  obtain ⟨hruns, -⟩ := arithmetic_is_wrapped (c := computerAt p 1 ram) hp hfits hstands
    (stands_computerAt hfull) hsp (by decide) (by decide)
  refine ⟨p, computerAt p 1 ram, hp, hfits, hstands, stands_computerAt hfull, hsp, ?_, ?_⟩
  · rw [show (computerAt p 1 ram).ram = ram from rfl, hx, hy]
    decide
  · rw [show 1 + codeSize (operatorCode .lt 0) = 21 by decide +kernel] at hruns
    refine hruns.mono fun ram' h => ⟨?_, h.pointer⟩
    rw [h.top, show (computerAt p 1 ram).ram = ram from rfl, hx, hy]
    decide

end HackToolchain.Codegen
