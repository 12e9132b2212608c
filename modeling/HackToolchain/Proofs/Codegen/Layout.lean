import HackToolchain.Proofs.Codegen.Rendering
import HackToolchain.Proofs.Machine.Steps

/-!
# Code in an assembled program

Code is a sequence of instructions (`codeOps`). Where its statements are among those that a program
is assembled from, it stands at the address counted by the instructions before it (`Placed`), its
words are in the instruction memory there (`Placed.holds`), and a symbol that is defined in front of
it stands for that address (`Placed.ops_load_of_define`). In a program that code is assembled to
(`IsImage`) every piece of the code is placed.
-/

set_option autoImplicit false

namespace HackToolchain.Codegen

open Text Machine Asm

/-! ## Instructions of code -/

/-- The instruction that a statement is in a program; a label is none. -/
def opOf (p : Assembly) : Statement → Option Op
  | .label _ => none
  | .load operand => some (.load ((p.value? operand).getD 0))
  | .compute _ action => some (.act action)

def Line.ops (p : Assembly) (l : Line) : List Op := (l.read.getD []).filterMap (opOf p)

/-- The instructions of code in a program. -/
def codeOps (p : Assembly) (c : Code) : List Op := c.flatMap (Line.ops p)

section

variable (p : Assembly)

@[simp] theorem codeOps_nil : codeOps p [] = [] := rfl

@[simp] theorem codeOps_cons (l : Line) (c : Code) : codeOps p (l :: c) = l.ops p ++ codeOps p c :=
  rfl

@[simp] theorem codeOps_append (c d : Code) : codeOps p (c ++ d) = codeOps p c ++ codeOps p d :=
  List.flatMap_append

@[simp] theorem Line.ops_act (i : Action) : (Line.act i).ops p = [.act i] := by
  rw [Line.ops, Line.read_act]
  rfl

def Register.address : Register → Nat
  | .sp => 0
  | .lcl => 1
  | .arg => 2
  | .this => 3
  | .that => 4
  | .r13 => 13
  | .r14 => 14

theorem predefined?_name (r : Register) : predefined? r.name = some r.address := by
  cases r <;> decide

@[simp] theorem Line.ops_register (r : Register) :
    (Line.load (.register r)).ops p = [.load r.address] := by
  have hnum : Decimal.isNumeral r.name.toList = false := by cases r <;> decide
  have hvalue : p.value? r.name = some (r.address : Int) := by
    rw [Assembly.value?, hnum, predefined?_name]
    rfl
  rw [Line.ops, Line.read_register]
  simp [opOf, hvalue]

theorem filterMap_wordOf {c : Code} {statements : List Statement}
    (h : readCode c = some statements) :
    statements.filterMap p.wordOf = (codeOps p c).map Op.word := by
  have hword (s : Statement) : p.wordOf s = (opOf p s).map Op.word := by cases s <;> rfl
  induction c generalizing statements with
  | nil =>
    simp only [readCode, Option.some.injEq] at h
    subst h
    rfl
  | cons l c ih =>
    obtain ⟨a, b, ha, hb, rfl⟩ := readCode_cons_eq_some.1 h
    rw [List.filterMap_append, ih hb, codeOps_cons, List.map_append, Line.ops, ha, Option.getD_some,
      List.map_filterMap]
    congr 1
    exact List.filterMap_congr fun s _ => hword s

theorem instructionCount_eq {c : Code} {statements : List Statement}
    (h : readCode c = some statements) : instructionCount statements = (codeOps p c).length := by
  rw [← List.length_map (f := Op.word), ← filterMap_wordOf p h, p.length_filterMap_wordOf]

end

/-! ## Placed code -/

/-- Code stands at an address of a program: among the statements that the program is assembled from
there are those of the code, behind so many instructions. -/
def Placed (p : Assembly) (address : Nat) (c : Code) : Prop :=
  ∃ (base : Int) (before statements after : List Statement), readCode c = some statements ∧
    Assembled base (before ++ statements ++ after) p ∧ instructionCount before = address

namespace Placed

variable {p : Assembly} {address : Nat} {c : Code}

/-- A piece of the code stands where the pieces before it end. -/
theorem part (c₁ c₂ c₃ : Code) (h : Placed p address (c₁ ++ c₂ ++ c₃)) :
    Placed p (address + (codeOps p c₁).length) c₂ := by
  obtain ⟨base, before, _, after, hread, ha, rfl⟩ := h
  obtain ⟨_, s₃, hfront, -, rfl⟩ := readCode_append_eq_some.1 hread
  obtain ⟨s₁, s₂, h₁, h₂, rfl⟩ := readCode_append_eq_some.1 hfront
  refine ⟨base, before ++ s₁, s₂, s₃ ++ after, h₂, by simpa using ha, ?_⟩
  rw [← instructionCount_eq p h₁]
  simp [instructionCount]

/-- The words of placed code are in the instruction memory. -/
theorem holds (h : Placed p address c) : Holds p.words address ((codeOps p c).map Op.word) := by
  obtain ⟨base, before, statements, after, hread, ha, rfl⟩ := h
  have hwords := ha.words
  rw [List.filterMap_append, List.filterMap_append, filterMap_wordOf p hread] at hwords
  have := holds_of_toList hwords
  rwa [p.length_filterMap_wordOf] at this

theorem end_le (h : Placed p address c) : address + (codeOps p c).length ≤ p.words.size := by
  obtain ⟨base, before, statements, after, hread, ha, rfl⟩ := h
  rw [ha.size_words, ← instructionCount_eq p hread]
  simp [instructionCount]

theorem exists_read {l : Line} (h : Placed p address c) (hl : l ∈ c) : ∃ a, l.read = some a := by
  obtain ⟨base, before, statements, after, hread, -, -⟩ := h
  exact exists_read_of_mem hread hl

theorem ops_number {n : Int} (h : Placed p address c) (hl : .number n ∈ c) :
    0 ≤ n ∧ n ≤ maxConstant ∧ (Line.number n).ops p = [.load n] := by
  obtain ⟨a, ha⟩ := h.exists_read hl
  obtain ⟨m, rfl, hm, rfl⟩ := Line.read_number_eq_some ha
  obtain ⟨hnum, hvalue⟩ := Decimal.value_render m
  refine ⟨by omega, by omega, ?_⟩
  rw [Line.ops, ha]
  simp [opOf, Assembly.value?, hnum, hvalue]

/-- The definition of an unbroken symbol takes no room. -/
theorem ops_define {s : Symbol} (h : Placed p address c) (hs : s.Unbroken)
    (hl : .define s ∈ c) : (Line.define s).ops p = [] := by
  obtain ⟨a, ha⟩ := h.exists_read hl
  obtain ⟨t, rfl, -, -⟩ := Line.read_define_eq_some hs ha
  rw [Line.ops, ha]
  rfl

theorem exists_ops_load {s : Symbol} (h : Placed p address c) (hs : s.Unbroken)
    (hl : .load s ∈ c) : ∃ n, (Line.load s).ops p = [.load n] := by
  obtain ⟨a, ha⟩ := h.exists_read hl
  obtain ⟨rfl, -⟩ := Line.read_load_eq_some hs ha
  exact ⟨_, by rw [Line.ops, ha]; rfl⟩

/-- A symbol that is defined in front of placed code stands for its address, wherever it is
loaded. -/
theorem ops_load_of_define {s : Symbol} {a : List Statement}
    (h : Placed p address (Line.define s :: c)) (hload : (Line.load s).read = some a) :
    (Line.load s).ops p = [.load address] := by
  obtain ⟨base, before, statements, after, hread, ha, rfl⟩ := h
  obtain ⟨d, z, hd, -, rfl⟩ := readCode_cons_eq_some.1 hread
  obtain ⟨t, rfl, ht, hsame⟩ := Line.read_define_eq_some (Symbol.unbroken_of_read hd hload) hd
  obtain rfl := hsame a hload
  have hvalue : p.value? t = some (instructionCount before : Int) :=
    (show Assembled base (before ++ .label t :: (z ++ after)) p by simpa using ha).value?_label ht
  rw [Line.ops, hload]
  simp [opOf, hvalue]

theorem ops_load_of_var {s : Symbol} {t : String} {n : Int} (h : Placed p address c)
    (hs : (Line.load s).read = some [.load t]) (hn : p.vars.find? t = some n) :
    (Line.load s).ops p = [.load n] := by
  obtain ⟨base, before, statements, after, -, ha, -⟩ := h
  rw [Line.ops, hs]
  simp [opOf, ha.value?_var hn]

end Placed

/-! ## Assembled code -/

/-- A program is what code is assembled to. -/
def IsImage (base : Int) (lines : Code) (p : Assembly) : Prop :=
  ∃ statements, readCode lines = some statements ∧ Assembled base statements p

namespace IsImage

variable {base : Int} {lines pre c post : Code} {p : Assembly}

theorem whole (h : IsImage base lines p) : Placed p 0 lines := by
  obtain ⟨statements, hread, ha⟩ := h
  exact ⟨base, [], statements, [], hread, by simpa using ha, rfl⟩

/-- A piece of the code that a program is assembled from stands where the instructions before it
end. -/
theorem placed (h : IsImage base (pre ++ c ++ post) p) : Placed p (codeOps p pre).length c := by
  have := h.whole.part pre c post
  rwa [Nat.zero_add] at this

theorem size_words (h : IsImage base lines p) : p.words.size = (codeOps p lines).length := by
  obtain ⟨statements, hread, ha⟩ := h
  rw [ha.size_words, instructionCount_eq p hread]

end IsImage

end HackToolchain.Codegen
