import HackToolchain.Proofs.Codegen.Emission
import HackToolchain.Proofs.Codegen.Layout
import HackToolchain.Proofs.Codegen.Modules
import HackToolchain.Proofs.Text.Words

/-!
# Static variables

The name of a module has no stroke in it, since it is the last name of a path. So the name of a
static variable is cut nowhere, and it is neither a number nor a name of the machine, because there
is a dot in it. A static variable that code loads is a variable of the program, unless it has the
name of a label (`IsImage.exists_find?_static`).
-/

set_option autoImplicit false

namespace HackToolchain.Codegen

open Text Asm Vm

/-! ## Names -/

theorem isNumeral_of_dot {s : List Char} (h : '.' ∈ s) : Decimal.isNumeral s = false := by
  cases hn : Decimal.isNumeral s with
  | false => rfl
  | true =>
    simp only [Decimal.isNumeral, Bool.and_eq_true, List.all_eq_true] at hn
    exact absurd (hn.2 '.' h) (by decide)

theorem toList_name_static (m : String) (index : Int) :
    (Symbol.static m index).name.toList =
      m.toList ++ '.' :: (Decimal.render index).toList := by
  simp [Symbol.name, String.toList_append]

/-- The operand by which a static variable is loaded has a dot. -/
theorem dot_mem_operand {m : String} {index : Int} (hm : '/' ∉ m.toList) :
    '.' ∈ trim (uncomment (Symbol.static m index).name.toList) := by
  rw [toList_name_static, uncomment_eq_self]
  · exact mem_trim (List.mem_append_right _ List.mem_cons_self) (by decide)
  · simp only [List.mem_append, List.mem_cons, not_or]
    exact ⟨hm, by decide, fun h => Decimal.ne_slash_of_mem_render h rfl⟩

/-! ## Tasks -/

/-- The static variable that a task pushes or pops: its module and its index. -/
def Task.static? (t : Task) : Option (String × Int) :=
  match t.module, t.job with
  | some m, .command (.push segment index) | some m, .command (.pop segment index) =>
    if Segment.ofName? segment = some .static then some (m, index) else none
  | _, _ => none

theorem Task.static?_eq_some {t : Task} {m : String} {index : Int} :
    t.static? = some (m, index) ↔ ∃ segment, Segment.ofName? segment = some .static ∧
      (t = ⟨some m, .command (.push segment index)⟩ ∨
        t = ⟨some m, .command (.pop segment index)⟩) := by
  constructor
  · intro h
    obtain ⟨module, job⟩ := t
    unfold Task.static? at h
    split at h
    · next segment i hmodule hjob =>
      simp only [Option.ite_none_right_eq_some, Option.some.injEq, Prod.mk.injEq] at h
      obtain ⟨hs, rfl, rfl⟩ := h
      simp only at hmodule hjob
      exact ⟨segment, hs, .inl (by rw [hmodule, hjob])⟩
    · next segment i hmodule hjob =>
      simp only [Option.ite_none_right_eq_some, Option.some.injEq, Prod.mk.injEq] at h
      obtain ⟨hs, rfl, rfl⟩ := h
      simp only at hmodule hjob
      exact ⟨segment, hs, .inr (by rw [hmodule, hjob])⟩
    · simp at h
  · rintro ⟨segment, hs, rfl | rfl⟩
    · simp [Task.static?, hs]
    · simp [Task.static?, hs]

theorem Task.load_mem_of_static? {t : Task} {k : Counters} {d : Draft} {m : String} {index : Int}
    (h : t.draft k = .ok d) (hs : t.static? = some (m, index)) :
    .load (.static m index) ∈ d.code := by
  obtain ⟨segment, hsegment, rfl | rfl⟩ := Task.static?_eq_some.1 hs
  · obtain ⟨-, s, hs, -, -, hcode⟩ := Task.draft_push h
    obtain rfl : s = .static := Option.some.inj (hs.symm.trans hsegment)
    simp only [pushCode, staticSymbol, Except.map, Except.ok.injEq] at hcode
    simp [← hcode]
  · obtain ⟨-, s, hs, -, -, hcode⟩ := Task.draft_pop h
    obtain rfl : s = .static := Option.some.inj (hs.symm.trans hsegment)
    simp only [popCode, staticSymbol, Except.map, Except.ok.injEq] at hcode
    simp [← hcode]

/-! ## Cells -/

/-- The operand by which a symbol is loaded, if its line loads one. -/
def Symbol.operand? (s : Symbol) : Option String :=
  match (Line.load s).read with
  | some [.load operand] => some operand
  | _ => none

theorem Symbol.operand?_eq_some {s : Symbol} {operand : String} :
    s.operand? = some operand ↔ (Line.load s).read = some [.load operand] := by
  unfold Symbol.operand?
  split
  · next hr => simp [hr]
  · next hr =>
    simp only [reduceCtorEq, false_iff]
    exact hr operand

theorem IsImage.isSome_value? {base : Int} {lines : Code} {p : Assembly} {s : Symbol}
    {operand : String} (h : IsImage base lines p) (hl : .load s ∈ lines)
    (hs : s.operand? = some operand) : (p.value? operand).isSome := by
  obtain ⟨statements, hread, ha⟩ := h
  obtain ⟨xs, ys, rfl⟩ := List.append_of_mem hl
  obtain ⟨a, b, -, hb, rfl⟩ := readCode_append_eq_some.1 hread
  obtain ⟨c, d, hc, -, rfl⟩ := readCode_cons_eq_some.1 hb
  rw [Symbol.operand?_eq_some.1 hs] at hc
  obtain rfl := Option.some.inj hc
  exact ha.bound operand (by simp)

/-- A static variable that code loads has a cell, unless it has the name of a label. -/
theorem IsImage.exists_find?_static {base : Int} {lines : Code} {p : Assembly} {m : String}
    {index : Int} (h : IsImage base lines p) (hl : .load (.static m index) ∈ lines)
    (hm : '/' ∉ m.toList) (hs : (Symbol.static m index).Unbroken)
    (hlabel : ∀ operand, (Symbol.static m index).operand? = some operand →
      p.labels.find? operand = none) :
    ∃ operand n, (Symbol.static m index).operand? = some operand ∧
      p.vars.find? operand = some n := by
  obtain ⟨a, ha⟩ := h.whole.exists_read hl
  obtain ⟨rfl, -⟩ := Line.read_load_eq_some hs ha
  have hoperand := Symbol.operand?_eq_some.2 ha
  have hdot := @dot_mem_operand m index hm
  have hvalue := h.isSome_value? hl hoperand
  rw [← String.toList_ofList (l := trim _)] at hdot
  rw [Assembly.value?, isNumeral_of_dot hdot, predefined?_of_sign hdot (.inl rfl),
    hlabel _ hoperand] at hvalue
  obtain ⟨n, hn⟩ := Option.isSome_iff_exists.1 hvalue
  exact ⟨_, n, hoperand, hn⟩

end HackToolchain.Codegen
