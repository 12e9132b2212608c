import HackToolchain.Codegen.Lowering
import HackToolchain.Proofs.Asm.Passes
import HackToolchain.Proofs.Asm.Spellings
import HackToolchain.Proofs.Machine.Steps
import HackToolchain.Proofs.Text.Contents

/-!
# What generated code says to the assembler

Each line of generated code is read for itself (`readRows_renderLines`): instructions are read back
as they were, comments say nothing, and the lines that define and load a symbol say the same name
(`read_define_eq_some`).
-/

set_option autoImplicit false

namespace HackToolchain.Codegen

open Text Machine Asm

/-! ## Lines -/

/-- What a line says to the assembler. -/
def Line.read (l : Line) : Option (List Statement) := readRows (rowsOf l.render.toList)

/-- What code says to the assembler. -/
def readCode : Code → Option (List Statement)
  | [] => some []
  | l :: ls => l.read.bind fun a => (readCode ls).map (a ++ ·)

theorem readCode_cons_eq_some {l : Line} {ls : Code} {statements : List Statement} :
    readCode (l :: ls) = some statements ↔
      ∃ a b, l.read = some a ∧ readCode ls = some b ∧ statements = a ++ b := by
  simp only [readCode, Option.bind_eq_some_iff, Option.map_eq_some_iff]
  exact ⟨fun ⟨a, ha, b, hb, h⟩ => ⟨a, b, ha, hb, h.symm⟩,
    fun ⟨a, b, ha, hb, h⟩ => ⟨a, ha, b, hb, h.symm⟩⟩

theorem readCode_append_eq_some {xs ys : Code} {statements : List Statement} :
    readCode (xs ++ ys) = some statements ↔
      ∃ a b, readCode xs = some a ∧ readCode ys = some b ∧ statements = a ++ b := by
  induction xs generalizing statements with
  | nil => simp [readCode]
  | cons l xs ih =>
    rw [List.cons_append, readCode_cons_eq_some]
    constructor
    · rintro ⟨a, b, ha, hb, rfl⟩
      obtain ⟨c, d, hc, hd, rfl⟩ := ih.1 hb
      exact ⟨a ++ c, d, readCode_cons_eq_some.2 ⟨a, c, ha, hc, rfl⟩, hd,
        (List.append_assoc a c d).symm⟩
    · rintro ⟨e, d, he, hd, rfl⟩
      obtain ⟨a, c, ha, hc, rfl⟩ := readCode_cons_eq_some.1 he
      exact ⟨a, c ++ d, ha, ih.2 ⟨c, d, hc, hd, rfl⟩, List.append_assoc a c d⟩

theorem exists_read_of_mem {ls : Code} {statements : List Statement}
    (h : readCode ls = some statements) {l : Line} (hl : l ∈ ls) : ∃ a, l.read = some a := by
  obtain ⟨xs, ys, rfl⟩ := List.append_of_mem hl
  obtain ⟨_, b, _, hb, _⟩ := readCode_append_eq_some.1 h
  obtain ⟨a, _, ha, _, _⟩ := readCode_cons_eq_some.1 hb
  exact ⟨a, ha⟩

/-- The rows of the text of code are the rows of its lines. -/
theorem rows_renderLines (ls : Code) :
    rows (renderLines ls).toList = ls.flatMap fun l => rowsOf l.render.toList := by
  have htext : (renderLines ls).toList = ls.flatMap fun l => l.render.toList ++ ['\n'] := by
    simp [renderLines, String.toList_join, List.flatMap_map, String.toList_append]
  rw [htext, rows_flatMap]

/-- The text of code says what the code says. -/
theorem readRows_renderLines (ls : Code) :
    readRows (rows (renderLines ls).toList) = readCode ls := by
  rw [rows_renderLines]
  induction ls with
  | nil => rfl
  | cons l ls ih =>
    rw [List.flatMap_cons]
    refine Option.ext fun statements => ?_
    rw [readRows_append_eq_some, readCode_cons_eq_some, ih]
    rfl

theorem Line.read_of_no_break {l : Line} (h : ∀ c ∈ l.render.toList, isBreak c = false) :
    l.read = readRow l.render.toList := by
  rw [Line.read, rowsOf_of_no_break h]
  cases hr : readRow l.render.toList <;> simp [readRows, hr]

theorem Line.read_comment {text : String} (h : ∀ c ∈ text.toList, isBreak c = false) :
    (Line.comment text).read = some [] := by
  have htext : (Line.comment text).render.toList = '/' :: '/' :: ' ' :: text.toList := by
    simp [Line.render, String.toList_append]
  rw [Line.read_of_no_break]
  · rw [htext, readRow, content, uncomment_slashes]
    rfl
  · rw [htext]
    have hslash : isBreak '/' = false ∧ isBreak ' ' = false := by decide
    simpa [hslash] using h

theorem Line.read_act (i : Action) : (Line.act i).read = some [.compute (spellingOf i) i] := by
  have htext : (Line.act i).render = i.render := rfl
  rw [Line.read_of_no_break, htext, readRow_render]
  rw [htext]
  exact fun c h => isBreak_of_mem_render h

/-! ## Loads -/

theorem readRow_at {name : List Char} {a : List Statement} (h : readRow ('@' :: name) = some a) :
    ∃ t, readOperand (trim (uncomment name)) = .ok t ∧ a = [t] := by
  have hcontent : content ('@' :: name) = '@' :: trimRight (uncomment name) := by
    rw [content, uncomment_cons_of_ne (by decide), trim_cons (by decide)]
  unfold readRow at h
  rw [hcontent] at h
  simp only at h
  cases hs : Statement.ofChars ('@' :: trimRight (uncomment name)) with
  | error f => simp [hs] at h
  | ok t =>
    simp only [hs, Option.some.injEq] at h
    have hread := ofChars_at hs
    rw [trim_trimRight] at hread
    exact ⟨t, hread, h.symm⟩

theorem Line.toList_render_number (n : Int) :
    (Line.number n).render.toList = '@' :: (Decimal.render n).toList := by
  simp [Line.render, String.toList_append]

theorem Line.isBreak_of_mem_number {n : Int} {c : Char} (h : c ∈ (Line.number n).render.toList) :
    isBreak c = false := by
  rw [Line.toList_render_number] at h
  rcases List.mem_cons.1 h with rfl | h
  · decide
  · exact isBreak_of_not_isBlank (Decimal.isBlank_of_mem_render h)

theorem Line.read_number (n : Int) :
    (Line.number n).read = readRow ('@' :: (Decimal.render n).toList) := by
  rw [Line.read_of_no_break fun _ => Line.isBreak_of_mem_number, Line.toList_render_number]

theorem Line.read_number_eq_some {n : Int} {a : List Statement}
    (h : (Line.number n).read = some a) :
    ∃ m : Nat, n = m ∧ m ≤ maxConstant ∧ a = [.load (Decimal.render m)] := by
  rw [Line.read_number] at h
  obtain ⟨t, ht, rfl⟩ := readRow_at h
  rw [uncomment_eq_self fun hc => Decimal.ne_slash_of_mem_render hc rfl,
    trim_eq_self fun c hc => Decimal.isBlank_of_mem_render hc] at ht
  obtain ⟨rfl, hform⟩ := readOperand_eq_ok ht
  rw [String.ofList_toList]
  cases n with
  | ofNat m =>
    rw [Int.ofNat_eq_natCast] at hform ⊢
    obtain ⟨hnum, hvalue⟩ := Decimal.value_render m
    rcases hform with hform | hform
    · exact ⟨m, rfl, hvalue ▸ hform.2, rfl⟩
    · rw [isNumeral_of_isSymbol hform] at hnum
      exact absurd hnum (by decide)
  | negSucc m =>
    rw [Decimal.isNumeral_render_negSucc, Decimal.toList_render_negSucc] at hform
    simp [isSymbol, isSymbolStart] at hform

/-! ## Symbols -/

def Symbol.Unbroken (s : Symbol) : Prop := ∀ c ∈ s.name.toList, isBreak c = false

theorem Line.toList_render_define (s : Symbol) :
    (Line.define s).render.toList = '(' :: (s.name.toList ++ [')']) := by
  simp [Line.render, String.toList_append]

theorem Line.toList_render_load (s : Symbol) :
    (Line.load s).render.toList = '@' :: s.name.toList := by
  simp [Line.render, String.toList_append]

theorem Line.read_load_of_unbroken {s : Symbol} (hs : s.Unbroken) :
    (Line.load s).read = readRow ('@' :: s.name.toList) := by
  rw [Line.read_of_no_break, Line.toList_render_load]
  rw [Line.toList_render_load]
  have hat : isBreak '@' = false := by decide
  simpa [hat, Symbol.Unbroken] using hs

theorem Line.read_define_of_unbroken {s : Symbol} (hs : s.Unbroken) :
    (Line.define s).read = readRow ('(' :: (s.name.toList ++ [')'])) := by
  rw [Line.read_of_no_break, Line.toList_render_define]
  rw [Line.toList_render_define]
  have hparen : isBreak '(' = false ∧ isBreak ')' = false := by decide
  intro c hc
  simp only [List.mem_cons, List.mem_append, List.not_mem_nil, or_false] at hc
  rcases hc with rfl | hc | rfl
  · exact hparen.1
  · exact hs c hc
  · exact hparen.2

theorem Line.read_load_eq_some {s : Symbol} (hs : s.Unbroken) {a : List Statement}
    (h : (Line.load s).read = some a) :
    a = [.load (String.ofList (trim (uncomment s.name.toList)))] ∧
      (Decimal.isNumeral (trim (uncomment s.name.toList)) = true ∨
        isSymbol (trim (uncomment s.name.toList)) = true) := by
  rw [Line.read_load_of_unbroken hs] at h
  obtain ⟨t, ht, rfl⟩ := readRow_at h
  obtain ⟨rfl, hform⟩ := readOperand_eq_ok ht
  exact ⟨rfl, hform.imp_left And.left⟩

theorem not_mem_paren {s : List Char} (h : Decimal.isNumeral s = true ∨ isSymbol s = true) :
    ')' ∉ s := by
  intro hmem
  rcases h with h | h
  · simp only [Decimal.isNumeral, Bool.and_eq_true, List.all_eq_true] at h
    exact absurd (h.2 _ hmem) (by decide)
  · exact (isBlank_of_isSymbolRest (isSymbolRest_of_mem h hmem)).2.2 rfl

theorem readRow_paren {rest : List Char} {a : List Statement}
    (h : readRow ('(' :: rest) = some a) :
    ('(' :: trimRight (uncomment rest)).getLast? = some ')' ∧
      isSymbol (trim (trimRight (uncomment rest)).dropLast) = true ∧
      a = [.label (String.ofList (trim (trimRight (uncomment rest)).dropLast))] := by
  have hcontent : content ('(' :: rest) = '(' :: trimRight (uncomment rest) := by
    rw [content, uncomment_cons_of_ne (by decide), trim_cons (by decide)]
  unfold readRow at h
  rw [hcontent] at h
  simp only at h
  cases hof : Statement.ofChars ('(' :: trimRight (uncomment rest)) with
  | error f => simp [hof] at h
  | ok t =>
    simp only [hof, Option.some.injEq] at h
    obtain ⟨hlast, hsymbol, rfl⟩ := ofChars_paren hof
    exact ⟨hlast, hsymbol, h.symm⟩

theorem mem_paren_of_getLast? {s : List Char}
    (h : ('(' :: trimRight s).getLast? = some ')') : ')' ∈ trim s := by
  have hmem : ')' ∈ trimRight s := by
    cases hr : trimRight s with
    | nil => simp [hr] at h
    | cons c r =>
      rw [hr, List.getLast?_cons_cons] at h
      exact List.mem_of_getLast? h
  exact mem_trim (mem_of_mem_trimRight hmem) (by decide)

/-- A line that defines an unbroken symbol defines a label, by the name by which a line that loads
the symbol loads it. -/
theorem Line.read_define_eq_some {s : Symbol} (hs : s.Unbroken) {a : List Statement}
    (h : (Line.define s).read = some a) :
    ∃ t : String, a = [.label t] ∧ isSymbol t.toList = true ∧
      ∀ b, (Line.load s).read = some b → b = [.load t] := by
  rw [Line.read_define_of_unbroken hs] at h
  obtain ⟨hlast, hsymbol, rfl⟩ := readRow_paren h
  refine ⟨_, rfl, String.toList_ofList ▸ hsymbol, fun b hb => ?_⟩
  obtain ⟨rfl, hform⟩ := Line.read_load_eq_some hs hb
  rcases uncomment_append_singleton s.name.toList (c := ')') (by decide) with hcut | ⟨hu, hcut⟩
  · -- The parenthesis would be one inside the name, which cannot be loaded then.
    rw [hcut] at hlast
    exact absurd (mem_paren_of_getLast? hlast) (not_mem_paren hform)
  · rw [hcut, trimRight_append_singleton _ (by decide), List.dropLast_concat, hu]

theorem readRow_head {line row : List Char} {a : List Statement}
    (h : readRows (rowsOf line) = some a) (hrow : (rowsOf line).head? = some row) :
    ∃ b, readRow row = some b := by
  obtain ⟨rest, hrows⟩ := List.head?_eq_some_iff.1 hrow
  rw [hrows, readRows_cons_eq_some] at h
  obtain ⟨b, -, hb, -, -⟩ := h
  exact ⟨b, hb⟩

/-- A symbol that can be both defined and loaded is unbroken: of a broken one, the first row that
loads it has no closing parenthesis, and the first row that defines it has to end with one. -/
theorem Symbol.unbroken_of_read {s : Symbol} {a b : List Statement}
    (hdefine : (Line.define s).read = some a) (hload : (Line.load s).read = some b) :
    s.Unbroken := by
  rcases forall_or_exists_first (fun c => isBreak c = false) s.name.toList with h | h
  · exact h
  · obtain ⟨before, c, after, hname, hbefore, hc⟩ := h
    rw [Bool.not_eq_false] at hc
    have hunbroken (first : Char) (hfirst : isBreak first = false) :
        ∀ d ∈ first :: before, isBreak d = false := by
      simpa [hfirst] using hbefore
    have hat := head?_rowsOf (hunbroken '@' (by decide)) hc after
    have hparen := head?_rowsOf (hunbroken '(' (by decide)) hc (after ++ [')'])
    rw [Line.read, Line.toList_render_load, hname] at hload
    rw [Line.read, Line.toList_render_define, hname, List.append_assoc] at hdefine
    obtain ⟨_, hload⟩ := readRow_head hload hat
    obtain ⟨_, hdefine⟩ := readRow_head hdefine hparen
    obtain ⟨t, hoperand, -⟩ := readRow_at hload
    obtain ⟨hlast, -, -⟩ := readRow_paren hdefine
    exact absurd (mem_paren_of_getLast? hlast)
      (not_mem_paren ((readOperand_eq_ok hoperand).2.imp_left And.left))

theorem Line.read_of_isSymbol {s : Symbol} (hs : isSymbol s.name.toList = true) :
    (Line.define s).read = some [.label s.name] ∧ (Line.load s).read = some [.load s.name] := by
  have hchar {c : Char} (h : c ∈ s.name.toList) : isBlank c = false ∧ c ≠ '/' ∧ c ≠ ')' :=
    isBlank_of_isSymbolRest (isSymbolRest_of_mem hs h)
  have hunbroken : s.Unbroken := fun c h => isBreak_of_not_isBlank (hchar h).1
  have htrim : trim s.name.toList = s.name.toList := trim_eq_self fun c h => (hchar h).1
  have hslash : '/' ∉ s.name.toList := fun h => (hchar h).2.1 rfl
  have hread : readSymbol s.name.toList = .ok s.name := by
    rw [readSymbol, if_pos hs, String.ofList_toList]
  constructor
  · have hcontent :
        content ('(' :: (s.name.toList ++ [')'])) = '(' :: (s.name.toList ++ [')']) := by
      rw [content, uncomment_eq_self (by simpa using hslash), trim_cons (by decide),
        trimRight_append_singleton _ (by decide)]
    have hof : Statement.ofChars ('(' :: (s.name.toList ++ [')'])) = .ok (.label s.name) := by
      rw [← List.cons_append]
      simp only [Statement.ofChars, List.cons_append]
      rw [if_pos (by rw [← List.cons_append, List.getLast?_concat]), List.dropLast_concat, htrim,
        hread]
    rw [Line.read_define_of_unbroken hunbroken]
    simp only [readRow, hcontent, hof]
  · have hcontent : content ('@' :: s.name.toList) = '@' :: s.name.toList := by
      rw [content, uncomment_eq_self (by simpa using hslash), trim_eq_self]
      have hat : isBlank '@' = false := by decide
      simpa [hat] using fun c h => (hchar (c := c) h).1
    have hne : s.name.toList.isEmpty = false := by
      cases hn : s.name.toList with
      | nil => simp [hn, isSymbol] at hs
      | cons c r => rfl
    have hof : Statement.ofChars ('@' :: s.name.toList) = .ok (.load s.name) := by
      simp only [Statement.ofChars, htrim, readOperand, hne, isNumeral_of_isSymbol hs, hread,
        Bool.false_eq_true, if_false]
    rw [Line.read_load_of_unbroken hunbroken]
    simp only [readRow, hcontent, hof]

theorem Line.read_register (r : Register) :
    (Line.load (.register r)).read = some [.load r.name] := by
  have hs : isSymbol r.name.toList = true := by cases r <;> decide
  exact (Line.read_of_isSymbol (s := .register r) hs).2

/-! ## Assembling -/

/-- Code can be read, and defines no label twice and none of the machine's. -/
def Code.assembles (c : Code) : Bool :=
  (readCode c).any fun statements =>
    decide (labelNames statements).Nodup &&
      (labelNames statements).all fun name => (predefined? name).isNone

/-- A source that says what some code says can be assembled if the code can. -/
theorem exists_assemble_of_readRows {source : String} {c : Code}
    (hread : readRows (rows source.toList) = readCode c) (h : c.assembles = true) (file : String)
    (base : Int) : ∃ p, assemble source file base = .ok p := by
  unfold Code.assembles at h
  rw [← hread, Option.any_eq_true] at h
  obtain ⟨statements, hread, h⟩ := h
  rw [Bool.and_eq_true, decide_eq_true_eq, List.all_eq_true] at h
  exact exists_assemble hread h.1 (fun name hname => Option.isNone_iff_eq_none.1 (h.2 name hname))
    file base

end HackToolchain.Codegen
