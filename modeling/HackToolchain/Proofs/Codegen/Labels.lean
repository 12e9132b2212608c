import HackToolchain.Proofs.Codegen.Definitions
import HackToolchain.Proofs.Codegen.Symbols

/-!
# Labels in assembly

Each row of an assembly text defines a label or none, whatever the other rows say (`definedLabels`).
The rows of unbroken code define the symbols that its lines define, in the same order, as far as
their names are well formed (`definedLabels_eq`).
-/

set_option autoImplicit false

namespace HackToolchain.Codegen

open Text Asm Vm

/-! ## Labels of texts -/

/-- The label that a row of assembly defines. -/
def labelOn? (row : List Char) : Option String :=
  match readRow row with
  | some [.label name] => some name
  | _ => none

/-- The labels that an assembly text defines, in order. -/
def definedLabels (text : String) : List String := (rows text.toList).filterMap labelOn?

theorem labelNames_of_readRow {row : List Char} {a : List Statement} (h : readRow row = some a) :
    labelNames a = (labelOn? row).toList := by
  have hshape : a = [] ∨ ∃ t, a = [t] := by
    unfold readRow at h
    split at h
    · exact .inl (Option.some.inj h).symm
    · split at h
      · exact .inr ⟨_, (Option.some.inj h).symm⟩
      · simp at h
  rw [labelOn?, h]
  rcases hshape with rfl | ⟨t, rfl⟩
  · rfl
  · cases t <;> rfl

theorem labelNames_of_readRows {lines : List (List Char)} {statements : List Statement}
    (h : readRows lines = some statements) : labelNames statements = lines.filterMap labelOn? := by
  induction lines generalizing statements with
  | nil =>
    obtain rfl := Option.some.inj h
    rfl
  | cons row lines ih =>
    obtain ⟨a, b, ha, hb, rfl⟩ := readRows_cons_eq_some.1 h
    rw [labelNames, List.filterMap_append, ← labelNames, ← labelNames, labelNames_of_readRow ha,
      ih hb, List.filterMap_cons]
    cases labelOn? row <;> rfl

/-- The labels that a line of code defines in its rows. -/
def Line.labels (l : Line) : List String := (rowsOf l.render.toList).filterMap labelOn?

theorem definedLabels_renderLines (c : Code) :
    definedLabels (renderLines c) = c.flatMap Line.labels := by
  have htext : (renderLines c).toList = c.flatMap fun l => l.render.toList ++ ['\n'] := by
    simp [renderLines, String.toList_join, List.flatMap_map, String.toList_append]
  rw [definedLabels, htext, rows_flatMap, List.filterMap_flatMap]
  rfl

theorem Line.labels_of_no_break {l : Line} (h : ∀ c ∈ l.render.toList, isBreak c = false) :
    l.labels = (labelOn? l.render.toList).toList := by
  rw [Line.labels, rowsOf_of_no_break h, List.filterMap_cons, List.filterMap_nil]
  cases labelOn? l.render.toList <;> rfl

theorem labelOn?_at (s : List Char) : labelOn? ('@' :: s) = none := by
  unfold labelOn?
  cases hr : readRow ('@' :: s) with
  | none => rfl
  | some a =>
    obtain ⟨t, ht, rfl⟩ := readRow_at hr
    obtain ⟨rfl, -⟩ := readOperand_eq_ok ht
    rfl

theorem Line.labels_of_read {l : Line} {a : List Statement} (h : l.read = some a) :
    l.labels = labelNames a := (labelNames_of_readRows h).symm

/-- A row that defines a symbol whose name is not well formed defines no label. -/
theorem labelOn?_paren {name : List Char} (h : Tight name) (hs : isSymbol name = false) :
    labelOn? ('(' :: (name ++ [')'])) = none := by
  have hcontent : content ('(' :: (name ++ [')'])) = '(' :: (name ++ [')']) := by
    rw [content, uncomment_cons_of_ne (by decide), uncomment_concat h.uncomment (by decide),
      trim_cons (by decide), trimRight_append_singleton _ (by decide)]
  have hof : ∃ e, Statement.ofChars ('(' :: (name ++ [')'])) = .error e := by
    rw [← List.cons_append]
    simp only [Statement.ofChars, List.cons_append]
    rw [if_pos (by rw [← List.cons_append, List.getLast?_concat]), List.dropLast_concat,
      trim_eq_self h.isBlank]
    simp [readSymbol, hs]
  obtain ⟨e, he⟩ := hof
  have hread : readRow ('(' :: (name ++ [')'])) = none := by
    simp only [readRow, hcontent, he]
  rw [labelOn?, hread]

/-- A line defines the label of the symbol that it defines, if the names on it are unbroken and the
name of that symbol is well formed. -/
theorem Line.labels_eq {l : Line} (hl : ∀ s, l.symbol? = some s → s.Unbroken)
    (htidy : ∀ text, l = .comment text → ∀ c ∈ text.toList, isBreak c = false)
    (htight : ∀ s, l.defined? = some s → Tight s.name.toList) :
    l.labels = (l.defined?.toList.filter fun s => isSymbol s.name.toList).map Symbol.name := by
  cases l with
  | comment text => exact labels_of_read (read_comment (htidy text rfl))
  | act i => exact labels_of_read (read_act i)
  | number n =>
    have htext : (Line.number n).render.toList = '@' :: (Decimal.render n).toList := by
      simp [Line.render, String.toList_append]
    have hbreak : ∀ c ∈ (Line.number n).render.toList, isBreak c = false := by
      rw [htext]
      intro c hc
      rcases List.mem_cons.1 hc with rfl | hc
      · decide
      · exact isBreak_of_not_isBlank (Decimal.isBlank_of_mem_render hc)
    rw [labels_of_no_break hbreak, htext, labelOn?_at]
    rfl
  | load s =>
    have hbreak : ∀ c ∈ (Line.load s).render.toList, isBreak c = false := by
      rw [toList_render_load]
      intro c hc
      rcases List.mem_cons.1 hc with rfl | hc
      · decide
      · exact hl s rfl c hc
    rw [labels_of_no_break hbreak, toList_render_load, labelOn?_at]
    rfl
  | define s =>
    cases hs : isSymbol s.name.toList with
    | true =>
      rw [labels_of_read (read_of_isSymbol hs).1]
      simp [labelNames, Statement.label?, Line.defined?, hs]
    | false =>
      have hbreak : ∀ c ∈ (Line.define s).render.toList, isBreak c = false := by
        rw [toList_render_define]
        intro c hc
        simp only [List.mem_cons, List.mem_append, List.not_mem_nil, or_false] at hc
        rcases hc with rfl | hc | rfl
        · decide
        · exact hl s rfl c hc
        · decide
      rw [labels_of_no_break hbreak, toList_render_define, labelOn?_paren (htight s rfl) hs]
      simp [Line.defined?, hs]

/-- Code defines the labels of the symbols that it defines. -/
theorem definedLabels_eq {c : Code} (hc : Code.Unbroken c) (htidy : TidyComments c)
    (htight : ∀ s ∈ definedIn c, Tight s.name.toList) :
    definedLabels (renderLines c) =
      ((definedIn c).filter fun s => isSymbol s.name.toList).map Symbol.name := by
  rw [definedLabels_renderLines]
  induction c with
  | nil => rfl
  | cons l c ih =>
    have hmem {s : Symbol} (hs : l.defined? = some s) : s ∈ definedIn (l :: c) :=
      List.mem_filterMap.2 ⟨l, List.mem_cons_self, hs⟩
    have hrest : ∀ s ∈ definedIn c, s ∈ definedIn (l :: c) := fun s hs =>
      mem_definedIn.2 (List.mem_cons_of_mem _ (mem_definedIn.1 hs))
    rw [List.flatMap_cons, definedIn_cons, List.filter_append, List.map_append,
      ih (fun l' h => hc l' (List.mem_cons_of_mem _ h))
        (fun text h => htidy text (List.mem_cons_of_mem _ h)) fun s hs => htight s (hrest s hs),
      Line.labels_eq (hc l List.mem_cons_self) (fun text h => htidy text (h ▸ List.mem_cons_self))
        fun s hs => htight s (hmem hs)]

end HackToolchain.Codegen
