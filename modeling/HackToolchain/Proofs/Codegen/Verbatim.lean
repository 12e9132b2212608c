import HackToolchain.Proofs.Codegen.Labels

/-!
# Rows that say names as they are

What a row is to define or to load is told from the row alone (`definitionOn?`, `operandOn?`). The
labels of a text are the symbols among the names that its rows are to define
(`definedLabels_eq_filter`), and a load is read as one of what its row is to load
(`operandOn?_of_readRow`). A name with a break or a comment in it, or with blanks at its ends, is
not read as it is written. Where no name is like that, the rows of code define just the names of the
symbols that the code defines, and load just what it loads (`definitionsIn_renderLines`,
`operandsIn_renderLines`).
-/

set_option autoImplicit false

namespace HackToolchain.Codegen

open Text Machine Asm

/-! ## Names -/

/-- A name that is read as it is written: it has no break and no comment in it, and no blank at its
ends. -/
structure Verbatim (name : String) : Prop where
  unbroken : ∀ c ∈ name.toList, isBreak c = false
  uncommented : uncomment name.toList = name.toList
  trimmed : Trimmed name.toList

theorem verbatim_of_forall {name : String}
    (h : ∀ c ∈ name.toList, isBlank c = false ∧ c ≠ '/') : Verbatim name where
  unbroken c hc := isBreak_of_not_isBlank (h c hc).1
  uncommented := uncomment_eq_self fun hc => (h _ hc).2 rfl
  trimmed := trimmed_of_not_isBlank fun c hc => (h c hc).1

theorem plain_of_mem_render {n : Int} {c : Char} (h : c ∈ (Decimal.render n).toList) :
    isBlank c = false ∧ c ≠ '/' :=
  ⟨Decimal.isBlank_of_mem_render h, Decimal.ne_slash_of_mem_render h⟩

theorem verbatim_append_render {text : String}
    (h : ∀ c ∈ text.toList, isBlank c = false ∧ c ≠ '/') (n : Int) :
    Verbatim (text ++ Decimal.render n) := by
  refine verbatim_of_forall fun c hc => ?_
  rw [String.toList_append, List.mem_append] at hc
  rcases hc with hc | hc
  · exact h c hc
  · exact plain_of_mem_render hc

/-- Names that are read as they are written may be joined by a sign that is no blank and no
slash. -/
theorem Verbatim.join {m n sign : String} {c : Char} (hm : Verbatim m) (hn : Verbatim n)
    (hsign : sign.toList = [c]) (hc : isBlank c = false ∧ c ≠ '/') : Verbatim (m ++ sign ++ n) := by
  have htext : (m ++ sign ++ n).toList = m.toList ++ c :: n.toList := by
    simp [String.toList_append, hsign]
  refine ⟨fun d hd => ?_, ?_, ⟨fun d hd => ?_, fun d hd => ?_⟩⟩
  · rw [htext, List.mem_append, List.mem_cons] at hd
    rcases hd with hd | rfl | hd
    · exact hm.unbroken d hd
    · exact isBreak_of_not_isBlank hc.1
    · exact hn.unbroken d hd
  · rw [htext, uncomment_append_cons hm.uncommented hc.2, uncomment_cons_of_ne hc.2, hn.uncommented]
  · rw [htext] at hd
    cases hl : m.toList with
    | nil =>
      rw [hl] at hd
      exact Option.some.inj hd ▸ hc.1
    | cons b rest =>
      rw [hl] at hd
      exact hm.trimmed.first d (hl ▸ hd)
  · rw [htext, List.getLast?_append_cons] at hd
    cases hl : n.toList with
    | nil =>
      rw [hl] at hd
      exact Option.some.inj hd ▸ hc.1
    | cons b rest =>
      rw [hl, List.getLast?_cons_cons] at hd
      exact hn.trimmed.last d (hl ▸ hd)

theorem Verbatim.within {module : Option String} {name : String}
    (hm : ∀ m, module = some m → Verbatim m) (hn : Verbatim name) :
    Verbatim (Symbol.within module name) := by
  cases module with
  | none => exact hn
  | some m => exact (hm m rfl).join hn rfl (by decide)

/-- The symbols of a task are read as they are written if the name of its module and the name in it
are. -/
theorem Task.MayMention.verbatim {t : Task} {k : Counters} {s : Symbol} (h : t.MayMention k s)
    (hm : ∀ m, t.module = some m → Verbatim m)
    (hn : ∀ name, t.job.target? = some name → Verbatim name) : Verbatim s.name := by
  cases h with
  | register r => exact verbatim_of_forall (by cases r <;> decide)
  | comparison branch =>
    cases branch
    · exact verbatim_append_render (by decide) _
    · exact verbatim_append_render (by decide) _
  | returnAddress => exact .within hm (verbatim_append_render (by decide) _)
  | @static m index hmodule =>
    have hindex : Verbatim (Decimal.render index) :=
      verbatim_of_forall fun _ => plain_of_mem_render
    exact (hm m hmodule).join hindex rfl (by decide)
  | label h => exact .within hm (hn _ h)
  | function h => exact hn _ h

/-! ## Rows -/

/-- The name that a row is to define, be it a symbol or not: what stands in brackets on it. -/
def definitionOn? (row : List Char) : Option String :=
  match content row with
  | '(' :: rest =>
    if ('(' :: rest).getLast? = some ')' then some (String.ofList (trim rest.dropLast)) else none
  | _ => none

/-- What a row is to load: what stands behind the sign for a load. -/
def operandOn? (row : List Char) : Option String :=
  match content row with
  | '@' :: rest => some (String.ofList (trim rest))
  | _ => none

/-- The names that the rows of a text are to define. -/
def definitionsIn (text : String) : List String := (rows text.toList).filterMap definitionOn?

/-- What the rows of a text are to load. -/
def operandsIn (text : String) : List String := (rows text.toList).filterMap operandOn?

theorem readRow_eq_singleton {row : List Char} {t : Statement} :
    readRow row = some [t] ↔ content row ≠ [] ∧ Statement.ofChars (content row) = .ok t := by
  unfold readRow
  cases content row with
  | nil => simp
  | cons c rest =>
    simp only
    cases Statement.ofChars (c :: rest) with
    | error f => simp
    | ok s => simp

/-- A row defines a label just if it defines a name that is a symbol. -/
theorem labelOn?_eq_some_iff {row : List Char} {name : String} :
    labelOn? row = some name ↔ definitionOn? row = some name ∧ isSymbol name.toList = true := by
  have hread : labelOn? row = some name ↔ readRow row = some [.label name] := by
    unfold labelOn?
    constructor
    · intro h
      split at h
      · next label hrow => rw [hrow, Option.some.inj h]
      · cases h
    · intro h
      rw [h]
  rw [hread, readRow_eq_singleton, definitionOn?]
  constructor
  · rintro ⟨-, h⟩
    obtain ⟨rest, hrow, hlast, hsymbol, hname⟩ | ⟨rest, -, h⟩ | ⟨spelling, action, -, h⟩ :=
      ofChars_cases h
    · obtain rfl := Statement.label.inj hname
      rw [hrow] at hlast ⊢
      exact ⟨if_pos hlast, by rwa [String.toList_ofList]⟩
    · cases (readOperand_eq_ok h).1
    · cases h
  · rintro ⟨h, hsymbol⟩
    split at h
    · next rest hrow =>
      split at h
      · next hlast =>
        obtain rfl := Option.some.inj h
        rw [String.toList_ofList] at hsymbol
        rw [hrow]
        refine ⟨List.cons_ne_nil _ _, ?_⟩
        simp only [Statement.ofChars, readSymbol, if_pos hlast, if_pos hsymbol]
      · cases h
    · cases h

/-- The labels of a text are the symbols among the names that its rows are to define. -/
theorem definedLabels_eq_filter (text : String) :
    definedLabels text = (definitionsIn text).filter fun name => isSymbol name.toList := by
  rw [definedLabels, definitionsIn, List.filter_filterMap]
  refine List.filterMap_congr fun row _ => Option.ext fun name => ?_
  rw [labelOn?_eq_some_iff, Option.filter_eq_some_iff]

/-- What the assembler reads as a load is a load of what the row loads. -/
theorem operandOn?_of_readRow {row : List Char} {name : String}
    (h : readRow row = some [.load name]) : operandOn? row = some name := by
  obtain ⟨rest, -, -, -, h⟩ | ⟨rest, hrow, h⟩ | ⟨spelling, action, -, h⟩ :=
    ofChars_cases (readRow_eq_singleton.1 h).2
  · cases h
  · obtain rfl := Statement.load.inj (readOperand_eq_ok h).1
    simp only [operandOn?, hrow]
  · cases h

/-! ## Rows of code -/

/-- What a line loads: the name of a symbol, or a number. -/
def Line.loaded? : Line → Option String
  | .load s => some s.name
  | .number n => some (Decimal.render n)
  | _ => none

/-- No comment in the code has a break, and the symbols in it are read as they are written. -/
structure Code.Plain (c : Code) : Prop where
  comments : TidyComments c
  symbols : ∀ l ∈ c, ∀ s, l.symbol? = some s → Verbatim s.name

theorem Line.unbroken_of_plain {l : Line} {c : Code} (h : Code.Plain c) (hl : l ∈ c) :
    ∀ d ∈ l.render.toList, isBreak d = false := by
  have hsigns : isBreak '(' = false ∧ isBreak ')' = false ∧ isBreak '@' = false ∧
      isBreak '/' = false ∧ isBreak ' ' = false := by decide
  intro d hd
  cases l with
  | comment text =>
    have htext : (Line.comment text).render.toList = '/' :: '/' :: ' ' :: text.toList := by
      simp [render, String.toList_append]
    simp only [htext, List.mem_cons] at hd
    rcases hd with rfl | rfl | rfl | hd
    · exact hsigns.2.2.2.1
    · exact hsigns.2.2.2.1
    · exact hsigns.2.2.2.2
    · exact h.comments text hl d hd
  | define s =>
    simp only [toList_render_define, List.mem_cons, List.mem_append, List.not_mem_nil,
      or_false] at hd
    rcases hd with rfl | hd | rfl
    · exact hsigns.1
    · exact (h.symbols _ hl s rfl).unbroken d hd
    · exact hsigns.2.1
  | load s =>
    rw [toList_render_load, List.mem_cons] at hd
    rcases hd with rfl | hd
    · exact hsigns.2.2.1
    · exact (h.symbols _ hl s rfl).unbroken d hd
  | number n => exact isBreak_of_mem_number hd
  | act i => exact isBreak_of_mem_render hd

/-- What is left of a name behind a sign that the name itself does not make a comment of. -/
theorem Verbatim.content_cons {name : String} (h : Verbatim name) {c : Char}
    (hc : isBlank c = false ∧ c ≠ '/') : content (c :: name.toList) = c :: name.toList := by
  rw [content, uncomment_cons_of_ne hc.2, h.uncommented, trim_cons hc.1,
    trimRight_eq_self h.trimmed.last]

theorem Verbatim.content_paren {name : String} (h : Verbatim name) :
    content ('(' :: (name.toList ++ [')'])) = '(' :: (name.toList ++ [')']) := by
  rw [content, uncomment_cons_of_ne (by decide), uncomment_concat h.uncommented (by decide),
    trim_cons (by decide), trimRight_append_singleton _ (by decide)]

theorem Verbatim.trim_eq {name : String} (h : Verbatim name) : trim name.toList = name.toList :=
  @trim_append [] _ (fun _ hc => absurd hc List.not_mem_nil) h.trimmed

theorem content_comment (text : String) : content (Line.comment text).render.toList = [] := by
  have htext : (Line.comment text).render.toList = '/' :: '/' :: ' ' :: text.toList := by
    simp [Line.render, String.toList_append]
  rw [content, htext, uncomment_slashes]
  rfl

/-- A row of plain code defines the symbol that its line defines, and loads what its line loads. -/
theorem Line.on_row {l : Line} (h : ∀ s, l.symbol? = some s → Verbatim s.name) :
    definitionOn? l.render.toList = l.defined?.map Symbol.name ∧
      operandOn? l.render.toList = l.loaded? := by
  unfold definitionOn? operandOn?
  cases l with
  | comment text =>
    rw [content_comment]
    exact ⟨rfl, rfl⟩
  | define s =>
    have hs := h s rfl
    rw [toList_render_define, hs.content_paren]
    simp [hs.trim_eq, defined?, loaded?, List.getLast?_cons]
  | load s =>
    have hs := h s rfl
    rw [toList_render_load, hs.content_cons (by decide)]
    simp [hs.trim_eq, defined?, loaded?]
  | number n =>
    have hn : Verbatim (Decimal.render n) := verbatim_of_forall fun _ => plain_of_mem_render
    rw [toList_render_number, hn.content_cons (by decide)]
    simp [hn.trim_eq, defined?, loaded?]
  | act i =>
    have hchar {d : Char} (hd : d ∈ i.render.toList) := Asm.of_mem_render hd
    have hcontent : content i.render.toList = i.render.toList := by
      rw [content, uncomment_eq_self fun hd => (hchar hd).2.1 rfl, trim_eq_self fun d hd =>
        (hchar hd).1]
    rw [render, hcontent]
    constructor
    · split
      · next rest h => exact absurd rfl (hchar (h ▸ List.mem_cons_self)).2.2.1
      · rfl
    · split
      · next rest h => exact absurd rfl (hchar (h ▸ List.mem_cons_self)).2.2.2
      · rfl

/-- Plain code has a row for each of its lines. -/
theorem Code.Plain.rows_renderLines {c : Code} (h : Code.Plain c) :
    rows (renderLines c).toList = c.map fun l => l.render.toList := by
  rw [Codegen.rows_renderLines, List.map_eq_flatMap]
  exact List.flatMap_congr fun l hl => rowsOf_of_no_break (Line.unbroken_of_plain h hl)

theorem definitionsIn_renderLines {c : Code} (h : Code.Plain c) :
    definitionsIn (renderLines c) = (definedIn c).map Symbol.name := by
  rw [definitionsIn, h.rows_renderLines, List.filterMap_map, definedIn, List.map_filterMap]
  exact List.filterMap_congr fun l hl => (Line.on_row (h.symbols l hl)).1

theorem operandsIn_renderLines {c : Code} (h : Code.Plain c) :
    operandsIn (renderLines c) = c.filterMap Line.loaded? := by
  rw [operandsIn, h.rows_renderLines, List.filterMap_map]
  exact List.filterMap_congr fun l hl => (Line.on_row (h.symbols l hl)).2

end HackToolchain.Codegen
