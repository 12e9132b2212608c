import HackToolchain.Proofs.Asm.Grammar
import HackToolchain.Proofs.Asm.Passes
import HackToolchain.Proofs.Asm.Renaming

/-!
# Sources under other names

A row that brings in a symbol has it in a frame: an opening sign with blanks around it, the symbol,
and what closes the row (`Frame`). The assembler reads any other symbol in the same frame, and in
the same place, so that a source whose symbols are renamed row by row (`renameRow`) is read as the
statements of the source under other names. What it is assembled to differs by the names only
(`assemble_renamed`).
-/

set_option autoImplicit false

namespace HackToolchain.Asm

open Text Machine

/-! ## Frames -/

/-- What stands on a row in front of a symbol and behind it, up to the comment, with what the row
says of the symbol: it defines it as a label, or it loads it. -/
inductive Frame : List Char → List Char → (String → Statement) → Prop where
  | label {lead before after trail : List Char} (hlead : AllBlank lead) (hbefore : AllBlank before)
      (hafter : AllBlank after) (htrail : AllBlank trail) :
      Frame (lead ++ '(' :: before) (after ++ ')' :: trail) .label
  | load {lead before trail : List Char} (hlead : AllBlank lead) (hbefore : AllBlank before)
      (htrail : AllBlank trail) :
      Frame (lead ++ '@' :: before) trail .load

theorem isSymbolRest_of_isBlank {c : Char} (h : isBlank c = true) : isSymbolRest c = false := by
  by_contra hrest
  rw [Bool.not_eq_false] at hrest
  rw [(isBlank_of_isSymbolRest hrest).1] at h
  exact absurd h (by decide)

theorem not_slash_of_allBlank {s : List Char} (h : AllBlank s) : '/' ∉ s :=
  fun hmem => absurd (h _ hmem) (by decide)

theorem not_slash_of_isSymbol {name : List Char} (h : isSymbol name = true) : '/' ∉ name :=
  fun hmem => (isBlank_of_isSymbolRest (isSymbolRest_of_mem h hmem)).2.1 rfl

theorem trimmed_parens (s : List Char) : Trimmed ('(' :: (s ++ [')'])) := by
  constructor
  · intro c hc
    obtain rfl : '(' = c := by simpa using hc
    decide
  · intro c hc
    rw [← List.cons_append, List.getLast?_concat, Option.mem_some] at hc
    subst hc
    decide

theorem trimmed_at (before : List Char) {name : List Char} (h : isSymbol name = true) :
    Trimmed ('@' :: (before ++ name)) := by
  constructor
  · intro c hc
    obtain rfl : '@' = c := by simpa using hc
    decide
  · intro c hc
    have hne : name ≠ [] := by
      rintro rfl
      exact absurd h (by decide)
    rw [← List.cons_append, List.getLast?_append_of_ne_nil _ hne] at hc
    exact (trimmed_of_isSymbol h).last c hc

namespace Frame

variable {front back name : List Char} {make : String → Statement}

theorem mem_front (h : Frame front back make) {c : Char} (hc : c ∈ front) :
    isSymbolRest c = false ∧ c ≠ '/' := by
  have hblank (h : isBlank c = true) : isSymbolRest c = false ∧ c ≠ '/' := by
    refine ⟨isSymbolRest_of_isBlank h, ?_⟩
    rintro rfl
    exact absurd h (by decide)
  cases h with
  | label hlead hbefore _ _ =>
    rw [List.mem_append, List.mem_cons] at hc
    rcases hc with hc | rfl | hc
    · exact hblank (hlead c hc)
    · decide
    · exact hblank (hbefore c hc)
  | load hlead hbefore _ =>
    rw [List.mem_append, List.mem_cons] at hc
    rcases hc with hc | rfl | hc
    · exact hblank (hlead c hc)
    · decide
    · exact hblank (hbefore c hc)

theorem mem_back (h : Frame front back make) {c : Char} (hc : c ∈ back) :
    isSymbolRest c = false := by
  cases h with
  | label _ _ hafter htrail =>
    rw [List.mem_append, List.mem_cons] at hc
    rcases hc with hc | rfl | hc
    · exact isSymbolRest_of_isBlank (hafter c hc)
    · decide
    · exact isSymbolRest_of_isBlank (htrail c hc)
  | load _ _ htrail => exact isSymbolRest_of_isBlank (htrail c hc)

theorem uncomment_eq (h : Frame front (uncomment back) make) (hname : isSymbol name = true) :
    uncomment (front ++ name ++ back) = front ++ name ++ uncomment back := by
  refine uncomment_append (fun hmem => ?_) back
  rcases List.mem_append.1 hmem with hmem | hmem
  · exact (h.mem_front hmem).2 rfl
  · exact not_slash_of_isSymbol hname hmem

/-- Every symbol in the frame makes a row of the grammar, and none with a numeral that is too
long. -/
theorem form (h : Frame front (uncomment back) make) (hname : isSymbol name = true) :
    Form (content (front ++ name ++ back)) (make (String.ofList name)) ∧
      LoadsShort (front ++ name ++ back) := by
  have huncomment := h.uncomment_eq hname
  unfold LoadsShort content
  rw [huncomment]
  generalize uncomment back = rest at h
  cases h with
  | @label lead before after trail hlead hbefore hafter htrail =>
    have htrim : trim (lead ++ '(' :: before ++ name ++ (after ++ ')' :: trail)) =
        '(' :: (before ++ name ++ after ++ [')']) :=
      trim_eq_iff.2 ⟨trimmed_parens _, lead, trail, hlead, htrail, by simp⟩
    rw [htrim]
    refine ⟨.label hbefore hafter hname, fun _ _ hload => ?_⟩
    cases hload
  | @load lead before trail hlead hbefore htrail =>
    have htrim : trim (lead ++ '@' :: before ++ name ++ rest) = '@' :: (before ++ name) :=
      trim_eq_iff.2 ⟨trimmed_at before hname, lead, rest, hlead, htrail, by simp⟩
    rw [htrim]
    refine ⟨.symbol hbefore hname, fun before' digits hload hbefore' hdigits => ?_⟩
    have hsame : before ++ name = before' ++ digits := (List.cons.inj hload).2
    have hdigits' : name = digits :=
      calc name = trim (before ++ name) := (trim_append hbefore (trimmed_of_isSymbol hname)).symm
        _ = trim (before' ++ digits) := congrArg trim hsame
        _ = digits := trim_append hbefore' (trimmed_of_isNumeral hdigits)
    rw [← hdigits', isNumeral_of_isSymbol hname] at hdigits
    exact absurd hdigits (by decide)

theorem exists_startsAt (h : Frame front back make) :
    ∃ column, ∀ rest, StartsAt (front ++ rest) column := by
  cases h with
  | @label lead before _ _ hlead _ _ _ =>
    exact ⟨_, fun rest => ⟨lead, '(', before ++ rest, by simp, hlead, by decide, rfl⟩⟩
  | @load lead before _ hlead _ _ =>
    exact ⟨_, fun rest => ⟨lead, '@', before ++ rest, by simp, hlead, by decide, rfl⟩⟩

/-- Symbols in the same frame are read in the same place, each as what the frame makes of it. -/
theorem readLine_eq (h : Frame front (uncomment back) make) (file : String) (number : Nat) :
    ∃ location, ∀ name : String, isSymbol name.toList = true →
      readLine file number (front ++ name.toList ++ back) =
        .ok (some ⟨make name, location, String.ofList (front ++ name.toList ++ back)⟩) := by
  obtain ⟨column, hcolumn⟩ := h.exists_startsAt
  refine ⟨{ file, line := number, column }, fun name hname => ?_⟩
  obtain ⟨hform, hshort⟩ := h.form hname
  have hread : Statement.ofChars (content (front ++ name.toList ++ back)) = .ok (make name) := by
    rw [ofChars_of_form (trimmed_content _) hshort hform, String.ofList_toList]
  have hstarts : StartsAt (front ++ name.toList ++ back) column := by
    rw [List.append_assoc]
    exact hcolumn _
  unfold readLine
  split
  · next hnil =>
    rw [hnil] at hread
    cases hread
  · rw [hread, hstarts.firstColumn_eq]

end Frame

/-- A row is cut up where what it says is. -/
theorem exists_back {row a b : List Char} (hrow : content row = a ++ b) (ha : '/' ∉ a) :
    ∃ lead trail back, AllBlank lead ∧ AllBlank trail ∧ row = lead ++ a ++ back ∧
      uncomment back = b ++ trail := by
  obtain ⟨comment, hcomment⟩ := exists_uncomment row
  obtain ⟨-, lead, trail, hlead, htrail, hkept⟩ := trim_eq_iff.1 hrow
  have hsplit : row = lead ++ a ++ (b ++ trail ++ comment) := by
    rw [hcomment, hkept]
    simp
  have hslash : '/' ∉ lead ++ a := by
    rw [List.mem_append, not_or]
    exact ⟨not_slash_of_allBlank hlead, ha⟩
  refine ⟨lead, trail, _, hlead, htrail, hsplit, ?_⟩
  -- What is kept of the row starts with all that stands in front of the cut.
  have hsame : lead ++ a ++ uncomment (b ++ trail ++ comment) = lead ++ a ++ (b ++ trail) := by
    rw [← uncomment_append hslash, ← hsplit, hkept]
    simp
  exact List.append_cancel_left hsame

/-- A row that brings in a symbol has it in a frame. -/
theorem exists_frame {row : List Char} {s : Statement} {name : String}
    (h : Form (content row) s) (hs : s.symbol? = some name) :
    ∃ front back make, row = front ++ name.toList ++ back ∧ Frame front (uncomment back) make ∧
      isSymbol name.toList = true ∧ predefined? name = none ∧ s = make name := by
  generalize hrow : content row = text at h
  cases h with
  | @label before chars after hbefore hafter hname =>
    obtain ⟨rfl, hfree⟩ := Statement.symbol?_label.1 hs
    have hcut : content row = ('(' :: before ++ chars) ++ (after ++ [')']) := by simp [hrow]
    obtain ⟨lead, trail, back, hlead, htrail, rfl, hback⟩ := exists_back hcut (by
      simp [not_slash_of_allBlank hbefore, not_slash_of_isSymbol hname])
    refine ⟨lead ++ '(' :: before, back, .label, by simp, ?_, by simpa using hname, hfree, rfl⟩
    rw [hback, List.append_assoc]
    exact .label hlead hbefore hafter htrail
  | @symbol before chars hbefore hname =>
    obtain ⟨rfl, -, hfree⟩ := Statement.symbol?_load.1 hs
    have hcut : content row = ('@' :: before ++ chars) ++ [] := by simp [hrow]
    obtain ⟨lead, trail, back, hlead, htrail, rfl, hback⟩ := exists_back hcut (by
      simp [not_slash_of_allBlank hbefore, not_slash_of_isSymbol hname])
    refine ⟨lead ++ '@' :: before, back, .load, by simp, ?_, by simpa using hname, hfree, rfl⟩
    rw [hback]
    exact .load hlead hbefore htrail
  | constant hbefore hdigits hvalue =>
    -- What is loaded is a numeral and no symbol.
    obtain ⟨-, hnum, -⟩ := Statement.symbol?_load.1 hs
    rw [String.toList_ofList, hdigits] at hnum
    cases hnum
  | compute hchars hmeans => cases hs

/-! ## The symbols of a source -/

/-- The symbol that a row brings in: the label that it defines, or what it loads. -/
def symbolOf? (row : List Char) : Option String :=
  match Statement.ofChars (content row) with
  | .ok s => s.symbol?
  | .error _ => none

/-- The symbols of a source, which are neither numbers nor the machine's. -/
def symbolsOf (source : String) : List String := (rows source.toList).filterMap symbolOf?

/-- A row with its symbol, which is the first stretch of characters of symbols on it, renamed. -/
def renameRow (f : String → String) (row : List Char) : List Char :=
  match symbolOf? row with
  | none => row
  | some name =>
    row.takeWhile (fun c => !isSymbolRest c) ++ (f name).toList ++
      (row.dropWhile fun c => !isSymbolRest c).dropWhile isSymbolRest

/-- A row brings in a symbol if the grammar has a statement for it that does. -/
theorem symbolOf?_eq_some {row : List Char} {name : String} :
    symbolOf? row = some name ↔ ∃ s, Form (content row) s ∧ s.symbol? = some name := by
  unfold symbolOf?
  constructor
  · intro h
    split at h
    · next s hread => exact ⟨s, form_of_ofChars (trimmed_content row) hread, h⟩
    · cases h
  · rintro ⟨s, hform, hs⟩
    obtain ⟨front, back, make, hrow, hframe, hname, -, -⟩ := exists_frame hform hs
    have hshort : LoadsShort row := by
      rw [hrow]
      exact (hframe.form hname).2
    rw [ofChars_of_form (trimmed_content row) hshort hform]
    exact hs

theorem Frame.not_isSymbolRest_back {front back : List Char} {make : String → Statement}
    (h : Frame front (uncomment back) make) : ∀ c ∈ back.head?, isSymbolRest c = false := by
  intro c hc
  by_contra hrest
  rw [Bool.not_eq_false] at hrest
  cases back with
  | nil => cases hc
  | cons d back =>
    obtain rfl : d = c := by simpa using hc
    -- No comment begins here, so the character counts.
    rw [uncomment_cons_of_ne (isBlank_of_isSymbolRest hrest).2.1] at h
    rw [h.mem_back List.mem_cons_self] at hrest
    cases hrest

theorem takeWhile_dropWhile_append {p : Char → Bool} {s t : List Char} (hs : ∀ c ∈ s, p c = true)
    (ht : ∀ c ∈ t.head?, p c = false) :
    (s ++ t).takeWhile p = s ∧ (s ++ t).dropWhile p = t := by
  rw [List.takeWhile_append_of_pos hs, List.dropWhile_append_of_pos hs]
  cases t with
  | nil => simp
  | cons c t =>
    have hc : p c = false := ht c rfl
    simp [hc]

/-- In a frame, it is the symbol that is renamed. -/
theorem Frame.renameRow_eq {front back : List Char} {make : String → Statement} {name : String}
    (h : Frame front (uncomment back) make) (hname : isSymbol name.toList = true)
    (hsymbol : symbolOf? (front ++ name.toList ++ back) = some name) (f : String → String) :
    renameRow f (front ++ name.toList ++ back) = front ++ (f name).toList ++ back := by
  have hfront : ∀ c ∈ front, (!isSymbolRest c) = true := by
    intro c hc
    rw [(h.mem_front hc).1]
    rfl
  have hstart : ∀ c ∈ (name.toList ++ back).head?, (!isSymbolRest c) = false := by
    intro c hc
    have hmem : c ∈ name.toList := by
      cases hchars : name.toList with
      | nil =>
        rw [hchars] at hname
        cases hname
      | cons d chars =>
        rw [hchars] at hc
        obtain rfl : d = c := by simpa using hc
        exact List.mem_cons_self
    rw [isSymbolRest_of_mem hname hmem]
    rfl
  obtain ⟨htake, hdrop⟩ := takeWhile_dropWhile_append hfront hstart
  obtain ⟨-, hback⟩ :=
    takeWhile_dropWhile_append (fun c hc => isSymbolRest_of_mem hname hc) h.not_isSymbolRest_back
  simp only [renameRow, hsymbol]
  rw [List.append_assoc front, htake, hdrop, hback]

/-- Every source can be renamed, with newlines for its breaks. -/
theorem exists_renamed {f : String → String} {source : String}
    (hlegal : ∀ name ∈ symbolsOf source, isSymbol (f name).toList = true) :
    ∃ source' : String, rows source'.toList = (rows source.toList).map (renameRow f) := by
  have hbreak : ∀ row ∈ rows source.toList, ∀ c ∈ renameRow f row, isBreak c = false := by
    intro row hrow c hc
    have hold {d : Char} (hd : d ∈ row) : isBreak d = false := isBreak_of_mem_rows hrow hd
    unfold renameRow at hc
    split at hc
    · exact hold hc
    · next name hname =>
      have hmem : name ∈ symbolsOf source := List.mem_filterMap.2 ⟨row, hrow, hname⟩
      rw [List.mem_append, List.mem_append] at hc
      rcases hc with (hc | hc) | hc
      · exact hold ((List.takeWhile_sublist _).mem hc)
      · have hrest := isSymbolRest_of_mem (hlegal name hmem) hc
        exact isBreak_of_not_isBlank (isBlank_of_isSymbolRest hrest).1
      · exact hold ((List.dropWhile_sublist _).mem ((List.dropWhile_sublist _).mem hc))
  refine ⟨String.ofList ((rows source.toList).flatMap fun row => renameRow f row ++ ['\n']), ?_⟩
  rw [String.toList_ofList, rows_flatMap, List.map_eq_flatMap]
  exact List.flatMap_congr fun row hrow => rowsOf_of_no_break (hbreak row hrow)

/-! ## Reading -/

section Reading

variable {f : String → String} {own : Set String}

theorem ofChars_of_readLine {file : String} {number : Nat} {row : List Char} {s : LocatedStatement}
    (h : readLine file number row = .ok (some s)) :
    Statement.ofChars (content row) = .ok s.statement := by
  unfold readLine at h
  split at h
  · cases h
  · simp only at h
    split at h
    · next hread =>
      obtain rfl := Option.some.inj (Except.ok.inj h)
      exact hread
    · split at h <;> cases h

theorem Frame.renamed {front kept : List Char} {make : String → Statement} {name : String}
    (h : Frame front kept make) (hname : name ∈ own) :
    (make name).Renamed f own (make (f name)) := by
  cases h with
  | label => exact .label hname
  | load => exact .load hname

/-- A renamed row is read as what the row says under the other name, and complained of as the row
is. -/
theorem readLine_renameRow (hf : ∀ name ∈ own, isSymbol (f name).toList = true) {row : List Char}
    (hrow : ∀ name ∈ symbolOf? row, name ∈ own) (file : String) (number : Nat) :
    Together (Option.Rel (LocatedStatement.Renamed f own)) (readLine file number row)
      (readLine file number (renameRow f row)) := by
  cases hsymbol : symbolOf? row with
  | none =>
    have hsame : renameRow f row = row := by simp only [renameRow, hsymbol]
    rw [hsame]
    cases hread : readLine file number row with
    | error e => exact .error e e
    | ok found =>
      cases found with
      | none => exact .ok .none
      | some s =>
        have hkept : s.statement.symbol? = none := by
          rw [← hsymbol, symbolOf?, ofChars_of_readLine hread]
        exact .ok (.some ⟨.keep hkept, rfl⟩)
  | some name =>
    obtain ⟨s, hform, hs⟩ := symbolOf?_eq_some.1 hsymbol
    obtain ⟨front, back, make, rfl, hframe, hname, -, rfl⟩ := exists_frame hform hs
    have hmem : name ∈ own := hrow name hsymbol
    obtain ⟨location, hread⟩ := hframe.readLine_eq file number
    rw [hframe.renameRow_eq hname hsymbol, hread name hname, hread (f name) (hf name hmem)]
    exact .ok (.some ⟨hframe.renamed hmem, rfl⟩)

theorem readLines_renameRow (hf : ∀ name ∈ own, isSymbol (f name).toList = true)
    {lines : List (List Char)} (hrows : ∀ row ∈ lines, ∀ name ∈ symbolOf? row, name ∈ own)
    (file : String) (number : Nat) {out other : Array LocatedStatement}
    (hout : List.Forall₂ (LocatedStatement.Renamed f own) out.toList other.toList) :
    Together (fun a b => List.Forall₂ (LocatedStatement.Renamed f own) a.toList b.toList)
      (readLines file number out lines)
      (readLines file number other (lines.map (renameRow f))) := by
  induction lines generalizing number out other with
  | nil => exact .ok hout
  | cons row lines ih =>
    have hfirst := readLine_renameRow hf (hrows row List.mem_cons_self) file number
    have hrest := fun r hr => hrows r (List.mem_cons_of_mem _ hr)
    rw [List.map_cons, readLines, readLines]
    generalize readLine file number row = found at hfirst ⊢
    generalize readLine file number (renameRow f row) = found' at hfirst ⊢
    cases hfirst with
    | error e e' => exact .error e e'
    | ok h =>
      cases h with
      | none => exact ih hrest (number + 1) hout
      | some h =>
        refine ih hrest (number + 1) ?_
        rw [Array.toList_push, Array.toList_push]
        exact List.rel_append hout (.cons h .nil)

end Reading

/-! ## Assembling -/

theorem assemble_together {f : String → String} {own : Set String} (hf : Renaming f own)
    (hsymbol : ∀ name ∈ own, isSymbol (f name).toList = true) {source source' : String}
    (hrows : rows source'.toList = (rows source.toList).map (renameRow f))
    (hown : ∀ name ∈ symbolsOf source, name ∈ own) (file : String) (base : Int) :
    Together (Assembly.Renamed f own) (assemble source file base) (assemble source' file base) := by
  have hmem : ∀ row ∈ rows source.toList, ∀ name ∈ symbolOf? row, name ∈ own :=
    fun row hrow name hname => hown name (List.mem_filterMap.2 ⟨row, hrow, hname⟩)
  have hread :=
    readLines_renameRow hsymbol hmem file 1 (.nil : List.Forall₂ _ #[].toList #[].toList)
  unfold assemble readSource
  rw [hrows]
  generalize readLines file 1 #[] (rows source.toList) = found at hread ⊢
  generalize readLines file 1 #[] ((rows source.toList).map (renameRow f)) = found' at hread ⊢
  cases hread with
  | error e e' => exact .error e e'
  | ok hstatements => exact assembleStatements_renamed hf hstatements base

/-- What the assembler makes of a source does not depend on how its symbols are called. Let every
symbol of a source that is not the machine's get another name, which is a symbol and not the
machine's either, and no two of them the same. Then the renamed source is assembled exactly if the
source is. The words are the same and come from the same places, and the labels and the variables
are those of the source in the same order, with the same addresses, under their other names. -/
theorem assemble_renamed {f : String → String} {source source' : String}
    (hrows : rows source'.toList = (rows source.toList).map (renameRow f))
    (hlegal : ∀ name ∈ symbolsOf source,
      isSymbol (f name).toList = true ∧ predefined? (f name) = none)
    (hinj : Set.InjOn f {name | name ∈ symbolsOf source}) (file : String) (base : Int) :
    ((∃ p', assemble source' file base = .ok p') ↔ ∃ p, assemble source file base = .ok p) ∧
      ∀ p p', assemble source file base = .ok p → assemble source' file base = .ok p' →
        p'.words = p.words ∧ p'.sourceMap = p.sourceMap ∧
          p'.labels.toList = p.labels.toList.map (fun e => (f e.1, e.2)) ∧
          p'.vars.toList = p.vars.toList.map (fun e => (f e.1, e.2)) := by
  have hf : Renaming f {name | name ∈ symbolsOf source} := by
    refine ⟨hinj, fun name hname => ?_, fun name hname => ?_⟩
    · obtain ⟨row, -, hrow⟩ := List.mem_filterMap.1 hname
      obtain ⟨s, hform, hs⟩ := symbolOf?_eq_some.1 hrow
      obtain ⟨front, back, make, -, -, hsymbol, hfree, -⟩ := exists_frame hform hs
      exact ⟨isNumeral_of_isSymbol hsymbol, hfree⟩
    · obtain ⟨hsymbol, hfree⟩ := hlegal name hname
      exact ⟨isNumeral_of_isSymbol hsymbol, hfree⟩
  have htogether := assemble_together hf (fun name hname => (hlegal name hname).1) hrows
    (fun name hname => hname) file base
  refine ⟨htogether.isOk_iff, fun p p' hp hp' => ?_⟩
  rw [hp, hp'] at htogether
  cases htogether with
  | ok h => exact ⟨h.words, h.sourceMap, h.labels.entries, h.vars.entries⟩

/-- Two names that are swapped, and a third one that is changed. -/
def swapNames (name : String) : String :=
  if name = "LOOP" then "x" else if name = "x" then "LOOP" else if name = "y" then "$1" else name

/-- A source with a label that is loaded before and after its definition, and two variables. -/
def loopSource : String := "@LOOP\n @ x // not LOOP\n( LOOP )\nD=M\n@SP\n@y\n@LOOP\n0;JMP\n@x\n"

/-- The same under the other names. -/
def swappedSource : String := "@x\n @ LOOP // not LOOP\n( x )\nD=M\n@SP\n@$1\n@x\n0;JMP\n@LOOP\n"

theorem assemble_renamed_loopSource :
    ∃ p p', assemble loopSource "a.asm" 16 = .ok p ∧ assemble swappedSource "a.asm" 16 = .ok p' ∧
      p'.words = p.words ∧ p'.sourceMap = p.sourceMap ∧ p'.labels.toList = [("x", 2)] ∧
      p'.vars.toList = p.vars.toList.map fun e => (swapNames e.1, e.2) := by
  have hsymbols : symbolsOf loopSource = ["LOOP", "x", "LOOP", "y", "LOOP", "x"] := by
    decide +kernel
  have hlegal : ∀ name ∈ symbolsOf loopSource,
      isSymbol (swapNames name).toList = true ∧ predefined? (swapNames name) = none := by
    rw [hsymbols]
    decide +kernel
  have hinj : Set.InjOn swapNames {name | name ∈ symbolsOf loopSource} := by
    rw [hsymbols]
    have hpairs : ∀ a ∈ ["LOOP", "x", "LOOP", "y", "LOOP", "x"],
        ∀ b ∈ ["LOOP", "x", "LOOP", "y", "LOOP", "x"], swapNames a = swapNames b → a = b := by
      decide +kernel
    exact fun a ha b hb => hpairs a ha b hb
  have hrows : rows swappedSource.toList = (rows loopSource.toList).map (renameRow swapNames) := by
    decide +kernel
  obtain ⟨hiff, hsame⟩ := assemble_renamed hrows hlegal hinj "a.asm" 16
  have hread : readRows (rows loopSource.toList) =
      some [.load "LOOP", .load "x", .label "LOOP",
        .compute ⟨some "D", "M", none⟩ { computation := .y .m, destination := { d := true } },
        .load "SP", .load "y", .load "LOOP",
        .compute ⟨none, "0", some "JMP"⟩ { computation := .zero, jump := some .always },
        .load "x"] := by
    decide +kernel
  obtain ⟨p, hp⟩ := exists_assemble hread (by decide) (by decide) "a.asm" 16
  obtain ⟨p', hp'⟩ := hiff.2 ⟨p, hp⟩
  obtain ⟨hwords, hmap, hlabels, hvars⟩ := hsame p p' hp hp'
  refine ⟨p, p', hp, hp', hwords, hmap, ?_, hvars⟩
  obtain ⟨statements, hstatements, hassembled⟩ := exists_assembled hp
  obtain rfl := Option.some.inj (hread.symm.trans hstatements)
  rw [hlabels, hassembled.labels]
  decide +kernel

end HackToolchain.Asm
