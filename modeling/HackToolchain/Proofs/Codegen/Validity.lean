import HackToolchain.Proofs.Asm.Grammar
import HackToolchain.Proofs.Asm.Outcomes
import HackToolchain.Proofs.Codegen.Invariants
import HackToolchain.Proofs.Codegen.Modules
import HackToolchain.Proofs.Codegen.Programs

/-!
# Valid assembly

Where the names in a program are symbols to the assembler, each line of its assembly can be read,
except one: a call loads the number of its arguments together with the cells of the frame, and
nobody looks at this sum before. So the assembly is valid exactly if no call has more than 32762
arguments (`assembly_valid_iff`).
-/

set_option autoImplicit false

namespace HackToolchain.Codegen

open Text Vm Asm

/-! ## Programs -/

/-- The names in a program are symbols to the assembler. -/
structure LegalNames (options : Options) (units : List SourceUnit) : Prop where
  modules : ∀ u ∈ units, isSymbol u.moduleName.toList = true
  targets : ∀ t ∈ unitTasks units, ∀ name, t.job.target? = some name →
    isSymbol name.toList = true
  entry : isSymbol options.entry.toList = true

/-- No call in a program has so many arguments that together with the five cells of the frame they
are more than the assembler loads. -/
def SmallCalls (units : List SourceUnit) : Prop :=
  ∀ t ∈ unitTasks units, ∀ name count, t.job = .command (.call name count) → count ≤ 32762

/-! ## Symbols -/

theorem isSymbol_within_of_module {module : Option String} {name : String}
    (hm : ∀ m, module = some m → isSymbol m.toList = true) (hn : isSymbol name.toList = true) :
    isSymbol (Symbol.within module name).toList = true := by
  cases module with
  | none => exact hn
  | some m => exact isSymbol_within (hm m rfl) fun c hc => isSymbolRest_of_mem hn hc

/-- The symbols in the code of a task are symbols to the assembler, if the names in the task are. -/
theorem Task.MayMention.isSymbol {t : Task} {k : Counters} {n : Nat} {s : Symbol}
    (h : t.MayMention k s) (hk : k.AtMost n)
    (hm : ∀ m, t.module = some m → Asm.isSymbol m.toList = true)
    (hn : ∀ name, t.job.target? = some name → Asm.isSymbol name.toList = true) :
    Asm.isSymbol s.name.toList = true := by
  cases h with
  | register r => cases r <;> decide
  | comparison branch =>
    obtain ⟨c, hc⟩ := Int.eq_ofNat_of_zero_le hk.comparisons_low
    rw [hc]
    exact isSymbol_comparison branch c
  | returnAddress =>
    obtain ⟨c, hc⟩ := Int.eq_ofNat_of_zero_le hk.calls_low
    rw [hc]
    apply isSymbol_within_of_module hm
    exact isSymbol_append_render (by decide) c
  | @static m index hmodule hlow _ =>
    obtain ⟨i, rfl⟩ := Int.eq_ofNat_of_zero_le hlow
    have hdot : Asm.isSymbol (m ++ ".").toList = true := by
      rw [String.toList_append]
      exact isSymbol_append (hm m hmodule) (by decide)
    exact isSymbol_append_render hdot i
  | label hname => exact isSymbol_within_of_module hm (hn _ hname)
  | function hname => exact hn _ hname

/-! ## Numbers -/

section Numbers

variable {n : Nat}

theorem rowsOf_number :
    rowsOf (Line.number n).render.toList = ['@' :: (Decimal.render n).toList] := by
  rw [rowsOf_of_no_break fun _ => Line.isBreak_of_mem_number, Line.toList_render_number]

theorem content_number :
    content ('@' :: (Decimal.render n).toList) = '@' :: (Decimal.render n).toList := by
  have hat : isBlank '@' = false ∧ '@' ≠ '/' := by decide
  rw [content, uncomment_eq_self, trim_eq_self]
  · intro c hc
    rcases List.mem_cons.1 hc with rfl | hc
    · exact hat.1
    · exact Decimal.isBlank_of_mem_render hc
  · intro hc
    rcases List.mem_cons.1 hc with hc | hc
    · exact hat.2 hc.symm
    · exact Decimal.ne_slash_of_mem_render hc rfl

theorem loadsShort_number (h : Decimal.fits n = true) :
    LoadsShort ('@' :: (Decimal.render n).toList) := by
  intro before digits hcontent _ _
  have hlength := Decimal.fits_iff_length_render_le.1 h
  rw [content_number] at hcontent
  rw [(List.cons.inj hcontent).2, List.length_append] at hlength
  exact Nat.le_trans (Nat.le_add_left _ _) hlength

/-- A row that loads a number is of the grammar exactly if the number is not too large. -/
theorem inGrammar_number (h : Decimal.fits n = true) :
    InGrammar ('@' :: (Decimal.render n).toList) ↔ n ≤ 32767 := by
  obtain ⟨hnumeral, hvalue⟩ := Decimal.value_render n
  constructor
  · intro hgrammar
    have hread := (inGrammar_iff (loadsShort_number h)).1 hgrammar
    rw [← Line.read_number] at hread
    obtain ⟨a, ha⟩ := Option.isSome_iff_exists.1 hread
    obtain ⟨m, hm, hsmall, -⟩ := Line.read_number_eq_some ha
    exact Int.ofNat.inj hm ▸ hsmall
  · intro hsmall
    refine .inr ⟨.load (String.ofList (Decimal.render n).toList), ?_⟩
    rw [content_number]
    have hnil : AllBlank [] := List.forall_mem_nil _
    exact .constant hnil hnumeral (hvalue.symm ▸ hsmall)

end Numbers

/-! ## Lines -/

/-- What the lines of the assembly of a program are: comments of one row each, and the code of its
tasks. All numbers on them could be written. -/
structure LinesOf (tasks : List Task) (lines : List Line) : Prop where
  tidy : TidyComments lines
  fits : ∀ l ∈ lines, l.fits = true
  of_task : ∀ l ∈ lines, l.isComment = false →
    ∃ t ∈ tasks, ∃ k n d, k.AtMost n ∧ t.draft k = .ok d ∧ l ∈ d.code
  exists_draft : ∀ t ∈ tasks, ∃ k d, t.draft k = .ok d ∧ ∀ l ∈ d.code, l ∈ lines

theorem exists_linesOf {options : Options} {bootstrap : Bool} {units : List SourceUnit}
    {journal journal' : Journal} {result : Result}
    (hentry : ∀ c ∈ options.entry.toList, isBreak c = false)
    (hunits : ∀ u ∈ units, ∀ c ∈ u.moduleName.toList, isBreak c = false)
    (h : translateProgram options bootstrap units journal = (.ok result, journal')) :
    ∃ lines, result.assembly = renderLines lines ∧
      LinesOf (programTasks none (options.boot? bootstrap) units) lines := by
  obtain ⟨r, s, hrun, htext, lines, codes, hlines, htidy, hcode, hdrafts⟩ :=
    wrote_of_translateProgram hentry hunits h
  have hlines : s.emitter.lines.toList = lines := hlines
  have hreaches : (Session.initial options.comments journal).emitter.Reaches s.emitter := by
    rw [show s = _ from (congrArg Prod.snd hrun).symm]
    apply Session.reaches_andThen
    · exact Session.reaches_writeBoot _ _
    · exact fun _ t => t.reaches_translateUnits _ _ _
  have hnothing : (Session.initial options.comments journal).emitter.AllFit := List.forall_mem_nil _
  have hfit := hreaches.allFit hnothing
  refine ⟨lines, ?_, htidy, ?_, ?_, ?_⟩
  · rw [htext, Emitter.text, Emitter.textFrom, List.drop_zero, hlines]
  · rw [← hlines]
    exact hfit
  · intro l hl hcomment
    have hmem : l ∈ codes.flatten := by
      rw [← hcode]
      exact List.mem_filter.2 ⟨hl, by rw [hcomment]; rfl⟩
    have hzero : ({} : Counters).AtMost 0 := by
      constructor <;> decide
    exact hdrafts.exists_of_mem_flatten hzero hmem
  · intro t ht
    obtain ⟨i, hi⟩ := List.mem_iff_getElem?.1 ht
    obtain ⟨k, d, hd, hcodes⟩ := hdrafts.exists_draft hi
    refine ⟨k, d, hd, fun l hl => ?_⟩
    have hmem : l ∈ withoutComments lines := by
      rw [hcode]
      exact List.mem_flatten.2 ⟨d.code, List.mem_of_getElem? hcodes, hl⟩
    exact List.mem_of_mem_filter hmem

theorem number_mem_callCode (module : Option String) (number : Int) (name : String) (count : Int) :
    .number (count + frameSize) ∈ callCode module number name count := by
  have hmem : count + frameSize ∈
      (callCode module number name count).filterMap Line.constant? := List.mem_singleton_self _
  obtain ⟨l, hl, hconstant⟩ := List.mem_filterMap.1 hmem
  cases l with
  | number n => exact Option.some.inj hconstant ▸ hl
  | comment text | define s | load s | act i => cases hconstant

section Lines

variable {options : Options} {bootstrap : Bool} {units : List SourceUnit} {lines : List Line}
  {l : Line}

theorem LegalNames.of_task (hn : LegalNames options units) {t : Task}
    (ht : t ∈ programTasks none (options.boot? bootstrap) units) :
    (∀ m, t.module = some m → isSymbol m.toList = true) ∧
      ∀ name, t.job.target? = some name → isSymbol name.toList = true := by
  rcases of_mem_programTasks ht with rfl | ht
  · refine ⟨fun m hm => (by cases hm), fun name hname => ?_⟩
    obtain rfl := Option.some.inj hname
    exact hn.entry
  · refine ⟨fun m hm => ?_, hn.targets t ht⟩
    obtain ⟨u, hu, hmodule, -⟩ := of_mem_unitTasks ht
    exact isSymbol_of_moduleOfName? (hmodule.symm.trans hm) (hn.modules u hu)

/-- A number in the code of a task is small, or a call is the reason for it. -/
theorem Task.MayLoad.small_or_call (hbase : 0 ≤ options.stackBase ∧ options.stackBase ≤ 32767)
    {t : Task} (ht : t ∈ programTasks none (options.boot? bootstrap) units) {n : Int}
    (h : t.MayLoad n) : ∃ m : Nat, n = m ∧ (m ≤ 32767 ∨
      ∃ name count, t ∈ unitTasks units ∧ t.job = .command (.call name count) ∧
        n = count + frameSize) := by
  cases h with
  | small hlow hhigh =>
    obtain ⟨m, rfl⟩ := Int.eq_ofNat_of_zero_le hlow
    exact ⟨m, rfl, .inl (Int.ofNat_le.1 hhigh)⟩
  | @arguments name count hjob =>
    have ht : t ∈ unitTasks units := by
      refine (of_mem_programTasks ht).resolve_left ?_
      rintro rfl
      cases hjob
    obtain ⟨-, -, -, line, -, c, hc, hjob'⟩ := of_mem_unitTasks ht
    have hcount : 0 ≤ count := by
      obtain rfl := Job.command.inj (hjob'.symm.trans hjob)
      exact (of_commandOf? hc).2 count rfl
    obtain ⟨m, rfl⟩ := Int.eq_ofNat_of_zero_le hcount
    exact ⟨m + 5, rfl, .inr ⟨name, m, ht, hjob, rfl⟩⟩
  | @stackBase entry _ hjob =>
    obtain rfl : n = options.stackBase := by
      rcases of_mem_programTasks ht with rfl | ht
      · exact (Job.bootstrap.inj hjob).2.symm
      · obtain ⟨-, -, -, -, -, c, -, hjob'⟩ := of_mem_unitTasks ht
        cases hjob'.symm.trans hjob
    obtain ⟨m, hm⟩ := Int.eq_ofNat_of_zero_le hbase.1
    refine ⟨m, hm, .inl ?_⟩
    omega

/-- A line of the assembly of a program can be read, or it loads a number. -/
theorem LinesOf.exists_read_or_number
    (h : LinesOf (programTasks none (options.boot? bootstrap) units) lines)
    (hn : LegalNames options units)
    (hbase : 0 ≤ options.stackBase ∧ options.stackBase ≤ 32767) (hl : l ∈ lines) :
    (∃ a, l.read = some a) ∨ ∃ n : Nat, l = .number n ∧ Decimal.fits n = true ∧ (n ≤ 32767 ∨
      ∃ t ∈ unitTasks units, ∃ name count, t.job = .command (.call name count) ∧
        (n : Int) = count + frameSize) := by
  cases hcomment : l.isComment with
  | true =>
    cases l with
    | comment text => exact .inl ⟨_, Line.read_comment (h.tidy text hl)⟩
    | define s | load s | number n | act i => cases hcomment
  | false =>
    obtain ⟨t, ht, k, n, d, hk, hd, hcode⟩ := h.of_task l hl hcomment
    have hcovers := Task.covers hd
    obtain ⟨hmodule, htarget⟩ := hn.of_task ht
    cases l with
    | comment text => cases hcomment
    | define s =>
      have hs := (hcovers.symbols _ hcode s rfl).isSymbol hk hmodule htarget
      exact .inl ⟨_, (Line.read_of_isSymbol hs).1⟩
    | load s =>
      have hs := (hcovers.symbols _ hcode s rfl).isSymbol hk hmodule htarget
      exact .inl ⟨_, (Line.read_of_isSymbol hs).2⟩
    | act i => exact .inl ⟨_, Line.read_act i⟩
    | number n =>
      obtain ⟨m, rfl, hm⟩ := (hcovers.numbers n hcode).small_or_call hbase ht
      have hfits := h.fits _ hl
      rw [Line.fits, Line.number?, Option.all_some] at hfits
      refine .inr ⟨m, rfl, hfits, hm.imp_right ?_⟩
      rintro ⟨name, count, ht, hjob, hcount⟩
      exact ⟨t, ht, name, count, hjob, hcount⟩

/-- No row of the assembly of a program has a numeral that is too long to be read. -/
theorem LinesOf.loadsShort
    (h : LinesOf (programTasks none (options.boot? bootstrap) units) lines)
    (hn : LegalNames options units) (hbase : 0 ≤ options.stackBase ∧ options.stackBase ≤ 32767)
    {row : List Char} (hrow : row ∈ rows (renderLines lines).toList) : LoadsShort row := by
  rw [rows_renderLines] at hrow
  obtain ⟨l, hl, hrow⟩ := List.mem_flatMap.1 hrow
  rcases h.exists_read_or_number hn hbase hl with ⟨a, ha⟩ | ⟨n, rfl, hfits, -⟩
  · exact loadsShort_of_readRow (isSome_readRow_of_mem ha hrow)
  · rw [rowsOf_number] at hrow
    rw [List.mem_singleton.1 hrow]
    exact loadsShort_number hfits

/-- The assembly of a program is of the grammar exactly if all its calls are small. -/
theorem LinesOf.inGrammar_iff
    (h : LinesOf (programTasks none (options.boot? bootstrap) units) lines)
    (hn : LegalNames options units) (hbase : 0 ≤ options.stackBase ∧ options.stackBase ≤ 32767) :
    (∀ row ∈ rows (renderLines lines).toList, InGrammar row) ↔ SmallCalls units := by
  rw [rows_renderLines]
  constructor
  · intro hgrammar t ht name count hjob
    have hmem : t ∈ programTasks none (options.boot? bootstrap) units := List.mem_append_right _ ht
    obtain ⟨k, d, hd, hcode⟩ := h.exists_draft t hmem
    have hload : .number (count + frameSize) ∈ d.code := by
      obtain ⟨module, job⟩ := t
      subst hjob
      obtain rfl := Except.ok.inj hd
      exact number_mem_callCode _ _ _ _
    have hl := hcode _ hload
    suffices hle : count + frameSize ≤ 32767 by
      simp only [frameSize] at hle
      omega
    rcases h.exists_read_or_number hn hbase hl with ⟨a, ha⟩ | ⟨n, hline, hfits, -⟩
    · obtain ⟨m, hm, hsmall, -⟩ := Line.read_number_eq_some ha
      rw [hm]
      exact Int.ofNat_le.2 hsmall
    · have hrow : InGrammar ('@' :: (Decimal.render n).toList) := by
        rw [hline] at hl
        apply hgrammar
        refine List.mem_flatMap.2 ⟨_, hl, ?_⟩
        rw [rowsOf_number]
        exact List.mem_singleton_self _
      rw [Line.number.inj hline]
      exact Int.ofNat_le.2 ((inGrammar_number hfits).1 hrow)
  · intro hsmall row hrow
    obtain ⟨l, hl, hrow⟩ := List.mem_flatMap.1 hrow
    rcases h.exists_read_or_number hn hbase hl with ⟨a, ha⟩ | ⟨n, rfl, hfits, hn⟩
    · have hread := isSome_readRow_of_mem ha hrow
      exact (Asm.inGrammar_iff (loadsShort_of_readRow hread)).2 hread
    · rw [rowsOf_number] at hrow
      rw [List.mem_singleton.1 hrow, inGrammar_number hfits]
      rcases hn with hn | ⟨t, ht, name, count, hjob, hcount⟩
      · exact hn
      · have := hsmall t ht name count hjob
        simp only [frameSize] at hcount
        omega

end Lines

/-! ## The assembler -/

theorem isBreak_of_isSymbol {s : List Char} (h : isSymbol s = true) :
    ∀ c ∈ s, isBreak c = false := by
  intro c hc
  exact isBreak_of_not_isBlank (not_isBlank_of_isSymbol h _ hc)

/-- Where all names are symbols to the assembler and the base of the stack is a constant, the
assembly of a program can be read if no call has more than 32762 arguments, and then nothing but a
symbol defined twice stops the assembler. If a call has more, the assembler stops at the syntax. -/
theorem assembly_valid_iff {options : Options} {bootstrap : Bool} {units : List SourceUnit}
    {journal journal' : Journal} {result : Result} (hn : LegalNames options units)
    (hbase : 0 ≤ options.stackBase ∧ options.stackBase ≤ 32767)
    (h : translateProgram options bootstrap units journal = (.ok result, journal'))
    (file : String) (base : Int) :
    (SmallCalls units → (∃ statements, readSource result.assembly file = .ok statements) ∧
        ∀ f, assemble result.assembly file base = .error f → f.kind? = some .duplicateSymbol) ∧
      (¬SmallCalls units → ∃ e, assemble result.assembly file base = .error (.rejected e) ∧
        e.cause.kind = .assemblySyntax) := by
  have hentry := isBreak_of_isSymbol hn.entry
  have hunits : ∀ u ∈ units, ∀ c ∈ u.moduleName.toList, isBreak c = false := by
    intro u hu
    exact isBreak_of_isSymbol (hn.modules u hu)
  obtain ⟨lines, hassembly, hlines⟩ := exists_linesOf hentry hunits h
  have hshort : ∀ row ∈ rows result.assembly.toList, LoadsShort row := by
    intro row hrow
    rw [hassembly] at hrow
    exact hlines.loadsShort hn hbase hrow
  have hgrammar := hlines.inGrammar_iff hn hbase
  rw [← hassembly] at hgrammar
  constructor
  · intro hsmall
    obtain ⟨statements, hread, -⟩ := readSource_of_inGrammar file hshort (hgrammar.2 hsmall)
    refine ⟨⟨statements, hread⟩, fun f hf => ?_⟩
    rw [assemble, hread] at hf
    exact kind?_of_assembleStatements hf
  · intro hlarge
    rcases forall_or_exists_first InGrammar (rows result.assembly.toList) with
      hall | ⟨before, row, after, hrows, hbefore, hrow⟩
    · exact absurd (hgrammar.1 hall) hlarge
    · obtain ⟨e, he, hcomplains⟩ := readSource_of_not_inGrammar file hshort hrows hbefore hrow
      refine ⟨e, ?_, hcomplains.kind⟩
      rw [assemble, he]

/-- A program with a call of 32763 arguments. -/
def largeCallUnits : List SourceUnit :=
  [{ moduleName := "Main", source := .ofString "function Main.f 0\ncall Main.f 32763\n" }]

theorem unitTasks_largeCallUnits : unitTasks largeCallUnits =
    [⟨some "Main", .command (.function "Main.f" 0)⟩,
      ⟨some "Main", .command (.call "Main.f" 32763)⟩] := by
  decide +kernel

theorem legalNames_largeCallUnits : LegalNames {} largeCallUnits where
  modules := by decide
  targets := by
    rw [unitTasks_largeCallUnits]
    decide
  entry := by decide

theorem assembly_valid_iff_largeCallUnits :
    LegalNames {} largeCallUnits ∧ ∃ result journal,
      translateProgram {} false largeCallUnits = (.ok result, journal) ∧
        ∃ e, assemble result.assembly = .error (.rejected e) ∧ e.cause.kind = .assemblySyntax := by
  have hlarge : ¬SmallCalls largeCallUnits := by
    intro hsmall
    have hle := hsmall ⟨some "Main", .command (.call "Main.f" 32763)⟩
      (by rw [unitTasks_largeCallUnits]; decide) _ _ rfl
    exact absurd hle (by decide)
  obtain ⟨result, journal, h⟩ :=
    exists_result (r := translateProgram {} false largeCallUnits) (by decide +kernel)
  have hvalid := assembly_valid_iff legalNames_largeCallUnits (by decide) h "<input>" 16
  exact ⟨legalNames_largeCallUnits, result, journal, h, hvalid.2 hlarge⟩

end HackToolchain.Codegen
