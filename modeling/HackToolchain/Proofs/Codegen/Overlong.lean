import HackToolchain.Proofs.Asm.Overlong
import HackToolchain.Proofs.Codegen.Acceptance

/-!
# Numbers that are too long for the toolchain

A text is translated, or a line of it is complained of, unless the first line that is not taken has
a number that is too long: it cannot be read, or it is the number of arguments of a call and cannot
be written together with the cells that the call saves. That is a fault of the number, and no error
of the text. With what `Asm.assemble_cases` says of the assembler this makes
`number_fault_iff_overlong`.
-/

set_option autoImplicit false

namespace HackToolchain.Codegen

open Text Vm

/-- The first line that is not taken has a number that is too long. -/
def FirstOverlong (lines : List (List Char)) : Prop :=
  ∃ before line after, lines = before ++ line :: after ∧
    (∀ l ∈ before, Sentence (wordsOf l) ∧ ¬Overlong (wordsOf l)) ∧ Overlong (wordsOf line)

theorem isA_translator (c : Vm.Cause) : c.kind.isA .translator = true := by
  cases c <;> simp [Vm.Cause.kind, ErrorKind.isA, ErrorKind.lineage, ErrorKind.parent]

/-! ## Lines -/

/-- The code of a call cannot be written if the number that it loads cannot. -/
theorem not_fits_callCode {count : Nat} (h : Decimal.tooLarge ≤ count + 5) (module : Option String)
    (number : Int) (name : String) :
    ¬(callCode module number name count).all Line.fits = true := by
  intro hall
  have hmem : Line.number (count + frameSize) ∈ callCode module number name count := by
    simp [callCode]
  have hline := List.all_eq_true.1 hall _ hmem
  rw [Line.fits, Option.all_eq_true] at hline
  have hfits := hline _ rfl
  rw [Decimal.fits, decide_eq_true_eq] at hfits
  simp only [frameSize] at hfits
  omega

/-- A line with a number that is too long is not taken, and that is no complaint about the line. -/
theorem exists_take_number {line : List Char} (h : Overlong (wordsOf line)) (e : Emitter) :
    ∃ f, e.take (String.ofList line) = .error (.number f) := by
  have hread {word name token : String} (hwords : wordsOf line = [word, name, token])
      (hword : word ∈ ["push", "pop", "function", "call"]) (htoken : IsNumber token)
      (hlong : Decimal.maxDigits < token.toList.length) :
      e.take (String.ofList line) = .error (.number (.tooLongToRead token.toList.length)) := by
    simp only [Emitter.take, commandWords_eq, hwords, readWords_of_long hword htoken hlong]
  generalize hwords : wordsOf line = ws at h
  cases h with
  | read hword htoken hlong => exact ⟨_, hread hwords hword htoken hlong⟩
  | @frame name token htoken hlarge =>
    by_cases hlong : Decimal.maxDigits < token.toList.length
    · exact ⟨_, hread hwords (by simp) htoken hlong⟩
    · have hcall := readWords_of_numbered mem_numbered.2.2.2 name htoken (Nat.le_of_not_lt hlong)
      have hfits := not_fits_callCode hlarge e.scope.module e.counters.calls name
      refine ⟨.tooLongToWrite, ?_⟩
      simp only [Emitter.take, commandWords_eq, hwords, hcall, Scope.draftCommand, Scope.draftCall,
        if_neg hfits]

/-! ## Texts -/

section Modules

variable {s : Session} {name m source : String} {n : Nat}
  (ho : s.emitter.closed = false) (hk : s.emitter.counters.AtMost n)
  (hn : n + (Text.lines source.toList).length ≤ Decimal.tooLarge)
  (hname : moduleOfName? name = some m)
include ho hk hn hname

/-- A line that is never taken ends the translation, if the lines before it are sentences. -/
theorem exists_translateModule_error {before after : List (List Char)} {line : List Char}
    (hsource : Text.lines source.toList = before ++ line :: after)
    (hbefore : ∀ l ∈ before, Sentence (wordsOf l) ∧ ¬Overlong (wordsOf l))
    {p : Vm.Fault → Prop}
    (hline : ∀ e : Emitter, ∃ f, e.take (String.ofList line) = .error f ∧ p f) :
    ∃ f g t place, p f ∧ ToldAt place (String.ofList line) f g ∧
      s.translateModule (.ofString source) name = (.error (.command g), t) := by
  rw [hsource, List.length_append] at hn
  obtain ⟨e, htake⟩ := exists_takeAll (e := (s.entered m).emitter) (m := m) rfl hk (by omega)
    (fun l hl => (hbefore l hl).2) fun l hl => (hbefore l hl).1
  obtain ⟨f, hf, hp⟩ := hline e
  obtain ⟨g, t, -, htold, hmodule⟩ := Session.translateModule_of_take_error ho hname htake hf none
  refine ⟨f, g, t, _, hp, htold, hmodule source (after.map String.ofList) ?_⟩
  simp [Session.sourceLines, hsource]

/-- A text is translated or complained of, unless the first line that is not taken has a number that
is too long. -/
theorem translateModule_cases :
    (¬FirstOverlong (Text.lines source.toList) ∧
      ((∃ count t, s.translateModule (.ofString source) name = (.ok count, t)) ∨
        ∃ e t, s.translateModule (.ofString source) name = (.error (.command (.rejected e)), t))) ∨
    (FirstOverlong (Text.lines source.toList) ∧
      ∃ f t, s.translateModule (.ofString source) name = (.error (.command (.number f)), t)) := by
  have hnumber (h : FirstOverlong (Text.lines source.toList)) :
      ∃ f t, s.translateModule (.ofString source) name = (.error (.command (.number f)), t) := by
    obtain ⟨before, line, after, hsource, hbefore, hline⟩ := h
    obtain ⟨f, g, t, place, ⟨f, rfl⟩, htold, hmodule⟩ :=
      exists_translateModule_error (p := fun f => ∃ g, f = .number g) ho hk hn hname hsource hbefore
        fun e => by
          obtain ⟨f, hf⟩ := exists_take_number hline e
          exact ⟨_, hf, f, rfl⟩
    cases htold
    exact ⟨f, t, hmodule⟩
  by_cases hfirst : FirstOverlong (Text.lines source.toList)
  · exact .inr ⟨hfirst, hnumber hfirst⟩
  · refine .inl ⟨hfirst, ?_⟩
    rcases forall_or_exists_first (fun line => Sentence (wordsOf line) ∧ ¬Overlong (wordsOf line))
      (Text.lines source.toList) with hall | ⟨before, line, after, hsource, hbefore, hline⟩
    · obtain ⟨e, htake⟩ := exists_takeAll (e := (s.entered m).emitter) (m := m) rfl hk hn
        (fun l hl => (hall l hl).2) fun l hl => (hall l hl).1
      obtain ⟨t, ht, -⟩ := Session.translateModule_of_takeAll ho hname htake none
      exact .inl ⟨_, t, ht⟩
    -- The first line that is not fine has no number too long, so it commits an offence.
    · have hlong : ¬Overlong (wordsOf line) :=
        fun h => hfirst ⟨before, line, after, hsource, hbefore, h⟩
      obtain ⟨kind, hoffence⟩ :=
        (sentence_or_offence (wordsOf line)).resolve_left fun h => hline ⟨h, hlong⟩
      obtain ⟨f, g, t, place, ⟨e, rfl⟩, htold, hmodule⟩ :=
        exists_translateModule_error (p := fun f => ∃ e, f = .rejected e) ho hk hn hname hsource
          hbefore fun e => by
            obtain ⟨err, herr, -⟩ := exists_take_error (e := e) hlong hoffence
            exact ⟨_, herr, err, rfl⟩
      cases htold
      exact .inr ⟨_, t, hmodule⟩

end Modules

/-! ## Programs -/

theorem zero_lt_tooLarge : 0 < Decimal.tooLarge :=
  Nat.lt_trans Nat.zero_lt_one (@pow_lt_tooLarge 0 (by decide))

/-- The bootstrap is written behind its comment if the base of the stack can be written. -/
theorem Emitter.write_bootstrap {e : Emitter} {entry : String} {stackBase : Int}
    (ho : e.closed = false) (hk : e.counters.AtMost 0)
    (hbase : Decimal.fits stackBase = true) :
    ∃ e', e.write (.bootstrap entry stackBase) = (.ok (), e') ∧ e'.closed = false ∧
      e'.counters.AtMost 1 := by
  let t : Task := ⟨e.module, .bootstrap entry stackBase⟩
  obtain ⟨d, hd⟩ : ∃ d, t.draft e.counters = .ok d := ⟨_, rfl⟩
  have hload (n : Int) (hn : t.MayLoad n) : Decimal.fits n = true := by
    cases hn with
    | small hlow hhigh => exact fits_of_small hlow hhigh
    | arguments h => cases h
    | stackBase h =>
      obtain ⟨-, rfl⟩ := Job.bootstrap.inj h
      exact hbase
  have hfits := fits_of_draft hk zero_lt_tooLarge hload hd
  obtain ⟨text, hdraft⟩ : ∃ text, e.scope.draft e.counters (.bootstrap entry stackBase) =
      .ok (e.scope.annotate text d) := by
    obtain rfl := Except.ok.inj hd
    rw [Scope.draft, Scope.draftBootstrap, if_pos hbase]
    exact ⟨_, rfl⟩
  rw [Emitter.write, hdraft]
  simp only [all_fits_annotate, hfits, if_true, Emitter.commit, ho, Bool.false_eq_true, if_false]
  exact ⟨_, rfl, rfl, counters_annotate e.scope text d ▸ hk.draft hd⟩

theorem Emitter.write_bootstrap_of_not_fits {stackBase : Int}
    (hbase : Decimal.fits stackBase = false) (e : Emitter) (entry : String) :
    e.write (.bootstrap entry stackBase) = (.error (.command (.number .tooLongToWrite)), e) := by
  rw [Emitter.write, Scope.draft, Scope.draftBootstrap, hbase]
  rfl

/-- A program begins with its bootstrap, if there is to be one, unless the base of the stack cannot
be written. -/
theorem writeBoot_cases (options : Options) (on : Bool) (journal : Journal) :
    (∃ s, (Session.initial options.comments journal).writeBoot (options.boot? on) = (.ok (), s) ∧
      s.emitter.closed = false ∧ s.emitter.counters.AtMost 1) ∨
    (on = true ∧ Decimal.fits options.stackBase = false ∧
      ∃ f s, (Session.initial options.comments journal).writeBoot (options.boot? on) =
        (.error (.command (.number f)), s)) := by
  have hzero : ({} : Counters).AtMost 0 := ⟨by decide, by decide, by decide, by decide⟩
  cases on with
  | false =>
    refine .inl ⟨Session.initial options.comments journal, rfl, rfl, ?_⟩
    exact ⟨hzero.comparisons_low, Int.zero_le_ofNat 1, hzero.calls_low, Int.zero_le_ofNat 1⟩
  | true =>
    rw [Options.boot?, if_pos rfl, Session.writeBoot, Session.write]
    cases hbase : Decimal.fits options.stackBase with
    | false =>
      rw [Emitter.write_bootstrap_of_not_fits hbase]
      exact .inr ⟨rfl, rfl, _, _, rfl⟩
    | true =>
      obtain ⟨e, he, ho, hk⟩ := @Emitter.write_bootstrap
        (Session.initial options.comments journal).emitter options.entry _ rfl hzero hbase
      rw [he]
      exact .inl ⟨_, rfl, ho, hk⟩

/-- A text is translated as a program or complained of, unless the first line that is not taken has
a number that is too long. -/
theorem translateSource_cases {options : Options} {source moduleName m : String}
    {bootstrap : Option Bool} (hname : moduleOfName? moduleName = some m)
    (hsize : isIndex source.toList.length = true)
    (hboot : bootstrap.getD (options.bootstrap.getD false) = true →
      Decimal.fits options.stackBase = true) (journal : Journal) :
    (¬FirstOverlong (Text.lines source.toList) ∧
      ((∃ result, (translateSource options source moduleName bootstrap journal).1 = .ok result) ∨
        ∃ e, (translateSource options source moduleName bootstrap journal).1 =
          .error (.command (.rejected e)))) ∨
    (FirstOverlong (Text.lines source.toList) ∧
      ∃ f, (translateSource options source moduleName bootstrap journal).1 =
        .error (.command (.number f))) := by
  obtain ⟨s, hwrite, ho, hk⟩ | ⟨hon, hbase, -⟩ :=
    writeBoot_cases options (bootstrap.getD (options.bootstrap.getD false)) journal
  · obtain ⟨t, ho, hcounters, htranslate⟩ :=
      exists_translateSource_eq_of_writeBoot rfl hwrite ho moduleName
    have hroom : 1 + (Text.lines source.toList).length ≤ Decimal.tooLarge := by
      have := length_lines_lt hsize
      omega
    rw [htranslate]
    obtain ⟨hfirst, ⟨count, u, h⟩ | ⟨e, u, h⟩⟩ | ⟨hfirst, f, u, h⟩ :=
      translateModule_cases ho (hcounters ▸ hk) hroom hname
    · rw [h]
      exact .inl ⟨hfirst, .inl ⟨_, rfl⟩⟩
    · rw [h]
      exact .inl ⟨hfirst, .inr ⟨e, rfl⟩⟩
    · rw [h]
      exact .inr ⟨hfirst, f, rfl⟩
  · rw [hboot hon] at hbase
    cases hbase

/-- Bad text is an error of the toolchain, except for numbers that are too long. A text whose length
is an index, as that of every text is that can be had, is translated under the name of a module or
an error of the translator is told, or else a number of it is refused for its length; and that
happens exactly if the first line that is no sentence or has a number that is too long has one. In
the same way the text is assembled or an error of the assembler is told, or else a numeral is
refused for its length, exactly if the first row that is not of the grammar or loads a numeral that
is too long loads one. -/
theorem number_fault_iff_overlong (options : Options) (source moduleName : String)
    (bootstrap : Option Bool) (journal : Journal) (file : String) (base : Int) :
    ((∃ m, moduleOfName? moduleName = some m) →
      (bootstrap.getD (options.bootstrap.getD false) = true →
        Decimal.fits options.stackBase = true) →
      isIndex source.toList.length = true →
      let outcome := (translateSource options source moduleName bootstrap journal).1
      ((∃ result, outcome = .ok result) ∨
        (∃ e, outcome = .error (.command (.rejected e)) ∧ e.cause.kind.isA .translator = true) ∨
        ∃ f, outcome = .error (.command (.number f))) ∧
      ((∃ f, outcome = .error (.command (.number f))) ↔
        FirstOverlong (Text.lines source.toList))) ∧
    (let outcome := Asm.assemble source file base;
      ((∃ p, outcome = .ok p) ∨
        (∃ e, outcome = .error (.rejected e) ∧ e.cause.kind.isA .assembler = true) ∨
        ∃ f, outcome = .error (.number f)) ∧
      ((∃ f, outcome = .error (.number f)) ↔ Asm.FirstOverlong (rows source.toList))) := by
  refine ⟨?_, ?_⟩
  · rintro ⟨m, hname⟩ hboot hsize outcome
    have houtcome : outcome = (translateSource options source moduleName bootstrap journal).1 := rfl
    obtain ⟨hfirst, ⟨result, h⟩ | ⟨e, h⟩⟩ | ⟨hfirst, f, h⟩ :=
      translateSource_cases hname hsize hboot journal
    · rw [houtcome, h]
      exact ⟨.inl ⟨result, rfl⟩, iff_of_false (by simp) hfirst⟩
    · rw [houtcome, h]
      exact ⟨.inr (.inl ⟨e, rfl, isA_translator e.cause⟩), iff_of_false (by simp) hfirst⟩
    · rw [houtcome, h]
      exact ⟨.inr (.inr ⟨f, rfl⟩), iff_of_true ⟨f, rfl⟩ hfirst⟩
  · intro outcome
    have houtcome : outcome = Asm.assemble source file base := rfl
    obtain ⟨hfirst, ⟨p, h⟩ | ⟨e, h⟩⟩ | ⟨hfirst, f, h⟩ := Asm.assemble_cases source file base
    · rw [houtcome, h]
      exact ⟨.inl ⟨p, rfl⟩, iff_of_false (by simp) hfirst⟩
    · rw [houtcome, h]
      exact ⟨.inr (.inl ⟨e, rfl, Asm.isA_assembler e.cause⟩), iff_of_false (by simp) hfirst⟩
    · rw [houtcome, h]
      exact ⟨.inr (.inr ⟨f, rfl⟩), iff_of_true ⟨f, rfl⟩ hfirst⟩

section Numerals

variable {digits : List Char} (hdigits : Decimal.isNumeral digits = true)
include hdigits

theorem ne_nil_of_isNumeral : digits ≠ [] := by
  rintro rfl
  cases hdigits

theorem of_mem_numeral {c : Char} (hc : c ∈ digits) : isBlank c = false ∧ c ≠ '/' := by
  rw [Decimal.isNumeral, Bool.and_eq_true, List.all_eq_true] at hdigits
  have hdigit := hdigits.2 c hc
  refine ⟨Asm.not_isBlank_of_isDigit hdigit, ?_⟩
  rintro rfl
  exact absurd hdigit (by decide)

theorem wordsOf_push :
    wordsOf ("push constant ".toList ++ digits) = ["push", "constant", String.ofList digits] := by
  have hcut :
      uncomment ("push constant ".toList ++ digits) = "push constant ".toList ++ digits := by
    rw [uncomment_append (by decide),
      uncomment_eq_self fun h => (of_mem_numeral hdigits h).2 rfl]
  have hfold := foldr_stretchesStep_eq (ne_nil_of_isNumeral hdigits)
    (fun c hc => (of_mem_numeral hdigits hc).1) []
  rw [wordsOf, hcut, words, stretches, List.foldr_append, hfold]
  rfl

end Numerals

/-- A numeral of 4301 digits, which is one more than can be read. -/
def longNumeral : List Char := List.replicate 4301 '0'

theorem number_fault_iff_overlong_longNumeral :
    (moduleOfName? "Main" = some "Main" ∧
      isIndex ("push constant ".toList ++ longNumeral).length = true) ∧
    (∃ f, (translateSource {} (String.ofList ("push constant ".toList ++ longNumeral))).1 =
      .error (.command (.number f))) ∧
    ∃ f, Asm.assemble (String.ofList ('@' :: longNumeral)) = .error (.number f) := by
  have hname : moduleOfName? "Main" = some "Main" := by decide +kernel
  obtain ⟨hnumeral, hlength⟩ :
      Decimal.isNumeral longNumeral = true ∧ longNumeral.length = 4301 := by
    refine ⟨?_, List.length_replicate⟩
    rw [Decimal.isNumeral, longNumeral, List.replicate_succ, Bool.and_eq_true, List.all_eq_true]
    refine ⟨rfl, fun c hc => ?_⟩
    rw [← List.replicate_succ] at hc
    rw [List.eq_of_mem_replicate hc]
    decide
  generalize longNumeral = digits at hnumeral hlength
  have hsize : isIndex ("push constant ".toList ++ digits).length = true := by
    rw [List.length_append, hlength]
    decide
  have hne : '\n' ∉ "push constant ".toList ++ digits := by
    rw [List.mem_append, not_or]
    refine ⟨by decide, fun h => ?_⟩
    exact absurd (of_mem_numeral hnumeral h).1 (by decide)
  refine ⟨⟨hname, hsize⟩, ?_, ?_⟩
  · refine (((number_fault_iff_overlong {} _ "Main" none #[] "<input>" 16).1 ⟨_, hname⟩ (by simp)
      ?_).2).2 ?_
    · rw [String.toList_ofList]
      exact hsize
    · rw [String.toList_ofList, lines_of_no_newline hne (by simp)]
      refine ⟨[], _, [], rfl, by simp, ?_⟩
      rw [wordsOf_push hnumeral]
      refine .read (by simp) ?_ ?_
      · rw [IsNumber, String.toList_ofList]
        exact hnumeral
      · rw [String.toList_ofList, hlength]
        decide
  · refine ((number_fault_iff_overlong {} _ "Main" none #[] "<input>" 16).2).2.2 ?_
    have hblank (c : Char) (hc : c ∈ '@' :: digits) : isBlank c = false := by
      rcases List.mem_cons.1 hc with rfl | hc
      · decide
      · exact (of_mem_numeral hnumeral hc).1
    have hcontent : content ('@' :: digits) = '@' :: digits := by
      rw [content, uncomment_eq_self, trim_eq_self hblank]
      rw [List.mem_cons, not_or]
      exact ⟨by decide, fun h => (of_mem_numeral hnumeral h).2 rfl⟩
    rw [String.toList_ofList,
      rows_of_no_break (fun c hc => isBreak_of_not_isBlank (hblank c hc)) (List.cons_ne_nil _ _)]
    refine ⟨[], _, [], rfl, by simp, fun hshort => ?_⟩
    have := hshort [] digits hcontent (by simp [AllBlank]) hnumeral
    omega

end HackToolchain.Codegen
