import HackToolchain.Capacity
import HackToolchain.Proofs.Codegen.Definitions
import HackToolchain.Proofs.Codegen.LineByLine
import HackToolchain.Proofs.Codegen.Symbols
import HackToolchain.Proofs.Text.Lines
import HackToolchain.Proofs.Vm.Language
import Mathlib.Algebra.Group.Nat.Defs

/-!
# What the translator accepts

A command that makes a sentence has code in every module (`draft_of_sentence`), whose numbers can be
written as long as the counters can; words that commit an offence are refused with the kind of error
that it makes (`refused_of_offence`). So a text is translated exactly if each of its lines is a
sentence, and the first line that is not is complained of (`translateSource_exact`).
-/

set_option autoImplicit false

namespace HackToolchain.Codegen

open Text Vm

/-! ## Numbers that can be written -/

theorem fits_of_le {n : Int} {bound : Nat} (hlow : 0 ≤ n) (hhigh : n ≤ bound)
    (hbound : bound < Decimal.tooLarge) : Decimal.fits n = true := by
  rw [Decimal.fits, decide_eq_true_eq]
  omega

theorem pow_lt_tooLarge {digits : Nat} (h : digits < Decimal.maxDigits) :
    10 ^ digits < Decimal.tooLarge := by
  rw [Decimal.tooLarge_eq]
  exact Nat.pow_lt_pow_right (by decide) h

/-- The numbers in the code of a task can be written if the counters and the numbers that it may
load can. -/
theorem fits_of_draft {t : Task} {k : Counters} {d : Draft} {n : Nat} (hk : k.AtMost n)
    (hn : n < Decimal.tooLarge) (hload : ∀ m, t.MayLoad m → Decimal.fits m = true)
    (h : t.draft k = .ok d) : d.code.all Line.fits = true := by
  have hcovers := Task.covers h
  have hsymbol {s : Symbol} (hs : t.MayMention k s) :
      ∀ m, s.number? = some m → Decimal.fits m = true := by
    intro m hm
    cases hs with
    | register r | label hname | function hname => cases hm
    | comparison branch =>
      obtain rfl := Option.some.inj hm
      exact fits_of_le hk.comparisons_low hk.comparisons_high hn
    | returnAddress =>
      obtain rfl := Option.some.inj hm
      exact fits_of_le hk.calls_low hk.calls_high hn
    | static hmodule hlow hhigh =>
      obtain rfl := Option.some.inj hm
      exact hload _ (.small hlow hhigh)
  rw [List.all_eq_true]
  intro l hl
  rw [Line.fits, Option.all_eq_true]
  intro m hm
  cases l with
  | comment text | act a => cases hm
  | define s => exact hsymbol (hcovers.symbols _ hl s rfl) m hm
  | load s => exact hsymbol (hcovers.symbols _ hl s rfl) m hm
  | number m' =>
    obtain rfl := Option.some.inj hm
    exact hload _ (hcovers.numbers _ hl)

/-! ## Sentences -/

/-- Numbers among words have fewer digits than a number may have at most. -/
def ShortNumbers (ws : List String) : Prop :=
  ∀ w ∈ ws, IsNumber w → w.toList.length ≤ 4299

section Moves

variable {m segment : String} {index limit : Nat} (hsegment : (segment, limit) ∈ segmentLimits)
include hsegment

theorem exists_push (hindex : index ≤ limit) :
    ∃ code, moveCode (some m) .push segment index = .ok code := by
  obtain ⟨s, hs, hlimit⟩ := exists_segment hsegment
  have hrange : (0 : Int) ≤ index ∧ (index : Int) ≤ s.limit := by omega
  have hcode : ∃ code, pushCode (some m) s index = .ok code := by
    cases s <;> exact ⟨_, rfl⟩
  obtain ⟨code, hcode⟩ := hcode
  exact ⟨code, by simp only [moveCode, readSegment, hs, if_pos hrange, hcode, Except.mapError]⟩

theorem exists_pop (hindex : index ≤ limit) (hconstant : segment ≠ "constant") :
    ∃ code, moveCode (some m) .pop segment index = .ok code := by
  obtain ⟨s, hs, hlimit⟩ := exists_segment hsegment
  have hrange : (0 : Int) ≤ index ∧ (index : Int) ≤ s.limit := by omega
  have hcode : ∃ code, popCode (some m) s index = .ok code := by
    cases s
    case constant => exact absurd (Segment.name_of_ofName? hs).symm hconstant
    all_goals exact ⟨_, rfl⟩
  obtain ⟨code, hcode⟩ := hcode
  exact ⟨code, by simp only [moveCode, readSegment, hs, if_pos hrange, hcode, Except.mapError]⟩

theorem moveCode_of_lt (module : Option String) (hfits : Decimal.fits (index : Int) = true)
    (hindex : limit < index) : ∃ c : Cause, c.kind = .segmentRange ∧
      ∀ kind, moveCode module kind segment index = .error c.fault := by
  obtain ⟨s, hs, hlimit⟩ := exists_segment hsegment
  have hrange : ¬((0 : Int) ≤ index ∧ (index : Int) ≤ s.limit) := by omega
  refine ⟨.indexOutOfRange segment index s.limit, rfl, fun kind => ?_⟩
  simp only [moveCode, readSegment, hs, if_neg hrange, hfits, if_true]

end Moves

theorem fits_of_small {n : Int} (hlow : 0 ≤ n) (hhigh : n ≤ Segment.maxIndex) :
    Decimal.fits n = true := by
  have hmax : 32767 < Decimal.tooLarge :=
    Nat.lt_trans (by decide : 32767 < 10 ^ 5) (pow_lt_tooLarge (by decide))
  exact fits_of_le hlow hhigh hmax

/-- The numbers that the code of a command may load can be written, if that can be said of calls. -/
theorem fits_of_mayLoad {t : Task} {c : Command} (hjob : t.job = .command c)
    (hcall : ∀ name count, c = .call name count → Decimal.fits (count + frameSize) = true) {n : Int}
    (h : t.MayLoad n) : Decimal.fits n = true := by
  cases h with
  | small hlow hhigh => exact fits_of_small hlow hhigh
  | arguments h => exact hcall _ _ (Job.command.inj (hjob.symm.trans h))
  | stackBase h => cases hjob.symm.trans h

/-- Numbers with fewer digits than a number may have at most are not too long. -/
theorem not_overlong_of_short {ws : List String} (hshort : ShortNumbers ws) : ¬Overlong ws := by
  intro h
  cases h with
  | @read word name token hword htoken hlong =>
    have hlength : token.toList.length < Decimal.maxDigits :=
      Nat.lt_succ_of_le (hshort token (by simp) htoken)
    omega
  | @frame name token htoken hlarge =>
    have hlength : token.toList.length < Decimal.maxDigits :=
      Nat.lt_succ_of_le (hshort token (by simp) htoken)
    generalize hdigits : token.toList.length = digits at hlength
    have hvalue : numberOf token < 10 ^ digits := hdigits ▸ Decimal.value_lt htoken
    have hbound : 10 ^ digits * 10 ≤ Decimal.tooLarge := by
      rw [Decimal.tooLarge_eq, ← Nat.pow_succ]
      exact Nat.pow_le_pow_right (by decide) hlength
    have := Nat.one_le_pow digits 10 (by decide)
    omega

section Numbers

variable {word name token : String}

theorem length_le_of_not_overlong (hlong : ¬Overlong [word, name, token])
    (hword : word ∈ ["push", "pop", "function", "call"]) (htoken : IsNumber token) :
    token.toList.length ≤ Decimal.maxDigits := by
  by_contra h
  exact hlong (.read hword htoken (Nat.lt_of_not_le h))

/-- The number of arguments of a call, together with the cells that the call saves, can be
written. -/
theorem fits_frame (hlong : ¬Overlong ["call", name, token]) (htoken : IsNumber token) :
    Decimal.fits (numberOf token + frameSize) = true := by
  have hsum : numberOf token + 5 < Decimal.tooLarge := by
    by_contra h
    exact hlong (.frame htoken (Nat.le_of_not_lt h))
  exact fits_of_le (by simp only [frameSize]; omega) (by simp only [frameSize]; omega) hsum

end Numbers

/-- The words of a sentence are read and have code whose numbers can be written. -/
theorem draft_of_sentence {s : Scope} {m : String} (hm : s.module = some m) {ws : List String}
    (h : Sentence ws) (hlong : ¬Overlong ws) (k : Counters) :
    ws = [] ∨ ∃ c d, readWords ws = .ok (some c) ∧ s.draftCommand k c = .ok d ∧
      ∀ n, (⟨some m, .command c⟩ : Task).MayLoad n → Decimal.fits n = true := by
  cases h with
  | blank => exact .inl rfl
  | operator hword =>
    obtain ⟨hread, op, hop⟩ := readWords_of_operator hword
    refine .inr ⟨_, _, hread, by simp only [Scope.draftCommand, Scope.draftOperator, hop]; rfl, ?_⟩
    exact fun n => fits_of_mayLoad rfl (by rintro _ _ ⟨⟩)
  | «return» =>
    refine .inr ⟨.return, _, rfl, rfl, ?_⟩
    exact fun n => fits_of_mayLoad rfl (by rintro _ _ ⟨⟩)
  | @flow word name hword =>
    simp only [List.mem_cons, List.not_mem_nil, or_false] at hword
    rcases hword with rfl | rfl | rfl
    all_goals
      refine .inr ⟨_, _, readWords_of_named (by simp [named]; rfl), rfl, ?_⟩
      exact fun n => fits_of_mayLoad rfl (by rintro _ _ ⟨⟩)
  | @function word name token hword htoken =>
    simp only [List.mem_cons, List.not_mem_nil, or_false] at hword
    rcases hword with rfl | rfl
    · have hread := readWords_of_numbered mem_numbered.2.2.1 name htoken
        (length_le_of_not_overlong hlong (by simp) htoken)
      refine .inr ⟨_, _, hread, rfl, ?_⟩
      exact fun n => fits_of_mayLoad rfl (by rintro _ _ ⟨⟩)
    · have hread := readWords_of_numbered mem_numbered.2.2.2 name htoken
        (length_le_of_not_overlong hlong (by simp) htoken)
      refine .inr ⟨_, _, hread, rfl, ?_⟩
      refine fun n => fits_of_mayLoad rfl fun name count hcall => ?_
      obtain ⟨-, rfl⟩ := Command.call.inj hcall
      exact fits_frame hlong htoken
  | @push segment token limit hsegment htoken hindex =>
    have hread := readWords_of_numbered mem_numbered.1 segment htoken
      (length_le_of_not_overlong hlong (by simp) htoken)
    obtain ⟨code, hcode⟩ := exists_push (m := m) hsegment hindex
    refine .inr ⟨_, _, hread, by rw [Scope.draftCommand, hm, hcode]; rfl, ?_⟩
    exact fun n => fits_of_mayLoad rfl (by rintro _ _ ⟨⟩)
  | @pop segment token limit hsegment htoken hindex hconstant =>
    have hread := readWords_of_numbered mem_numbered.2.1 segment htoken
      (length_le_of_not_overlong hlong (by simp) htoken)
    obtain ⟨code, hcode⟩ := exists_pop (m := m) hsegment hindex hconstant
    refine .inr ⟨_, _, hread, by rw [Scope.draftCommand, hm, hcode]; rfl, ?_⟩
    exact fun n => fits_of_mayLoad rfl (by rintro _ _ ⟨⟩)

/-! ## Offences -/

theorem moveCode_of_unknown (module : Option String) {segment : String}
    (h : ∀ limit, (segment, limit) ∉ segmentLimits) (index : Int) :
    ∃ c : Cause, c.kind = .unknownSegment ∧
      ∀ kind, moveCode module kind segment index = .error c.fault := by
  refine ⟨.unknownSegment segment (Similarity.closeWords segment (Segment.all.map Segment.name)),
    rfl, fun kind => ?_⟩
  simp only [moveCode, readSegment, ofName?_eq_none h]

theorem moveCode_popConstant {module : Option String} {index : Nat} (h : index ≤ 32767) :
    moveCode module .pop "constant" index = .error Cause.readOnlyConstant.fault := by
  have hs : Segment.ofName? "constant" = some .constant := by decide
  have hlimit : Segment.constant.limit = 32767 := rfl
  have hrange : (0 : Int) ≤ index ∧ (index : Int) ≤ Segment.constant.limit := by omega
  simp only [moveCode, readSegment, hs, if_pos hrange]
  rfl

theorem fits_of_isNumber {token : String} (htoken : IsNumber token)
    (hshort : token.toList.length ≤ Decimal.maxDigits) : Decimal.fits (numberOf token) = true := by
  have hvalue : numberOf token < 10 ^ token.toList.length := Decimal.value_lt htoken
  have hbound : 10 ^ token.toList.length ≤ Decimal.tooLarge := by
    rw [Decimal.tooLarge_eq]
    exact Nat.pow_le_pow_right (by decide) hshort
  exact fits_of_le (Int.natCast_nonneg _) (Int.le_refl _) (Nat.lt_of_lt_of_le hvalue hbound)

/-- Words are refused for a cause: they are not read, or there is no code for the command. -/
def Refused (s : Scope) (k : Counters) (ws : List String) (cause : Cause) : Prop :=
  (∃ e, e.cause = cause ∧ readWords ws = .error (.rejected e)) ∨
    ∃ c, readWords ws = .ok (some c) ∧ s.draftCommand k c = .error cause.fault

/-- A push or a pop is refused if there is no code for it. -/
theorem refused_of_move {s : Scope} {k : Counters} {word segment token : String} {cause : Cause}
    (hword : word ∈ ["push", "pop"]) (htoken : IsNumber token)
    (hshort : token.toList.length ≤ Decimal.maxDigits)
    (hpush : word = "push" → moveCode s.module .push segment (numberOf token) = .error cause.fault)
    (hpop : word = "pop" → moveCode s.module .pop segment (numberOf token) = .error cause.fault) :
    Refused s k [word, segment, token] cause := by
  have hread {make : String → Int → Command} (hmake : (word, make) ∈ numbered) :=
    readWords_of_numbered hmake segment htoken hshort
  simp only [List.mem_cons, List.not_mem_nil, or_false] at hword
  rcases hword with rfl | rfl
  · refine .inr ⟨_, hread mem_numbered.1, ?_⟩
    rw [Scope.draftCommand, hpush rfl]
    rfl
  · refine .inr ⟨_, hread mem_numbered.2.1, ?_⟩
    rw [Scope.draftCommand, hpop rfl]
    rfl

/-- Words that commit an offence are refused with the kind of error that it makes. -/
theorem refused_of_offence {ws : List String} {kind : ErrorKind} (h : Offence ws kind)
    (hlong : ¬Overlong ws) (s : Scope) (k : Counters) :
    ∃ cause, cause.kind = kind ∧ Refused s k ws cause := by
  have hdigits {word name token : String} (hlong : ¬Overlong [word, name, token])
      (hword : word ∈ ["push", "pop"]) (htoken : IsNumber token) :
      token.toList.length ≤ Decimal.maxDigits := by
    refine length_le_of_not_overlong hlong ?_ htoken
    exact List.mem_append_left ["function", "call"] hword
  cases h with
  | malformed h =>
    obtain ⟨e, hread, hkind⟩ := readWords_of_malformed h
    exact ⟨e.cause, hkind, .inl ⟨e, rfl, hread⟩⟩
  | @segment word segment token hword htoken hsegment =>
    obtain ⟨cause, hkind, hcode⟩ :=
      moveCode_of_unknown s.module hsegment (numberOf token)
    have hshort := hdigits hlong hword htoken
    exact ⟨cause, hkind, refused_of_move hword htoken hshort (fun _ => hcode _) fun _ => hcode _⟩
  | @index word segment token limit hword htoken hsegment hindex =>
    have hshort := hdigits hlong hword htoken
    obtain ⟨cause, hkind, hcode⟩ :=
      moveCode_of_lt hsegment s.module (fits_of_isNumber htoken hshort) hindex
    exact ⟨cause, hkind, refused_of_move hword htoken hshort (fun _ => hcode _) fun _ => hcode _⟩
  | @popConstant token htoken hindex =>
    have hshort := hdigits hlong (by simp) htoken
    refine ⟨.readOnlyConstant, rfl, refused_of_move (by simp) htoken hshort ?_ fun _ => ?_⟩
    · intro hpush
      exact absurd hpush (by decide)
    · exact moveCode_popConstant hindex

/-- A sentence commits no offence. -/
theorem not_sentence_of_offence {ws : List String} {kind : ErrorKind} (h : Offence ws kind)
    (hshort : ShortNumbers ws) : ¬Sentence ws := by
  intro hsentence
  have hlong := not_overlong_of_short hshort
  let s : Scope := { module := some "Main" }
  obtain ⟨cause, -, hrefused⟩ := refused_of_offence h hlong s {}
  rcases draft_of_sentence (s := s) rfl hsentence hlong {} with hnil | ⟨c, d, hread, hdraft, -⟩
  · subst hnil
    rcases hrefused with ⟨e, -, hread⟩ | ⟨c, hread, -⟩
    · cases hread
    · cases hread
  · rcases hrefused with ⟨e, -, hread'⟩ | ⟨c', hread', hdraft'⟩
    · cases hread.symm.trans hread'
    · obtain rfl := Option.some.inj (Except.ok.inj (hread.symm.trans hread'))
      cases hdraft.symm.trans hdraft'

/-! ## Lines -/

section Lines

variable {e : Emitter} {m : String} {n : Nat} {line : List Char} {lines : List (List Char)}

/-- A line that is a sentence is taken. -/
theorem exists_take (hm : e.module = some m) (hk : e.counters.AtMost n)
    (hn : n < Decimal.tooLarge) (hlong : ¬Overlong (wordsOf line))
    (h : Sentence (wordsOf line)) :
    ∃ e', e.take (String.ofList line) = .ok e' ∧ e'.counters.AtMost (n + 1) := by
  rcases draft_of_sentence (s := e.scope) hm h hlong e.counters with
    hnil | ⟨c, d, hread, hdraft, hload⟩
  · refine ⟨e, by rw [Emitter.take, commandWords_eq, hnil]; rfl, ?_⟩
    exact ⟨hk.comparisons_low, by have := hk.comparisons_high; omega, hk.calls_low,
      by have := hk.calls_high; omega⟩
  · have htask : Task.draft ⟨some m, .command c⟩ e.counters = .ok d := by
      rw [← hdraft, Scope.draftCommand_eq]
      exact congrArg (fun module => Task.draft ⟨module, .command c⟩ e.counters) hm.symm
    have hfits := fits_of_draft hk hn hload htask
    refine ⟨{ e with counters := d.counters
                     lines := e.lines ++
                       (e.scope.annotate (commandText (String.ofList line)) d).code }, ?_,
      hk.draft htask⟩
    simp only [Emitter.take, commandWords_eq, hread, hdraft, if_pos hfits]

/-- A line that commits an offence is not taken. -/
theorem exists_take_error {kind : ErrorKind} (hlong : ¬Overlong (wordsOf line))
    (h : Offence (wordsOf line) kind) :
    ∃ err, e.take (String.ofList line) = .error (.rejected err) ∧ err.cause.kind = kind := by
  obtain ⟨cause, hkind, hrefused⟩ := refused_of_offence h hlong e.scope e.counters
  rcases hrefused with ⟨err, rfl, hread⟩ | ⟨c, hread, hdraft⟩
  · exact ⟨err, by simp only [Emitter.take, commandWords_eq, hread], hkind⟩
  · exact ⟨{ cause }, by simp only [Emitter.take, commandWords_eq, hread, hdraft, Cause.fault],
      hkind⟩

/-- Lines that are sentences are taken one after the other. -/
theorem exists_takeAll (hm : e.module = some m) (hk : e.counters.AtMost n)
    (hn : n + lines.length ≤ Decimal.tooLarge) (hlong : ∀ line ∈ lines, ¬Overlong (wordsOf line))
    (h : ∀ line ∈ lines, Sentence (wordsOf line)) :
    ∃ e', e.takeAll (lines.map String.ofList) = .ok e' := by
  induction lines generalizing e n with
  | nil => exact ⟨e, rfl⟩
  | cons line lines ih =>
    rw [List.length_cons] at hn
    obtain ⟨f, hf, hk'⟩ := exists_take hm hk (by omega) (hlong line List.mem_cons_self)
      (h line List.mem_cons_self)
    have hmodule : f.module = some m :=
      (congrArg Scope.module (Emitter.scope_of_take hf).1).trans hm
    obtain ⟨e', he'⟩ := ih hmodule hk' (by omega) (fun l hl => hlong l (List.mem_cons_of_mem _ hl))
      fun l hl => h l (List.mem_cons_of_mem _ hl)
    exact ⟨e', Emitter.takeAll_cons_eq_ok.2 ⟨f, hf, he'⟩⟩

end Lines

/-! ## Texts -/

/-- A text that can be had has fewer lines than any number that can be written. -/
theorem length_lines_lt {source : String} (h : isIndex source.toList.length = true) :
    (Text.lines source.toList).length < Decimal.tooLarge := by
  have hlength : source.toList.length < 2 ^ 63 := by
    rw [isIndex, Bool.and_eq_true, decide_eq_true_eq, decide_eq_true_eq] at h
    have hbound : indexBound = 2 ^ 63 := rfl
    omega
  have hbound : 2 ^ 63 < Decimal.tooLarge :=
    Nat.lt_trans (by decide : 2 ^ 63 < 10 ^ 20) (pow_lt_tooLarge (by decide))
  exact Nat.lt_of_le_of_lt (length_lines_le _) (Nat.lt_trans hlength hbound)

theorem Emitter.write_comment {e : Emitter} (ho : e.closed = false) (text : String) :
    e.write (.comment text) = (.ok (), { e with lines := e.lines ++ [Line.comment text] }) := by
  simp [Emitter.write, Scope.draft, Scope.plain, Emitter.commit, ho, Line.fits, Line.number?]

/-- No more than a headline is written for a text, which can be written while the code is open. -/
theorem exists_headline {s : Session} (ho : s.emitter.closed = false) (moduleName : String) :
    ∃ t : Session, s.headline moduleName = (.ok (), t) ∧ t.emitter.closed = false ∧
      t.emitter.counters = s.emitter.counters := by
  unfold Session.headline
  split
  · let headline := "=== " ++ moduleName ++ ".vm ==="
    let e : Emitter := { s.emitter with lines := s.emitter.lines ++ [Line.comment headline] }
    refine ⟨{ s with emitter := e }, ?_, ho, rfl⟩
    rw [Session.write, Emitter.write_comment ho]
  · exact ⟨s, rfl, ho, rfl⟩

/-- Once the bootstrap is written, if there is to be one, a text is translated as its module is. -/
theorem exists_translateSource_eq_of_writeBoot {options : Options} {bootstrap : Option Bool}
    {on : Bool} {journal : Journal} {s : Session}
    (hon : bootstrap.getD (options.bootstrap.getD false) = on)
    (hboot : (Session.initial options.comments journal).writeBoot (options.boot? on) = (.ok (), s))
    (ho : s.emitter.closed = false) (moduleName : String) :
    ∃ t : Session, t.emitter.closed = false ∧ t.emitter.counters = s.emitter.counters ∧
      ∀ source, translateSource options source moduleName bootstrap journal =
        Session.result on (Session.andThen (t.translateModule (.ofString source) moduleName)
          fun n u => (.ok ([u.emitter.module.getD ""], n), u)) := by
  obtain ⟨t, hheadline, ho, hcounters⟩ := exists_headline ho moduleName
  refine ⟨t, ho, hcounters, fun source => ?_⟩
  rw [translateSource, hon, translateProgram_eq_result, hboot, Session.andThen_ok,
    Session.translateUnits_cons, Session.translateUnit_eq_andThen, Session.opened, hheadline,
    Session.andThen_ok]
  congr 2
  funext n u
  simp [Session.translateUnits]

/-- Without bootstrap, a text is translated as its module is. -/
theorem exists_translateSource_eq {options : Options} {bootstrap : Option Bool}
    (hboot : bootstrap.getD (options.bootstrap.getD false) = false) (moduleName : String)
    (journal : Journal) :
    ∃ s : Session, s.emitter.closed = false ∧ s.emitter.counters = {} ∧
      ∀ source, translateSource options source moduleName bootstrap journal =
        Session.result false (Session.andThen (s.translateModule (.ofString source) moduleName)
          fun n t => (.ok ([t.emitter.module.getD ""], n), t)) :=
  exists_translateSource_eq_of_writeBoot hboot rfl rfl moduleName

section Modules

variable {s : Session} {name m source : String} (hcounters : s.emitter.counters = {})
  (hsize : isIndex source.toList.length = true)
  (hshort : ∀ line ∈ Text.lines source.toList, ShortNumbers (wordsOf line))
include hcounters hsize hshort

/-- The first lines of a text are taken if they are sentences. -/
theorem exists_takeAll_of_append {before after : List (List Char)}
    (hsource : Text.lines source.toList = before ++ after)
    (h : ∀ line ∈ before, Sentence (wordsOf line)) :
    ∃ e, (s.entered m).emitter.takeAll (before.map String.ofList) = .ok e := by
  have hk : (s.entered m).emitter.counters.AtMost 0 := by
    rw [show (s.entered m).emitter.counters = {} from hcounters]
    constructor <;> decide
  have hlines := length_lines_lt hsize
  rw [hsource, List.length_append] at hlines
  rw [hsource] at hshort
  exact exists_takeAll (m := m) rfl hk (by omega)
    (fun line hl => not_overlong_of_short (hshort line (List.mem_append_left _ hl))) h

variable (ho : s.emitter.closed = false) (hname : moduleOfName? name = some m)
include ho hname

/-- A text is translated if its lines are sentences. -/
theorem translateModule_of_sentences
    (h : ∀ line ∈ Text.lines source.toList, Sentence (wordsOf line)) :
    ∃ count t, s.translateModule (.ofString source) name = (.ok count, t) := by
  obtain ⟨e, htake⟩ := exists_takeAll_of_append (m := m) hcounters hsize hshort
    (List.append_nil _).symm h
  obtain ⟨t, ht, -⟩ := Session.translateModule_of_takeAll ho hname htake none
  exact ⟨_, t, ht⟩

/-- A text is not translated if a line is no sentence, and the first such line is complained of. -/
theorem translateModule_of_not_sentence {before after : List (List Char)} {line : List Char}
    (hsource : Text.lines source.toList = before ++ line :: after)
    (hbefore : ∀ l ∈ before, Sentence (wordsOf l)) (hline : ¬Sentence (wordsOf line)) :
    ∃ e t column, s.translateModule (.ofString source) name = (.error (.command (.rejected e)), t) ∧
      (∀ kind, Offence (wordsOf line) kind ↔ kind = e.cause.kind) ∧ StartsAt line column ∧
      e.location = some { file := m ++ ".vm", line := before.length + 1, column } := by
  obtain ⟨e, htake⟩ := exists_takeAll_of_append (m := m) hcounters hsize hshort hsource hbefore
  have hlong : ¬Overlong (wordsOf line) := not_overlong_of_short (hshort line (by simp [hsource]))
  obtain ⟨kind, hoffence⟩ := (sentence_or_offence (wordsOf line)).resolve_left hline
  obtain ⟨err, hfail, hkind⟩ := exists_take_error (e := e) hlong hoffence
  obtain ⟨g, t, -, htold, hmodule⟩ :=
    Session.translateModule_of_take_error ho hname htake hfail none
  have hmodule := hmodule source (after.map String.ofList) (by simp [Session.sourceLines, hsource])
  cases htold with
  | @rejected _ err' hcause hplace =>
    have hcontent := String.toList_ofList ▸ Emitter.content_ne_nil_of_take_error hfail
    refine ⟨err', t, _, hmodule, fun kind' => ⟨fun h => ?_, ?_⟩, startsAt_of_content hcontent, ?_⟩
    · -- The line is refused in one way only.
      obtain ⟨err'', hfail', hkind'⟩ := exists_take_error (e := e) hlong h
      obtain rfl := Fault.rejected.inj (Except.error.inj (hfail.symm.trans hfail'))
      rw [hcause, hkind']
    · rintro rfl
      rw [hcause, hkind]
      exact hoffence
    · rw [hplace, locationOfLine, List.length_map, String.toList_ofList]
      rfl

end Modules

/-- The translator accepts exactly its language. A text whose length is an index, as that of every
text is that can be had, and in which no number has more than 4299 digits, is translated under the
name of a module if and only if the words on each of its lines, without comments, are a sentence.
Otherwise the first line whose words are none is complained of, with the kind of error that its
offence makes. -/
theorem translateSource_exact {options : Options} {source moduleName m : String}
    {bootstrap : Option Bool} {journal : Journal} (hname : moduleOfName? moduleName = some m)
    (hboot : bootstrap.getD (options.bootstrap.getD false) = false)
    (hsize : isIndex source.toList.length = true)
    (hshort : ∀ line ∈ Text.lines source.toList, ShortNumbers (wordsOf line)) :
    ((∃ result, (translateSource options source moduleName bootstrap journal).1 = .ok result) ↔
        ∀ line ∈ Text.lines source.toList, Sentence (wordsOf line)) ∧
      ∀ before line after, Text.lines source.toList = before ++ line :: after →
        (∀ l ∈ before, Sentence (wordsOf l)) → ¬Sentence (wordsOf line) →
        ∃ e column,
          (translateSource options source moduleName bootstrap journal).1 =
            .error (.command (.rejected e)) ∧
          (∀ kind, Offence (wordsOf line) kind ↔ kind = e.cause.kind) ∧ StartsAt line column ∧
          e.location = some { file := m ++ ".vm", line := before.length + 1, column } := by
  obtain ⟨s, ho, hcounters, htranslate⟩ := exists_translateSource_eq hboot moduleName journal
  rw [htranslate]
  have hrejected {before line after} (hsource : Text.lines source.toList = before ++ line :: after)
      (hbefore : ∀ l ∈ before, Sentence (wordsOf l)) (hline : ¬Sentence (wordsOf line)) :=
    translateModule_of_not_sentence hcounters hsize hshort ho hname hsource hbefore hline
  refine ⟨⟨?_, fun h => ?_⟩, fun before line after hsource hbefore hline => ?_⟩
  · rintro ⟨result, hresult⟩
    rcases forall_or_exists_first (fun line => Sentence (wordsOf line))
      (Text.lines source.toList) with hall | ⟨before, line, after, hsource, hbefore, hline⟩
    · exact hall
    · obtain ⟨e, t, -, hmodule, -⟩ := hrejected hsource hbefore hline
      rw [hmodule] at hresult
      cases hresult
  · obtain ⟨count, t, hmodule⟩ :=
      translateModule_of_sentences hcounters hsize hshort ho hname h
    rw [hmodule]
    exact ⟨_, rfl⟩
  · obtain ⟨e, t, column, hmodule, hrest⟩ := hrejected hsource hbefore hline
    rw [hmodule]
    exact ⟨e, column, rfl, hrest⟩

theorem shortNumbers_of_length {ws : List String} (h : ∀ w ∈ ws, w.toList.length ≤ 4299) :
    ShortNumbers ws := fun w hw _ => h w hw

/-- A text whose third line pops into the constants. -/
def constantSource : String := "push constant 7 // seven\n\n  pop constant 2\nadd\n"

theorem translateSource_exact_constantSource :
    (moduleOfName? "dir/Main.vm" = some "Main" ∧ isIndex constantSource.toList.length = true) ∧
      ∃ e, (translateSource {} constantSource "dir/Main.vm").1 = .error (.command (.rejected e)) ∧
        e.cause.kind = .unsupportedOperation ∧
        e.location = some { file := "Main.vm", line := 3, column := 3 } := by
  have hname : moduleOfName? "dir/Main.vm" = some "Main" := by decide +kernel
  have hsize : isIndex constantSource.toList.length = true := by decide +kernel
  have hlines : Text.lines constantSource.toList =
      ["push constant 7 // seven\n".toList, "\n".toList] ++
        "  pop constant 2\n".toList :: ["add\n".toList] := by decide +kernel
  have hlength : ∀ line ∈ Text.lines constantSource.toList,
      ∀ w ∈ wordsOf line, w.toList.length ≤ 4299 := by decide +kernel
  have hwords : wordsOf "push constant 7 // seven\n".toList = ["push", "constant", "7"] ∧
      wordsOf "\n".toList = [] ∧
      wordsOf "  pop constant 2\n".toList = ["pop", "constant", "2"] := by decide +kernel
  have hoffence : Offence ["pop", "constant", "2"] .unsupportedOperation :=
    .popConstant (by unfold IsNumber; decide) (by decide)
  have hshort : ShortNumbers ["pop", "constant", "2"] := shortNumbers_of_length (by decide)
  obtain ⟨e, column, he, hkind, hstarts, hplace⟩ :=
    (@translateSource_exact {} _ _ _ none #[] hname rfl hsize
      fun line hline => shortNumbers_of_length (hlength line hline)).2 _ _ _ hlines
      (by
        intro line hline
        simp only [List.mem_cons, List.not_mem_nil, or_false] at hline
        rcases hline with rfl | rfl
        · rw [hwords.1]
          have hsegment : ("constant", 32767) ∈ segmentLimits := by decide
          exact .push hsegment (by unfold IsNumber; decide) (by decide)
        · rw [hwords.2.1]
          exact .blank)
      (by rw [hwords.2.2]; exact not_sentence_of_offence hoffence hshort)
  refine ⟨⟨hname, hsize⟩, e, he, ((hkind _).1 (by rw [hwords.2.2]; exact hoffence)).symm, ?_⟩
  rw [hplace, ← hstarts.firstColumn_eq]
  rfl

end HackToolchain.Codegen
