import HackToolchain.Proofs.Codegen.LineByLine
import HackToolchain.Proofs.Codegen.Modules
import HackToolchain.Proofs.Codegen.Symbols
import HackToolchain.Proofs.Text.Lines

/-!
# The translation of a text is that of its first lines

Translating a text stops at the first line that the reader or the emitter rejects, and leaves the
emitter as it is after the lines before it; the lines behind it do not matter. A text without such a
line may be cut behind any line and its parts translated one after the other. Either way as many
lines are counted as newlines are written (`Session.translateModule_linewise`).
-/

set_option autoImplicit false

namespace HackToolchain.Codegen

open Text Vm

/-! ## Rejected lines -/

/-- The reader or the emitter rejects a line that stands at a place. -/
def Emitter.Rejects (e : Emitter) (file : String) (number : Nat) (line : String) : Prop :=
  (∃ f, readLine file number line = .error f) ∨
    ∃ i f, readLine file number line = .ok (some i) ∧ (e.write (.instruction i)).1 = .error f

/-- A line is rejected wherever it stands, or nowhere. -/
theorem Emitter.rejects_iff {e : Emitter} (ho : e.closed = false) {file line : String}
    {number : Nat} : e.Rejects file number line ↔ ∃ f, e.take line = .error f := by
  unfold Rejects take
  cases hr : readWords (commandWords line) with
  | error f =>
    obtain ⟨g, hread, -⟩ := readLine_of_readWords_eq_error hr file number
    simp [hread]
  | ok found =>
    cases found with
    | none =>
      have hread : readLine file number line = .ok none := by simp only [readLine, parseLine, hr]
      simp [hread]
    | some c =>
      have hread := readLine_of_readWords hr file number
      have htext := ((of_readLine hread).2 _ rfl).1
      simp only [hread, reduceCtorEq, exists_false, false_or, Except.ok.injEq, Option.some.injEq,
        exists_and_left, exists_eq_left', write_instruction ho htext]
      cases e.scope.draftCommand e.counters c with
      | error f => simp
      | ok d => by_cases hfits : d.code.all Line.fits = true <;> simp [hfits]

/-! ## Newlines -/

theorem ne_newline_of_isBreak {s : List Char} (h : ∀ c ∈ s, isBreak c = false) : '\n' ∉ s :=
  fun hc => absurd (h _ hc) (by decide)

theorem ne_newline_of_isBlank {s : List Char} (h : ∀ c ∈ s, isBlank c = false) : '\n' ∉ s :=
  fun hc => absurd (h _ hc) (by decide)

/-- The code of a task has no newlines in its lines, if the names in the task have none. -/
theorem newline_of_draft {t : Task} {k : Counters} {d : Draft} (h : t.draft k = .ok d)
    (hm : ∀ m, t.module = some m → '\n' ∉ m.toList)
    (hn : ∀ name, t.job.target? = some name → '\n' ∉ name.toList) {l : Line} (hl : l ∈ d.code) :
    '\n' ∉ l.render.toList := by
  have hsymbol {s : Symbol} (hs : l.symbol? = some s) : '\n' ∉ s.name.toList := by
    intro hc
    rcases ((Task.covers h).symbols l hl s hs).of_mem_name hc with
      ⟨m, hmodule, hc⟩ | ⟨name, hname, hc⟩ | hc
    · exact hm m hmodule hc
    · exact hn name hname hc
    · exact absurd hc (by decide)
  cases l with
  | comment text => exact absurd (Task.noComments h _ hl) (by simp [Line.isComment])
  | define s =>
    rw [Line.toList_render_define]
    simpa using hsymbol (s := s) rfl
  | load s =>
    rw [Line.toList_render_load]
    simpa using hsymbol (s := s) rfl
  | number n =>
    have hdigits := ne_newline_of_isBlank fun c hc => Decimal.isBlank_of_mem_render (n := n) hc
    simpa [Line.render, String.toList_append] using hdigits
  | act i => exact ne_newline_of_isBreak fun c hc => Asm.isBreak_of_mem_render hc

theorem renderLines_append (ls ms : List Line) :
    renderLines (ls ++ ms) = renderLines ls ++ renderLines ms := by
  simp [renderLines, String.join_append]

theorem count_renderLines {ls : List Line} (h : ∀ l ∈ ls, '\n' ∉ l.render.toList) :
    (renderLines ls).toList.count '\n' = ls.length := by
  induction ls with
  | nil => rfl
  | cons l ls ih =>
    have hl : l.render.toList.count '\n' = 0 :=
      List.count_eq_zero.2 (h l List.mem_cons_self)
    have hls := ih fun l hl => h l (List.mem_cons_of_mem _ hl)
    rw [← List.singleton_append, renderLines_append, String.toList_append, List.count_append, hls]
    simp [renderLines, String.toList_append, hl, Nat.add_comm]

namespace Emitter

/-- Text was written behind the text of an emitter, and as many lines were counted as there are
newlines in it. -/
def GrowsTo (e e' : Emitter) : Prop :=
  ∃ added : String, e'.text = e.text ++ added ∧
    e'.lineCount = e.lineCount + added.toList.count '\n'

theorem GrowsTo.refl (e : Emitter) : e.GrowsTo e := ⟨"", by simp, by simp⟩

theorem GrowsTo.trans {e f g : Emitter} (h : e.GrowsTo f) (h' : f.GrowsTo g) : e.GrowsTo g := by
  obtain ⟨first, htext, hcount⟩ := h
  obtain ⟨second, htext', hcount'⟩ := h'
  refine ⟨first ++ second, ?_, ?_⟩
  · rw [htext', htext, String.append_assoc]
  · rw [hcount', hcount, String.toList_append, List.count_append, Nat.add_assoc]

theorem growsTo_of_lines {e e' : Emitter} {added : List Line}
    (hlines : e'.lines.toList = e.lines.toList ++ added)
    (h : ∀ l ∈ added, '\n' ∉ l.render.toList) : e.GrowsTo e' := by
  refine ⟨renderLines added, ?_, ?_⟩
  · rw [text, textFrom, text, textFrom, List.drop_zero, List.drop_zero, hlines, renderLines_append]
  · have hlength := congrArg List.length hlines
    rw [List.length_append] at hlength
    rw [count_renderLines h]
    exact hlength

variable {e e' : Emitter} {line : String} {lines : List String}

/-- For each newline that is written for a line, a line is counted. -/
theorem growsTo_of_take (hm : ∀ m, e.module = some m → '\n' ∉ m.toList)
    (h : e.take line = .ok e') : e.GrowsTo e' := by
  rcases of_take_eq_ok h with ⟨-, rfl⟩ | ⟨c, d, hread, hd, rfl⟩
  · exact .refl _
  · obtain ⟨hcommand, htext⟩ :=
      of_readLine (readLine_of_readWords hread "" 0)
    have hname {name : String} (h : c.name? = some name) : '\n' ∉ name.toList :=
      ne_newline_of_isBlank ((of_commandOf? hcommand).1 name h).isBlank
    have hcode : ∀ l ∈ d.code, '\n' ∉ l.render.toList := fun l hl =>
      newline_of_draft hd hm (fun name h => hname (Job.name?_of_target? h)) hl
    have hcomment : '\n' ∉ (Line.comment (commandText line)).render.toList := by
      have := ne_newline_of_isBreak (htext _ rfl).2
      simpa [Line.render, String.toList_append] using this
    have hadded : ∀ l ∈ (e.scope.annotate (commandText line) d).code, '\n' ∉ l.render.toList := by
      unfold Scope.annotate
      split
      · exact List.forall_mem_cons.2 ⟨hcomment, hcode⟩
      · exact hcode
    exact growsTo_of_lines (by simp) hadded

theorem growsTo_of_takeAll (hm : ∀ m, e.module = some m → '\n' ∉ m.toList)
    (h : e.takeAll lines = .ok e') : e.GrowsTo e' := by
  induction lines generalizing e with
  | nil =>
    obtain rfl := Except.ok.inj h
    exact .refl _
  | cons line lines ih =>
    obtain ⟨f, hf, h⟩ := takeAll_cons_eq_ok.1 h
    have hscope := (scope_of_take hf).1
    refine (growsTo_of_take hm hf).trans (ih (fun m hmodule => hm m ?_) h)
    exact (congrArg Scope.module hscope).symm.trans hmodule

end Emitter

/-! ## First lines -/

/-- The text of the first lines of a source. -/
def firstLines (k : Nat) (source : String) : String :=
  String.ofList ((Text.lines source.toList).take k).flatten

namespace Session

theorem sourceLines_firstLines (k : Nat) (source : String) :
    sourceLines (firstLines k source) = (sourceLines source).take k := by
  have htake := List.take_prefix k (Text.lines source.toList)
  rw [sourceLines, firstLines, String.toList_ofList, lines_flatten_of_prefix htake, List.map_take]
  rfl

theorem sourceLines_append {first second : String}
    (h : first = "" ∨ first.toList.getLast? = some '\n') :
    sourceLines (first ++ second) = sourceLines first ++ sourceLines second := by
  have hfirst : first.toList = [] ∨ first.toList.getLast? = some '\n' := by
    refine h.imp_left ?_
    rintro rfl
    rfl
  rw [sourceLines, String.toList_append, lines_append hfirst, List.map_append]
  rfl

theorem commandCount_append (lines more : List String) :
    commandCount (lines ++ more) = commandCount lines + commandCount more := by
  rw [commandCount, List.filter_append, List.length_append]
  rfl

theorem commandCount_sourceLines (source : String) : commandCount (sourceLines source) =
    ((Text.lines source.toList).filter fun line => content line ≠ []).length := by
  have hwords (line : List Char) : commandWords (String.ofList line) ≠ [] ↔ content line ≠ [] := by
    rw [commandWords_eq, wordsOf, ne_eq, List.map_eq_nil_iff, ← content_eq_nil_iff]
  rw [commandCount, sourceLines, List.filter_map, List.length_map]
  simp only [Function.comp_def, hwords]

/-- What comes of a session that translates the first lines of a source, and then of the next
line. -/
structure FirstRejected (s : Session) (name : String) (file : Option String) (source : String)
    (k : Nat) (line : String) (e : Emitter) : Prop where
  before : ∃ n t, s.translateModule (.ofString (firstLines k source)) name file = (.ok n, t) ∧
    t.emitter = e
  at_line : (sourceLines source)[k]? = some line
  rejected : e.Rejects (fileOf (e.module.getD "") file) (k + 1) line

section

variable {s : Session} {e : Emitter} {name m source : String} {k : Nat} {line : String}
  {file : Option String} (ho : s.emitter.closed = false) (hname : moduleOfName? name = some m)
include ho hname

variable (file) in
/-- A text is translated exactly if all its lines are taken. -/
theorem translateModule_ok_iff :
    (∃ n t, s.translateModule (.ofString source) name file = (.ok n, t) ∧ t.emitter = e) ↔
      (s.entered m).emitter.takeAll (sourceLines source) = .ok e := by
  constructor
  · rintro ⟨n, t, h, rfl⟩
    rcases Emitter.takeAll_cases (s.entered m).emitter (sourceLines source) with
      ⟨e, htake⟩ | ⟨before, line, after, e, f, hlines, htake, hfail⟩
    · obtain ⟨t', ht', rfl⟩ := translateModule_of_takeAll ho hname htake file
      rw [h] at ht'
      rw [htake, (Prod.mk.inj ht').2]
    · obtain ⟨g, t', -, -, hmodule⟩ := translateModule_of_take_error ho hname htake hfail file
      rw [hmodule source after hlines] at h
      cases h
  · intro h
    obtain ⟨t, ht, he⟩ := translateModule_of_takeAll ho hname h file
    exact ⟨_, t, ht, he⟩

/-- The first line that is rejected is the first one that is not taken. -/
theorem firstRejected_iff : s.FirstRejected name file source k line e ↔
    (s.entered m).emitter.takeAll ((sourceLines source).take k) = .ok e ∧
      (sourceLines source)[k]? = some line ∧ ∃ f, e.take line = .error f := by
  rw [← sourceLines_firstLines, ← translateModule_ok_iff file ho hname]
  constructor
  · rintro ⟨hbefore, hline, hrejects⟩
    have htake := (translateModule_ok_iff file ho hname).1 hbefore
    have hopen := (Emitter.scope_of_takeAll htake).2.trans ho
    exact ⟨hbefore, hline, (Emitter.rejects_iff hopen).1 hrejects⟩
  · rintro ⟨hbefore, hline, hfail⟩
    have htake := (translateModule_ok_iff file ho hname).1 hbefore
    have hopen := (Emitter.scope_of_takeAll htake).2.trans ho
    exact ⟨hbefore, hline, (Emitter.rejects_iff hopen).2 hfail⟩

/-- A text of which no line is rejected is taken as a whole. -/
theorem takeAll_of_not_firstRejected
    (h : ¬∃ k line e, s.FirstRejected name file source k line e) :
    ∃ e, (s.entered m).emitter.takeAll (sourceLines source) = .ok e := by
  rcases Emitter.takeAll_cases (s.entered m).emitter (sourceLines source) with
    htake | ⟨before, line, after, e, f, hlines, htake, hfail⟩
  · exact htake
  · refine absurd ⟨before.length, line, e, (firstRejected_iff ho hname).2 ⟨?_, ?_, f, hfail⟩⟩ h
    · rw [hlines, List.take_left, htake]
    · rw [hlines, List.getElem?_append_right (Nat.le_refl _), Nat.sub_self]
      rfl

/-- A text is translated up to the first line that is rejected. The lines behind it have no part in
what comes of it, and an error tells where the line starts. -/
theorem translateModule_of_firstRejected (h : s.FirstRejected name file source k line e) :
    ∃ g t, t.emitter = e ∧
      (∀ other, firstLines (k + 1) other = firstLines (k + 1) source →
        s.translateModule (.ofString other) name file = (.error (.command g), t)) ∧
      ∀ err, g = .rejected err → ∃ column, StartsAt line.toList column ∧
        err.location = some { file := fileOf m file, line := k + 1, column } := by
  obtain ⟨hbefore, hline, f, hfail⟩ := (firstRejected_iff ho hname).1 h
  have hlength : ((sourceLines source).take k).length = k :=
    List.length_take_of_le (Nat.le_of_lt (List.getElem?_eq_some_iff.1 hline).1)
  obtain ⟨g, t, ht, htold, hmodule⟩ := translateModule_of_take_error ho hname hbefore hfail file
  rw [hlength] at htold
  refine ⟨g, t, ht, fun other hother => ?_, fun err herr => ?_⟩
  · have hfirst : (sourceLines other).take (k + 1) = (sourceLines source).take k ++ [line] := by
      rw [← sourceLines_firstLines, hother, sourceLines_firstLines, List.take_add_one, hline]
      rfl
    apply hmodule other ((sourceLines other).drop (k + 1))
    calc sourceLines other
        = (sourceLines other).take (k + 1) ++ (sourceLines other).drop (k + 1) :=
          (List.take_append_drop _ _).symm
      _ = (sourceLines source).take k ++ line :: (sourceLines other).drop (k + 1) := by
          rw [hfirst, List.append_assoc]
          rfl
  · subst herr
    cases htold with
    | rejected hcause hplace hshown =>
      exact ⟨_, startsAt_of_content (Emitter.content_ne_nil_of_take_error hfail), hplace⟩

/-- A text of which no line is rejected is translated, all at once or its parts one after the
other. -/
theorem translateModule_of_not_firstRejected
    (h : ¬∃ k line e, s.FirstRejected name file source k line e) :
    ∃ n t, s.translateModule (.ofString source) name file = (.ok n, t) ∧
      n = ((Text.lines source.toList).filter fun line => content line ≠ []).length ∧
      ∀ first second, source = first ++ second →
        first = "" ∨ first.toList.getLast? = some '\n' →
        ∃ n₁ t₁ n₂ t₂, s.translateModule (.ofString first) name file = (.ok n₁, t₁) ∧
          t₁.translateModule (.ofString second) name file = (.ok n₂, t₂) ∧
          n = n₁ + n₂ ∧ t₂.emitter = t.emitter := by
  obtain ⟨e, htake⟩ := takeAll_of_not_firstRejected ho hname h
  obtain ⟨t, ht, rfl⟩ := translateModule_of_takeAll ho hname htake file
  refine ⟨_, t, ht, commandCount_sourceLines source, fun first second hsource hfirst => ?_⟩
  rw [hsource, sourceLines_append hfirst] at htake ⊢
  obtain ⟨e₁, htake₁, htake₂⟩ := Emitter.takeAll_append_eq_ok.1 htake
  obtain ⟨t₁, ht₁, rfl⟩ := translateModule_of_takeAll ho hname htake₁ file
  obtain ⟨hscope, hclosed⟩ := Emitter.scope_of_takeAll htake₁
  have hentered : (t₁.entered m).emitter = t₁.emitter := by
    have hmodule : { t₁.emitter.scope with module := some m } = t₁.emitter.scope := by
      rw [hscope]
      rfl
    rw [entered, hmodule]
  rw [← hentered] at htake₂
  obtain ⟨t₂, ht₂, he⟩ := translateModule_of_takeAll (hclosed.trans ho) hname htake₂ file
  exact ⟨_, t₁, _, t₂, ht₁, ht₂, commandCount_append _ _, he⟩

/-- Whatever comes of a text, as many lines are counted as newlines are written. -/
theorem growsTo_of_translateModule (hbreak : '\n' ∉ name.toList) (file : Option String)
    (source : String) :
    s.emitter.GrowsTo (s.translateModule (.ofString source) name file).2.emitter := by
  have hmodule : ∀ m', (s.entered m).emitter.module = some m' → '\n' ∉ m'.toList := by
    intro m' hm'
    obtain rfl : m = m' := Option.some.inj hm'
    exact fun hc => hbreak (mem_of_moduleOfName? hname hc)
  have hgrows {lines : List String} {e : Emitter}
      (h : (s.entered m).emitter.takeAll lines = .ok e) : s.emitter.GrowsTo e :=
    Emitter.growsTo_of_takeAll (e := (s.entered m).emitter) hmodule h
  by_cases h : ∃ k line e, s.FirstRejected name file source k line e
  · obtain ⟨k, line, e, h⟩ := h
    obtain ⟨g, t, rfl, hsame, -⟩ := translateModule_of_firstRejected ho hname h
    rw [hsame source rfl]
    exact hgrows ((firstRejected_iff ho hname).1 h).1
  · obtain ⟨e, htake⟩ := takeAll_of_not_firstRejected ho hname h
    obtain ⟨t, ht, rfl⟩ := translateModule_of_takeAll ho hname htake file
    rw [ht]
    exact hgrows htake

end

/-- Translation is exact on first lines, and goes from part to part. If a line of a text is the
first that the reader or the emitter rejects, the emitter ends up as it does for the lines before
it, the lines behind it have no part in that, and an error tells where the line starts. Otherwise
the lines that say something are counted, and the text may be translated in two parts. As many lines
are counted as newlines are written. -/
theorem translateModule_linewise {s : Session} {name m : String} (ho : s.emitter.closed = false)
    (hname : moduleOfName? name = some m) (hbreak : '\n' ∉ name.toList) (file : Option String)
    (source : String) :
    (∀ k line e, s.FirstRejected name file source k line e →
      ∃ g t, t.emitter = e ∧
        (∀ other, firstLines (k + 1) other = firstLines (k + 1) source →
          s.translateModule (.ofString other) name file = (.error (.command g), t)) ∧
        ∀ err, g = .rejected err → ∃ column, StartsAt line.toList column ∧
          err.location = some { file := fileOf m file, line := k + 1, column }) ∧
      ((¬∃ k line e, s.FirstRejected name file source k line e) →
        ∃ n t, s.translateModule (.ofString source) name file = (.ok n, t) ∧
          n = ((Text.lines source.toList).filter fun line => content line ≠ []).length ∧
          ∀ first second, source = first ++ second →
            first = "" ∨ first.toList.getLast? = some '\n' →
            ∃ n₁ t₁ n₂ t₂, s.translateModule (.ofString first) name file = (.ok n₁, t₁) ∧
              t₁.translateModule (.ofString second) name file = (.ok n₂, t₂) ∧
              n = n₁ + n₂ ∧ t₂.emitter = t.emitter) ∧
      s.emitter.GrowsTo (s.translateModule (.ofString source) name file).2.emitter :=
  ⟨fun _ _ _ => translateModule_of_firstRejected ho hname,
    translateModule_of_not_firstRejected ho hname,
    growsTo_of_translateModule ho hname hbreak file source⟩

/-- A text whose second line has too few words. -/
def shortSource : String := "push constant 1\n  pop\nadd\n"

theorem translateModule_linewise_shortSource :
    (({} : Session).emitter.closed = false ∧ moduleOfName? "Main" = some "Main" ∧
        '\n' ∉ "Main".toList) ∧
      ∃ e, ({} : Session).FirstRejected "Main" none shortSource 1 "  pop\n" e ∧
        ∃ g t, t.emitter = e ∧
          ({} : Session).translateModule (.ofString shortSource) "Main" = (.error (.command g), t) ∧
          ∀ err, g = .rejected err →
            err.location = some { file := "Main.vm", line := 2, column := 3 } := by
  have hname : moduleOfName? "Main" = some "Main" := by decide +kernel
  have hbreak : '\n' ∉ "Main".toList := by decide
  have hfirst : ((({} : Session).entered "Main").emitter.takeAll
      ((sourceLines shortSource).take 1)).isOk = true := by decide +kernel
  have hline : (sourceLines shortSource)[1]? = some "  pop\n" := by decide +kernel
  have hwords : commandWords "  pop\n" = ["pop"] := by decide +kernel
  cases htake : (({} : Session).entered "Main").emitter.takeAll
      ((sourceLines shortSource).take 1) with
  | error f =>
    rw [htake] at hfirst
    cases hfirst
  | ok e =>
    have hfail : ∃ f, e.take "  pop\n" = .error f := by
      rw [Emitter.take, hwords]
      exact ⟨_, rfl⟩
    have hrejected : ({} : Session).FirstRejected "Main" none shortSource 1 "  pop\n" e :=
      (firstRejected_iff rfl hname).2 ⟨htake, hline, hfail⟩
    obtain ⟨g, t, ht, hsame, hplace⟩ :=
      (translateModule_linewise (s := {}) rfl hname hbreak none shortSource).1 1 _ e hrejected
    refine ⟨⟨rfl, hname, hbreak⟩, e, hrejected, g, t, ht, hsame shortSource rfl, ?_⟩
    intro err herr
    obtain ⟨column, hstarts, hlocation⟩ := hplace err herr
    rw [hlocation, ← hstarts.firstColumn_eq]
    rfl

end Session

end HackToolchain.Codegen
