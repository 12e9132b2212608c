import HackToolchain.Proofs.Asm.Outcomes
import HackToolchain.Proofs.Codegen.Emission

/-!
# Comments change nothing

A program is translated twice, with comments and without. Both translations go the same way, line by
line (`Alike`), and the two texts differ only in rows that are comments. So they are assembled to
the same (`comments_transparent`).
-/

set_option autoImplicit false

namespace HackToolchain.Codegen

open Text Vm Asm

/-! ## Comments in a text -/

theorem rowsOutcome_comment {text : String} (h : ∀ c ∈ text.toList, isBreak c = false) :
    rowsOutcome (rowsOf (Line.comment text).render.toList) = .ok [] := by
  have htext : (Line.comment text).render.toList = '/' :: '/' :: ' ' :: text.toList := by
    simp [Line.render, String.toList_append]
  have hbreak : ∀ c ∈ (Line.comment text).render.toList, isBreak c = false := by
    rw [htext]
    have hslash : isBreak '/' = false ∧ isBreak ' ' = false := by decide
    simpa [hslash] using h
  have hcontent : content ('/' :: '/' :: ' ' :: text.toList) = [] := by
    rw [content, uncomment_slashes]
    rfl
  rw [rowsOf_of_no_break hbreak, htext, rowsOutcome, rowOutcome, hcontent]
  rfl

/-- A text without its comments comes to the same. -/
theorem rowsOutcome_withoutComments {c : Code} (h : TidyComments c) :
    rowsOutcome (rows (renderLines (withoutComments c)).toList) =
      rowsOutcome (rows (renderLines c).toList) := by
  rw [rows_renderLines, rows_renderLines]
  induction c with
  | nil => rfl
  | cons l c ih =>
    have hc := ih fun text ht => h text (List.mem_cons_of_mem _ ht)
    rw [List.flatMap_cons, rowsOutcome_append, ← hc]
    -- Only a comment is left out, and it contributes no statement.
    cases l with
    | comment text =>
      rw [rowsOutcome_comment (h text List.mem_cons_self), withoutComments,
        List.filter_cons_of_neg (by simp [Line.isComment]), ← withoutComments]
      cases rowsOutcome ((withoutComments c).flatMap fun l => rowsOf l.render.toList) <;> rfl
    | define s | load s | number n | act i =>
      rw [withoutComments, List.filter_cons_of_pos (by simp [Line.isComment]), ← withoutComments,
        List.flatMap_cons, rowsOutcome_append]

/-! ## Two translations -/

/-- Two sessions that go the same way, the first with comments and the second without. -/
structure Alike (s t : Session) : Prop where
  journal : s.journal = t.journal
  module : s.emitter.scope.module = t.emitter.scope.module
  counters : s.emitter.counters = t.emitter.counters
  commented : s.emitter.scope.comments = true
  plain : t.emitter.scope.comments = false
  opened : s.emitter.closed = false ∧ t.emitter.closed = false
  tidy : TidyComments s.emitter.lines.toList
  lines : t.emitter.lines.toList = withoutComments s.emitter.lines.toList

/-- Two translations have the same outcome and go on the same way. -/
def Matches {α : Type} (x y : Except Fault α × Session) : Prop := x.1 = y.1 ∧ Alike x.2 y.2

/-- Translations that match still match when both go on, in ways that match. -/
theorem Matches.andThen {α β : Type} {x y : Except Fault α × Session}
    {f g : α → Session → Except Fault β × Session} (h : Matches x y)
    (hf : ∀ a s t, Alike s t → Matches (f a s) (g a t)) :
    Matches (Session.andThen x f) (Session.andThen y g) := by
  obtain ⟨outcome, s⟩ := x
  obtain ⟨outcome', t⟩ := y
  obtain ⟨rfl, halike⟩ : outcome = outcome' ∧ Alike s t := h
  cases outcome with
  | error e => exact ⟨rfl, halike⟩
  | ok a => exact hf a s t halike

theorem Matches.error_or_ok {α : Type} {x y : Except Fault α × Session} (h : Matches x y) :
    (∃ f s t, x = (.error f, s) ∧ y = (.error f, t) ∧ Alike s t) ∨
      ∃ a s t, x = (.ok a, s) ∧ y = (.ok a, t) ∧ Alike s t := by
  obtain ⟨outcome, s⟩ := x
  obtain ⟨outcome', t⟩ := y
  obtain ⟨rfl, halike⟩ : outcome = outcome' ∧ Alike s t := h
  cases outcome with
  | error f => exact .inl ⟨f, s, t, rfl, rfl, halike⟩
  | ok a => exact .inr ⟨a, s, t, rfl, rfl, halike⟩

namespace Alike

variable {s t : Session}

theorem note (h : Alike s t) (e : Entry) : Alike (s.note e) (t.note e) :=
  { h with journal := congrArg (·.push e) h.journal }

/-- What is drafted with a comment in front and without it is written or refused alike. -/
theorem write (h : Alike s t) {r : Request} (draft : Except Vm.Fault Draft) (text : String)
    (hs : s.emitter.scope.draft s.emitter.counters r =
      draft.map fun d => { d with code := .comment text :: d.code })
    (ht : t.emitter.scope.draft t.emitter.counters r = draft)
    (hno : ∀ d, draft = .ok d → NoComments d.code)
    (htext : ∀ c ∈ text.toList, isBreak c = false) : Matches (s.write r) (t.write r) := by
  -- A comment always fits on its line, so both drafts fit or neither does.
  obtain ⟨hopen, hopen'⟩ := h.opened
  unfold Session.write Emitter.write
  rw [hs, ht]
  cases hd : draft with
  | error f => exact ⟨rfl, h⟩
  | ok d =>
    have hno := hno d hd
    have hfits : (Line.comment text :: d.code).all Line.fits = d.code.all Line.fits := by
      rw [List.all_cons]
      rfl
    simp only [Except.map, hfits]
    by_cases hall : d.code.all Line.fits = true
    · rw [if_pos hall, if_pos hall]
      simp only [Emitter.commit, hopen, hopen', Bool.false_eq_true, if_false]
      have htidy : TidyComments (.comment text :: d.code) := by
        intro other hother
        rcases List.mem_cons.1 hother with hother | hother
        · rw [Line.comment.inj hother]
          exact htext
        · exact absurd (hno _ hother) (by simp [Line.isComment])
      have hcode : withoutComments (.comment text :: d.code) = d.code := by
        rw [withoutComments, List.filter_cons_of_neg (by simp [Line.isComment]), ← withoutComments,
          withoutComments_eq_self hno]
      refine ⟨rfl, h.journal, h.module, rfl, h.commented, h.plain, ⟨rfl, rfl⟩, ?_, ?_⟩
      · simpa using tidyComments_append h.tidy htidy
      · simpa [h.lines, withoutComments] using hcode.symm
    · rw [if_neg hall, if_neg hall]
      exact ⟨rfl, h⟩

theorem write_instruction (h : Alike s t) {i : Instruction} (hne : i.text ≠ "")
    (htext : ∀ c ∈ i.text.toList, isBreak c = false) :
    Matches (s.write (.instruction i)) (t.write (.instruction i)) := by
  have hrender : i.render = .ok i.text := by rw [Instruction.render, if_neg hne]
  have hcommand : s.emitter.scope.draftCommand s.emitter.counters i.command =
      t.emitter.scope.draftCommand t.emitter.counters i.command := by
    rw [h.counters]
    cases i.command <;> simp only [Scope.draftCommand, Scope.draftCall, h.module]
  refine h.write ((t.emitter.scope.draftCommand t.emitter.counters i.command).mapError
    (·.locate i.location (if i.text = "" then none else some i.text))) i.text ?_ ?_ ?_ htext
  · have hannotate : s.emitter.scope.annotate i.text =
        fun d => { d with code := .comment i.text :: d.code } := by
      funext d
      rw [Scope.annotate, if_pos h.commented]
    simp only [Scope.draft, Scope.draftInstruction, h.commented, if_true, hrender, hcommand,
      hannotate]
  · simp only [Scope.draft, Scope.draftInstruction, h.plain, Bool.false_eq_true, if_false]
  · intro d hd
    have hdraft : (⟨t.emitter.scope.module, .command i.command⟩ : Task).draft t.emitter.counters =
        .ok d := by
      rw [Task.draft]
      cases hc : t.emitter.scope.draftCommand t.emitter.counters i.command with
      | error f => simp [hc, Except.mapError] at hd
      | ok d' =>
        simp only [hc, Except.mapError, Except.ok.injEq] at hd
        subst hd
        rw [← hc]
        cases i.command <;> rfl
    exact Task.noComments hdraft

theorem write_bootstrap (h : Alike s t) {entry : String} (stackBase : Int)
    (hentry : ∀ c ∈ entry.toList, isBreak c = false) :
    Matches (s.write (.bootstrap entry stackBase)) (t.write (.bootstrap entry stackBase)) := by
  refine h.write (t.emitter.scope.draft t.emitter.counters (.bootstrap entry stackBase)) _ ?_ rfl ?_
    (@isBreak_of_mem_bootstrapComment entry stackBase hentry)
  · simp only [Scope.draft, Scope.draftBootstrap, Scope.annotate, h.commented, h.plain, h.module,
      h.counters, if_true, Bool.false_eq_true, if_false]
    split <;> rfl
  · intro d hd
    simp only [Scope.draft, Scope.draftBootstrap, Scope.annotate, h.plain, Bool.false_eq_true,
      if_false] at hd
    split at hd
    · exact Task.noComments (t := ⟨t.emitter.scope.module, .bootstrap entry stackBase⟩) hd
    · simp at hd

/-- A headline is written by the first session alone. -/
theorem write_headline (h : Alike s t) {text : String}
    (htext : ∀ c ∈ text.toList, isBreak c = false) :
    (s.write (.comment text)).1 = .ok () ∧ Alike (s.write (.comment text)).2 t := by
  obtain ⟨hopen, -⟩ := h.opened
  have htidy : TidyComments [.comment text] := by
    intro other hother
    rw [Line.comment.inj (List.mem_singleton.1 hother)]
    exact htext
  have hfits : ([.comment text] : Code).all Line.fits = true := rfl
  simp only [Session.write, Emitter.write, Scope.draft, Scope.plain, hfits, if_true, Emitter.commit,
    hopen, Bool.false_eq_true, if_false]
  refine ⟨trivial, h.journal, h.module, h.counters, h.commented, h.plain, ⟨rfl, h.opened.2⟩, ?_, ?_⟩
  · simpa using tidyComments_append h.tidy htidy
  · simp [h.lines, withoutComments, Line.isComment]

/-! ## Modules -/

theorem writeLine (h : Alike s t) (file : String) (number : Nat) (line : String) :
    Matches (s.writeLine file number line) (t.writeLine file number line) := by
  cases hr : Vm.readLine file number line with
  | error f =>
    unfold Session.writeLine
    rw [hr]
    exact ⟨rfl, h⟩
  | ok out =>
    cases out with
    | none =>
      unfold Session.writeLine
      rw [hr]
      exact ⟨rfl, h⟩
    | some i =>
      obtain ⟨hne, htext⟩ := (of_readLine hr).2 i rfl
      rw [Session.writeLine_eq_andThen hr, Session.writeLine_eq_andThen hr]
      apply ((h.note (.commandRead i)).write_instruction hne htext).andThen
      intro _ s t halike
      exact ⟨rfl, halike⟩

theorem writeLines (h : Alike s t) (file : String) (number count : Nat) (lines : List String) :
    Matches (s.writeLines file number count lines) (t.writeLines file number count lines) := by
  induction lines generalizing number count s t with
  | nil => exact ⟨rfl, h⟩
  | cons line lines ih =>
    rw [Session.writeLines_cons, Session.writeLines_cons]
    apply (h.writeLine file (number + 1) line).andThen
    intro found s t halike
    exact ih halike _ _

theorem enterModule (h : Alike s t) (name : String) :
    Matches (s.enterModule name) (t.enterModule name) := by
  unfold Session.enterModule Emitter.enterModule
  cases moduleOfName? name with
  | none => exact ⟨rfl, h⟩
  | some m =>
    have hentered : Alike
        { s with emitter := { s.emitter with scope := { s.emitter.scope with module := some m } } }
        { t with
          emitter := { t.emitter with scope := { t.emitter.scope with module := some m } } } :=
      { h with module := rfl }
    exact ⟨rfl, hentered.note _⟩

theorem translateModule (h : Alike s t) (source : Utf8.Stream) (name : String)
    (file : Option String) :
    Matches (s.translateModule source name file) (t.translateModule source name file) := by
  rw [Session.translateModule_eq_andThen, Session.translateModule_eq_andThen]
  apply (h.enterModule name).andThen
  intro _ s t halike
  have hname : s.emitter.module = t.emitter.module := halike.module
  rw [hname]
  apply (halike.writeLines _ 0 0 source.lines).andThen
  intro count s t halike
  cases source.fault with
  | some f => exact ⟨rfl, halike⟩
  | none => exact ⟨rfl, halike.note _⟩

/-! ## Programs -/

/-- A source is translated alike, although the first session has a headline for it. -/
theorem translateUnit (h : Alike s t) {u : SourceUnit}
    (hname : ∀ c ∈ u.moduleName.toList, isBreak c = false) :
    Matches (s.translateUnit u) (t.translateUnit u) := by
  have hhead := isBreak_of_mem_headline hname
  obtain ⟨moduleName, source, path⟩ := u
  unfold Session.translateUnit
  cases path with
  | some path =>
    have hread := h.note (.readingFile path)
    obtain ⟨hheadline, halike⟩ := hread.write_headline hhead
    simp only [hread.commented, hread.plain, if_true, Bool.false_eq_true, if_false, hheadline]
    exact halike.translateModule _ _ _
  | none =>
    obtain ⟨hheadline, halike⟩ := h.write_headline hhead
    simp only [h.commented, h.plain, if_true, Bool.false_eq_true, if_false, hheadline]
    exact halike.translateModule _ _ _

theorem translateUnits (h : Alike s t) (modules : List String) (count : Nat)
    {units : List SourceUnit}
    (hunits : ∀ u ∈ units, ∀ c ∈ u.moduleName.toList, isBreak c = false) :
    Matches (s.translateUnits modules count units) (t.translateUnits modules count units) := by
  induction units generalizing modules count s t with
  | nil => exact ⟨rfl, h⟩
  | cons u units ih =>
    rw [Session.translateUnits_cons, Session.translateUnits_cons]
    apply (h.translateUnit (hunits u List.mem_cons_self)).andThen
    intro n s t halike
    have hname : s.emitter.module = t.emitter.module := halike.module
    rw [hname]
    exact ih halike _ _ fun v hv => hunits v (List.mem_cons_of_mem _ hv)

/-- The texts of sessions that go the same way are assembled to the same. -/
theorem sameOutcome_text (h : Alike s t) (file : String) (base : Int) :
    SameOutcome (assemble s.emitter.text file base) (assemble t.emitter.text file base) := by
  apply assemble_congr
  rw [Emitter.text, Emitter.textFrom, List.drop_zero, Emitter.text, Emitter.textFrom,
    List.drop_zero, h.lines, rowsOutcome_withoutComments h.tidy]

end Alike

/-- Two results have the same modules and commands and texts that are assembled to the same. -/
structure SameResult (r r' : Result) : Prop where
  modules : r.modules = r'.modules
  instructionCount : r.instructionCount = r'.instructionCount
  bootstrapped : r.bootstrapped = r'.bootstrapped
  assembly (file : String) (base : Int) :
    SameOutcome (assemble r.assembly file base) (assemble r'.assembly file base)

/-- Whether comments are on makes no difference but in the comments: a program is translated with
them as without them, or rejected for the same fault, and both texts are assembled to the same. -/
theorem comments_transparent (options : Options) (bootstrap : Bool) {units : List SourceUnit}
    (journal : Journal) (hentry : ∀ c ∈ options.entry.toList, isBreak c = false)
    (hunits : ∀ u ∈ units, ∀ c ∈ u.moduleName.toList, isBreak c = false) :
    (∃ f journal',
      translateProgram { options with comments := true } bootstrap units journal =
        (.error f, journal') ∧
      translateProgram { options with comments := false } bootstrap units journal =
        (.error f, journal')) ∨
    ∃ r r' journal',
      translateProgram { options with comments := true } bootstrap units journal =
        (.ok r, journal') ∧
      translateProgram { options with comments := false } bootstrap units journal =
        (.ok r', journal') ∧ SameResult r r' := by
  -- Both start with nothing written; from there on every step keeps them alike.
  have hstart : Alike (Session.initial true journal) (Session.initial false journal) :=
    ⟨rfl, rfl, rfl, rfl, rfl, ⟨rfl, rfl⟩, fun _ h => absurd h List.not_mem_nil, rfl⟩
  have hboot : Matches ((Session.initial true journal).writeBoot (options.boot? bootstrap))
      ((Session.initial false journal).writeBoot (options.boot? bootstrap)) := by
    rw [Options.boot?]
    cases bootstrap with
    | false => exact ⟨rfl, hstart⟩
    | true =>
      rw [if_pos rfl, Session.writeBoot, Session.writeBoot]
      exact hstart.write_bootstrap options.stackBase hentry
  have hunits := hboot.andThen fun _ s t halike => halike.translateUnits [] 0 hunits
  have hon := translateProgram_eq_result { options with comments := true } bootstrap units journal
  have hoff := translateProgram_eq_result { options with comments := false } bootstrap units journal
  obtain ⟨f, s, t, hs, ht, halike⟩ | ⟨⟨modules, count⟩, s, t, hs, ht, halike⟩ := hunits.error_or_ok
  · have hon := hon.trans (congrArg (Session.result bootstrap) hs)
    have hoff := hoff.trans (congrArg (Session.result bootstrap) ht)
    rw [Session.result, ← halike.journal] at hoff
    exact .inl ⟨f, s.journal, hon, hoff⟩
  · have hon := hon.trans (congrArg (Session.result bootstrap) hs)
    have hoff := hoff.trans (congrArg (Session.result bootstrap) ht)
    rw [Session.result, ← halike.journal] at hoff
    exact .inr ⟨_, _, s.journal, hon, hoff, ⟨rfl, rfl, rfl, halike.sameOutcome_text⟩⟩

/-- A program of two modules, with a comparison, a call and comments of its own. -/
def commentedUnits : List SourceUnit :=
  [{ moduleName := "Main",
     source := .ofString
       "function Main.f 0\npush constant 7 // seven\npush static 0\neq\nreturn\n" },
   { moduleName := "Sys",
     source := .ofString "function Sys.init 0\ncall Main.f 0\nlabel END\ngoto END\n" }]

theorem comments_transparent_commentedUnits :
    ∃ r r' journal,
      translateProgram { comments := true } true commentedUnits = (.ok r, journal) ∧
      translateProgram { comments := false } true commentedUnits = (.ok r', journal) ∧
      SameResult r r' := by
  have hok : (translateProgram { comments := true } true commentedUnits).1.isOk = true := by
    decide +kernel
  obtain ⟨f, journal, hon, -⟩ | hsame := comments_transparent {} true #[]
    (by decide : ∀ c ∈ ({} : Options).entry.toList, isBreak c = false)
    (by decide : ∀ u ∈ commentedUnits, ∀ c ∈ u.moduleName.toList, isBreak c = false)
  · rw [hon] at hok
    cases hok
  · exact hsame

end HackToolchain.Codegen
