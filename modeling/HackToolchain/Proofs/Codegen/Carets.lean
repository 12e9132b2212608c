import HackToolchain.Proofs.Asm.Carets
import HackToolchain.Proofs.Codegen.Overlong
import HackToolchain.Proofs.Diagnostic.Carets

/-!
# Where the errors of the toolchain point

Every error about a text knows a line of it, and its place is where that line starts. The reader and
the assembler show the line as it stands, so the caret stands below the first character that is no
blank. The emitter shows the words of the line, which start in the first column: the caret stands
where the line starts, but below whatever the words have in that column (`caret_of_error`).
-/

set_option autoImplicit false

namespace HackToolchain.Codegen

open Text Vm

/-- Every error about a module is told of a line of its text: its place is where the line starts,
and it shows the line, or the words of it. -/
theorem exists_line_of_translateModule {s t : Session} {name source : String} {e : Located Vm.Cause}
    (ho : s.emitter.closed = false)
    (h : s.translateModule (.ofString source) name = (.error (.command (.rejected e)), t)) :
    ∃ (m : String) (k : Nat) (line : List Char), moduleOfName? name = some m ∧
      (Text.lines source.toList)[k]? = some line ∧ content line ≠ [] ∧
      e.location = some { file := m ++ ".vm", line := k + 1, column := firstColumn line } ∧
      e.sourceLine = some (shownLine (String.ofList line) e.cause) := by
  cases hname : moduleOfName? name with
  | none =>
    have henter : s.enterModule name = (.error (.moduleName name), s) := by
      unfold Session.enterModule Emitter.enterModule
      rw [hname]
    rw [Session.translateModule_eq_andThen, henter] at h
    cases h
  | some m =>
    rcases Emitter.takeAll_cases (s.entered m).emitter (Session.sourceLines source) with
      ⟨e', htake⟩ | ⟨before, line, after, e', f, hsource, htake, hfail⟩
    · obtain ⟨t', ht, -⟩ := Session.translateModule_of_takeAll ho hname htake none
      rw [h] at ht
      cases ht
    · obtain ⟨g, t', -, htold, hmodule⟩ :=
        Session.translateModule_of_take_error ho hname htake hfail none
      rw [hmodule source after hsource] at h
      obtain rfl := Fault.command.inj (Except.error.inj (Prod.mk.inj h).1)
      have hline : (Session.sourceLines source)[before.length]? = some line := by
        rw [hsource, List.getElem?_append_right (Nat.le_refl _), Nat.sub_self]
        rfl
      rw [Session.sourceLines, List.getElem?_map, Option.map_eq_some_iff] at hline
      obtain ⟨chars, hchars, rfl⟩ := hline
      have hcontent := Emitter.content_ne_nil_of_take_error hfail
      cases htold with
      | rejected hcause hplace hshown =>
        rw [← hcause] at hshown
        rw [locationOfLine] at hplace
        rw [String.toList_ofList] at hcontent hplace
        exact ⟨m, before.length, chars, rfl, hchars, hcontent, hplace, hshown⟩

/-- Every error about a text that is translated as a program is one about its module. -/
theorem exists_translateModule_of_translateSource {options : Options} {source moduleName : String}
    {bootstrap : Option Bool} {journal : Journal} {e : Located Vm.Cause}
    (h : (translateSource options source moduleName bootstrap journal).1 =
      .error (.command (.rejected e))) :
    ∃ s t : Session, s.emitter.closed = false ∧
      s.translateModule (.ofString source) moduleName = (.error (.command (.rejected e)), t) := by
  obtain ⟨s, hwrite, ho, -⟩ | ⟨-, -, f, s, hwrite⟩ :=
    writeBoot_cases options (bootstrap.getD (options.bootstrap.getD false)) journal
  · obtain ⟨s', ho', -, htranslate⟩ :=
      exists_translateSource_eq_of_writeBoot rfl hwrite ho moduleName
    rw [htranslate] at h
    cases hmodule : s'.translateModule (.ofString source) moduleName with
    | mk outcome t =>
      rw [hmodule] at h
      cases outcome with
      | error f =>
        obtain rfl := Except.error.inj h
        exact ⟨s', t, ho', hmodule⟩
      | ok n => cases h
  · rw [translateSource, translateProgram_eq_result, hwrite] at h
    cases h

/-- Where the errors of the translator and of the assembler point. An error about a text that is
translated or assembled knows a line of it, and its place is where the line starts. The reader
and the assembler show the line, with the caret below its first character that is no blank. The
emitter shows the words of the line, which begin with that character, with the caret below the
character that the words have in the column in which the line starts. So the caret is where it
should be exactly if the words could not be read or have their first character in that column. -/
theorem caret_of_error (options : Options) (source moduleName : String) (bootstrap : Option Bool)
    (journal : Journal) (file : String) (base : Int) :
    (∀ e : Located Vm.Cause,
      (translateSource options source moduleName bootstrap journal).1 =
        .error (.command (.rejected e)) →
      ∃ (m : String) (k : Nat) (line : List Char) (column : Int) (text : String),
        moduleOfName? moduleName = some m ∧ (Text.lines source.toList)[k]? = some line ∧
        StartsAt line column ∧ e.location = some { file := m ++ ".vm", line := k + 1, column } ∧
        text = " ".intercalate (wordsOf line) ∧ text.toList.head? = firstVisible? line ∧
        let above := (e.report Vm.Cause.message Vm.Cause.hint).aboveCaret?
        (e.cause.kind = .malformedInstruction →
          e.sourceLine = some (String.ofList (chomp line)) ∧ above = firstVisible? line) ∧
        (e.cause.kind ≠ .malformedInstruction →
          e.sourceLine = some text ∧ above = text.toList[(column - 1).toNat]?) ∧
        (above = firstVisible? line ↔ e.cause.kind = .malformedInstruction ∨
          text.toList[(column - 1).toNat]? = text.toList.head?)) ∧
    ∀ e : Located Asm.Cause, Asm.assemble source file base = .error (.rejected e) →
      ∃ (k : Nat) (row : List Char) (column : Int), (rows source.toList)[k]? = some row ∧
        StartsAt row column ∧ e.location = some { file, line := k + 1, column } ∧
        e.sourceLine = some (String.ofList row) ∧
        (e.report Asm.Cause.message Asm.Cause.hint).aboveCaret? = firstVisible? row := by
  refine ⟨?_, ?_⟩
  · intro e h
    obtain ⟨s, t, ho, hmodule⟩ := exists_translateModule_of_translateSource h
    obtain ⟨m, k, line, hname, hline, hcontent, hplace, hshown⟩ :=
      exists_line_of_translateModule ho hmodule
    have hstarts := startsAt_of_content hcontent
    have hwords : commandText (String.ofList line) = " ".intercalate (wordsOf line) := by
      rw [commandText, commandWords_eq]
    have hhead : (commandText (String.ofList line)).toList.head? = firstVisible? line := by
      rw [commandText, commandWords, String.toList_ofList, head?_intercalate_words hcontent]
    refine ⟨m, k, line, firstColumn line, _, hname, hline, hstarts, hplace, hwords, hhead, ?_⟩
    intro above
    by_cases hkind : e.cause.kind = .malformedInstruction
    · rw [shownLine, if_pos hkind, String.toList_ofList] at hshown
      have habove : above = firstVisible? (chomp line) :=
        Report.aboveCaret?_of_startsAt _ hplace hshown hstarts.chomp
      rw [hstarts.firstVisible?_chomp] at habove
      exact ⟨fun _ => ⟨hshown, habove⟩, fun h => absurd hkind h,
        iff_of_true habove (.inl hkind)⟩
    · rw [shownLine, if_neg hkind] at hshown
      have hcaret := Report.aboveCaret?_eq (e.report Vm.Cause.message Vm.Cause.hint) hplace hshown
      have habove : above = _ := hcaret hstarts.pos
      refine ⟨fun h => absurd h hkind, fun _ => ⟨hshown, habove⟩, ?_⟩
      rw [habove, ← hhead, or_iff_right hkind]
  · intro e h
    obtain ⟨k, row, column, hrow, hstarts, hplace, hline⟩ := Asm.exists_row_of_assemble h
    exact ⟨k, row, column, hrow, hstarts, hplace, hline,
      Report.aboveCaret?_of_startsAt _ hplace hline hstarts⟩

/-- A text whose second line is indented and has an index that is out of range. -/
def indentedSource : String := "add\n  push pointer 2\n"

/-- The error about that line, as the emitter tells it. -/
def indentedError : Located Vm.Cause where
  cause := .indexOutOfRange "pointer" 2 1
  location := some { file := "Main.vm", line := 2, column := 3 }
  sourceLine := some "push pointer 2"

/-- The error about an indented row with the sign that loads twice. -/
def doubledError : Located Asm.Cause where
  cause := .invalidSymbol "@1"
  location := some { file := "<input>", line := 2, column := 3 }
  sourceLine := some "  @@1 // no"

theorem caret_of_error_indentedSource :
    ((translateSource {} indentedSource).1 = .error (.command (.rejected indentedError)) ∧
      (indentedError.report Vm.Cause.message Vm.Cause.hint).aboveCaret? = some 's' ∧
      firstVisible? "  push pointer 2\n".toList = some 'p') ∧
    Asm.assemble "D=A\n  @@1 // no\n" = .error (.rejected doubledError) ∧
      (doubledError.report Asm.Cause.message Asm.Cause.hint).aboveCaret? = some '@' := by
  have herror :
      (translateSource {} indentedSource).1 = .error (.command (.rejected indentedError)) := by
    decide +kernel
  have hdoubled : Asm.assemble "D=A\n  @@1 // no\n" = .error (.rejected doubledError) := rfl
  refine ⟨⟨herror, ?_, by decide⟩, hdoubled, ?_⟩
  · obtain ⟨m, k, line, column, text, -, -, -, hplace, -, -, -, hwords, -⟩ :=
      (caret_of_error {} indentedSource "Main" none #[] "<input>" 16).1 indentedError herror
    obtain ⟨hshown, habove⟩ := hwords (by decide)
    obtain rfl := Option.some.inj hshown
    obtain ⟨-, -, rfl⟩ := Location.mk.inj (Option.some.inj hplace)
    rw [habove]
    decide
  · obtain ⟨k, row, column, -, hstarts, hplace, hshown, habove⟩ :=
      (caret_of_error {} "D=A\n  @@1 // no\n" "Main" none #[] "<input>" 16).2 doubledError hdoubled
    have hrow : row = "  @@1 // no".toList := by
      rw [← String.toList_ofList (l := row), ← Option.some.inj hshown]
    rw [habove, hrow]
    decide

end HackToolchain.Codegen
