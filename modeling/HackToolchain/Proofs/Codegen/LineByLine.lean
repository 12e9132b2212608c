import HackToolchain.Proofs.Codegen.Atomicity
import HackToolchain.Proofs.Codegen.Emission
import HackToolchain.Proofs.Text.Contents
import HackToolchain.Proofs.Vm.Language

/-!
# Line by line

What becomes of an open emitter that translates lines, without the journal and the places of the
lines (`Emitter.take`, `Emitter.takeAll`). A session goes through lines that its emitter takes,
whatever stands behind them (`Session.writeLines_append`), and stops at the first line that is not
taken, whose place it tells (`Session.writeLine_of_take_error`).
-/

set_option autoImplicit false

namespace HackToolchain.Codegen

open Text Vm

/-! ## Instructions -/

/-- A comment in front of a draft does not keep it from being written. -/
theorem all_fits_annotate (s : Scope) (text : String) (d : Draft) :
    (s.annotate text d).code.all Line.fits = d.code.all Line.fits := by
  unfold Scope.annotate
  cases s.comments
  · rfl
  · exact Bool.true_and _

/-- An instruction that was read is written behind its text, or it is refused and leaves the emitter
as it is. -/
theorem Emitter.write_instruction {e : Emitter} (ho : e.closed = false) {i : Instruction}
    (ht : i.text ≠ "") : e.write (.instruction i) =
      match e.scope.draftCommand e.counters i.command with
      | .error f => (.error (.command (f.locate i.location (some i.text))), e)
      | .ok d =>
        if d.code.all Line.fits then
          (.ok (), { e with
            counters := d.counters, lines := e.lines ++ (e.scope.annotate i.text d).code })
        else (.error (.command (.number .tooLongToWrite)), e) := by
  have hrender : i.render = .ok i.text := by rw [Instruction.render, if_neg ht]
  have hdraft : e.scope.draft e.counters (.instruction i) =
      match e.scope.draftCommand e.counters i.command with
      | .error f => .error (f.locate i.location (some i.text))
      | .ok d => .ok (e.scope.annotate i.text d) := by
    simp only [Scope.draft, Scope.draftInstruction, hrender, if_neg ht]
    cases hon : e.scope.comments <;> cases e.scope.draftCommand e.counters i.command <;>
      simp [Scope.annotate, hon, Except.map, Except.mapError]
  rw [Emitter.write, hdraft]
  cases e.scope.draftCommand e.counters i.command with
  | error f => rfl
  | ok d =>
    simp only [all_fits_annotate, counters_annotate, Emitter.commit, ho, Bool.false_eq_true,
      if_false]

/-! ## Lines -/

/-- The words on a line in front of the first comment. -/
def wordsOf (line : List Char) : List String := (words (uncomment line)).map String.ofList

theorem commandWords_eq (line : List Char) : commandWords (String.ofList line) = wordsOf line := by
  rw [commandWords, String.toList_ofList, words_content, wordsOf]

/-- The text of the command on a line. -/
def commandText (line : String) : String := " ".intercalate (commandWords line)

namespace Emitter

/-- Takes a line: nothing is written for a line without a command, and otherwise the code of the
command, behind its text if comments are on. -/
def take (e : Emitter) (line : String) : Except Vm.Fault Emitter :=
  match readWords (commandWords line) with
  | .error f => .error f
  | .ok none => .ok e
  | .ok (some c) =>
    match e.scope.draftCommand e.counters c with
    | .error f => .error f
    | .ok d =>
      if d.code.all Line.fits then
        .ok { e with
          counters := d.counters, lines := e.lines ++ (e.scope.annotate (commandText line) d).code }
      else .error (.number .tooLongToWrite)

/-- Takes lines one after the other, up to the first that is not taken. -/
def takeAll (e : Emitter) : List String → Except Vm.Fault Emitter
  | [] => .ok e
  | line :: lines =>
    match e.take line with
    | .error f => .error f
    | .ok e => e.takeAll lines

variable {e e' : Emitter} {line : String} {lines more : List String}

theorem takeAll_cons_eq_ok : e.takeAll (line :: lines) = .ok e' ↔
    ∃ f, e.take line = .ok f ∧ f.takeAll lines = .ok e' := by
  rw [takeAll]
  cases e.take line with
  | error f => simp
  | ok f => simp

theorem takeAll_append_eq_ok : e.takeAll (lines ++ more) = .ok e' ↔
    ∃ f, e.takeAll lines = .ok f ∧ f.takeAll more = .ok e' := by
  induction lines generalizing e with
  | nil => simp [takeAll]
  | cons line lines ih =>
    rw [List.cons_append, takeAll_cons_eq_ok]
    constructor
    · rintro ⟨f, hf, h⟩
      obtain ⟨g, hg, h⟩ := ih.1 h
      exact ⟨g, takeAll_cons_eq_ok.2 ⟨f, hf, hg⟩, h⟩
    · rintro ⟨g, hg, h⟩
      obtain ⟨f, hf, hg⟩ := takeAll_cons_eq_ok.1 hg
      exact ⟨f, hf, ih.2 ⟨g, hg, h⟩⟩

/-- Lines are all taken, or some of them are and the next one is not. -/
theorem takeAll_cases (e : Emitter) (lines : List String) :
    (∃ e', e.takeAll lines = .ok e') ∨
      ∃ before line after e' f, lines = before ++ line :: after ∧ e.takeAll before = .ok e' ∧
        e'.take line = .error f := by
  induction lines generalizing e with
  | nil => exact .inl ⟨e, rfl⟩
  | cons line lines ih =>
    cases ht : e.take line with
    | error f => exact .inr ⟨[], line, lines, e, f, rfl, rfl, ht⟩
    | ok f =>
      rcases ih f with ⟨e', h⟩ | ⟨before, next, after, e', g, rfl, h, hg⟩
      · exact .inl ⟨e', takeAll_cons_eq_ok.2 ⟨f, ht, h⟩⟩
      · exact .inr ⟨line :: before, next, after, e', g, rfl, takeAll_cons_eq_ok.2 ⟨f, ht, h⟩, hg⟩

/-- What a line that is taken changes. -/
theorem of_take_eq_ok (h : e.take line = .ok e') :
    (readWords (commandWords line) = .ok none ∧ e' = e) ∨
      ∃ c d, readWords (commandWords line) = .ok (some c) ∧
        Task.draft ⟨e.module, .command c⟩ e.counters = .ok d ∧
        e' = { e with
          counters := d.counters,
          lines := e.lines ++ (e.scope.annotate (commandText line) d).code } := by
  unfold take at h
  split at h
  · cases h
  · next hread => exact .inl ⟨hread, (Except.ok.inj h).symm⟩
  · next c hread =>
    split at h
    · cases h
    · next d hd =>
      rw [Scope.draftCommand_eq] at hd
      split at h
      · exact .inr ⟨c, d, hread, hd, (Except.ok.inj h).symm⟩
      · cases h

/-- A line without a command is taken. -/
theorem content_ne_nil_of_take_error {f : Vm.Fault} (h : e.take line = .error f) :
    content line.toList ≠ [] := by
  intro hnil
  have hwords : commandWords line = [] := by
    rw [commandWords, hnil]
    rfl
  rw [take, hwords] at h
  cases h

theorem scope_of_take (h : e.take line = .ok e') : e'.scope = e.scope ∧ e'.closed = e.closed := by
  rcases of_take_eq_ok h with ⟨-, rfl⟩ | ⟨c, d, -, -, rfl⟩
  · exact ⟨rfl, rfl⟩
  · exact ⟨rfl, rfl⟩

theorem scope_of_takeAll (h : e.takeAll lines = .ok e') :
    e'.scope = e.scope ∧ e'.closed = e.closed := by
  induction lines generalizing e with
  | nil =>
    obtain rfl := Except.ok.inj h
    exact ⟨rfl, rfl⟩
  | cons line lines ih =>
    obtain ⟨f, hf, h⟩ := takeAll_cons_eq_ok.1 h
    obtain ⟨hscope, hclosed⟩ := scope_of_take hf
    exact ⟨(ih h).1.trans hscope, (ih h).2.trans hclosed⟩

end Emitter

/-! ## Sessions -/

/-- What is shown of a line with an error: the line itself if it cannot be read, and its words if
there is no code for them. -/
def shownLine (line : String) (c : Cause) : String :=
  if c.kind = .malformedInstruction then String.ofList (chomp line.toList) else commandText line

/-- A fault is another one with its place told and a line shown. -/
inductive ToldAt (l : Location) (line : String) : Vm.Fault → Vm.Fault → Prop where
  | rejected {e e' : Located Cause} (hcause : e'.cause = e.cause) (hplace : e'.location = some l)
      (hshown : e'.sourceLine = some (shownLine line e.cause)) :
      ToldAt l line (.rejected e) (.rejected e')
  | number (f : Decimal.Fault) : ToldAt l line (.number f) (.number f)

theorem cause_of_mapError {α : Type} {x : Except Cause α} {e : Located Cause}
    (h : x.mapError Cause.fault = .error (.rejected e)) :
    ∃ c, x = .error c ∧ e = { cause := c } := by
  cases x with
  | error c => exact ⟨c, rfl, (Fault.rejected.inj (Except.error.inj h)).symm⟩
  | ok a => cases h

theorem kind_of_staticSymbol {α : Type} {module : Option String} {index : Int} {f : Symbol → α}
    {c : Cause} (h : (staticSymbol module index).map f = .error c) :
    c.kind ≠ .malformedInstruction := by
  cases module with
  | some m => cases h
  | none =>
    obtain rfl := Except.error.inj h
    simp [Cause.kind]

theorem kind_of_pushCode {module : Option String} {segment : Segment} {index : Int} {c : Cause}
    (h : pushCode module segment index = .error c) : c.kind ≠ .malformedInstruction := by
  unfold pushCode at h
  split at h
  · cases h
  · exact kind_of_staticSymbol h
  · cases h
  · cases h

theorem kind_of_popCode {module : Option String} {segment : Segment} {index : Int} {c : Cause}
    (h : popCode module segment index = .error c) : c.kind ≠ .malformedInstruction := by
  unfold popCode at h
  split at h
  · obtain rfl := Except.error.inj h
    simp [Cause.kind]
  · exact kind_of_staticSymbol h
  · cases h
  · cases h

/-- A piece of code that cannot be made is refused for a cause that the reader does not know, and
whose place is not known yet. -/
theorem cause_of_moveCode {module : Option String} {kind : CommandKind} {segment : String}
    {index : Int} {e : Located Cause}
    (h : moveCode module kind segment index = .error (.rejected e)) :
    ∃ c : Cause, e = { cause := c } ∧ c.kind ≠ .malformedInstruction := by
  unfold moveCode at h
  cases hs : readSegment segment with
  | error c =>
    rw [hs] at h
    refine ⟨c, (Fault.rejected.inj (Except.error.inj h)).symm, ?_⟩
    unfold readSegment at hs
    split at hs
    · cases hs
    · obtain rfl := Except.error.inj hs
      simp [Cause.kind]
  | ok s =>
    simp only [hs] at h
    by_cases hrange : 0 ≤ index ∧ index ≤ s.limit
    · rw [if_pos hrange] at h
      obtain ⟨c, hc, rfl⟩ := cause_of_mapError h
      refine ⟨c, rfl, ?_⟩
      split at hc
      · exact kind_of_pushCode hc
      · exact kind_of_popCode hc
      · obtain rfl := Except.error.inj hc
        simp [Cause.kind]
    · rw [if_neg hrange] at h
      split at h
      · exact ⟨_, (Fault.rejected.inj (Except.error.inj h)).symm, by simp [Cause.kind]⟩
      · cases h

theorem cause_of_draftCommand {s : Scope} {k : Counters} {c : Command} {e : Located Cause}
    (h : s.draftCommand k c = .error (.rejected e)) :
    ∃ cause : Cause, e = { cause } ∧ cause.kind ≠ .malformedInstruction := by
  have hmove {kind : CommandKind} {segment : String} {index : Int}
      (h : (moveCode s.module kind segment index).map (Scope.plain k) = .error (.rejected e)) :
      ∃ cause : Cause, e = { cause } ∧ cause.kind ≠ .malformedInstruction := by
    cases hm : moveCode s.module kind segment index with
    | ok code =>
      rw [hm] at h
      cases h
    | error f =>
      rw [hm] at h
      obtain rfl := Except.error.inj h
      exact cause_of_moveCode hm
  cases c with
  | push segment index => exact hmove h
  | pop segment index => exact hmove h
  | arithmetic name =>
    simp only [Scope.draftCommand, Scope.draftOperator] at h
    split at h
    · exact ⟨_, (Fault.rejected.inj (Except.error.inj h)).symm, by simp [Cause.kind]⟩
    · cases h
  | label name | goto name | ifGoto name | function name n | call name n | «return» => cases h

/-- The fault of a draft is told with the place of the instruction, and the words of it are
shown. -/
theorem toldAt_locate {s : Scope} {k : Counters} {c : Command} {f : Vm.Fault}
    (h : s.draftCommand k c = .error f) (l : Location) (line : String) :
    ToldAt l line f (f.locate (some l) (some (commandText line))) := by
  cases f with
  | number f => exact .number f
  | rejected e =>
    obtain ⟨cause, rfl, hkind⟩ := cause_of_draftCommand h
    refine .rejected rfl rfl ?_
    rw [shownLine, if_neg hkind]
    rfl

/-- A line is read as its words are, and what it says is told with its place. -/
theorem readLine_of_readWords {line : String} {c : Command}
    (h : readWords (commandWords line) = .ok (some c)) (file : String) (number : Nat) :
    readLine file number line = .ok (some
      { command := c, location := some (locationOfLine file number line),
        text := commandText line }) := by
  simp only [readLine, parseLine, h, commandText]

theorem readLine_of_readWords_eq_error {line : String} {f : Vm.Fault}
    (h : readWords (commandWords line) = .error f) (file : String) (number : Nat) :
    ∃ g, readLine file number line = .error g ∧
      ToldAt (locationOfLine file number line) line f g := by
  cases f with
  | number f => exact ⟨_, by simp only [readLine, parseLine, h], .number f⟩
  | rejected e =>
    let told : Located Cause :=
      { e with
        location := some (locationOfLine file number line)
        sourceLine := some (String.ofList (chomp line.toList)) }
    refine ⟨.rejected told, ?_, .rejected rfl rfl ?_⟩
    · simp only [readLine, parseLine, h]
      rfl
    · rw [shownLine, if_pos (kind_of_readWords h)]

namespace Session

/-- The command on a line is noted down, and then it is up to the emitter. -/
theorem writeLine_of_readLine {s : Session} {file line : String} {number : Nat} {i : Instruction}
    (h : readLine file number line = .ok (some i)) : s.writeLine file number line =
      ((s.emitter.write (.instruction i)).1.map fun _ => true,
        { emitter := (s.emitter.write (.instruction i)).2,
          journal := s.journal.push (.commandRead i) }) := by
  simp only [writeLine, h, Session.write, note]
  rcases s.emitter.write (.instruction i) with ⟨_ | _, e⟩
  · rfl
  · rfl

variable {s : Session} {e : Emitter} {f : Vm.Fault} {line : String} {lines : List String}

/-- A line that is taken is translated, and counts if there is a command on it. -/
theorem writeLine_of_take (ho : s.emitter.closed = false) (h : s.emitter.take line = .ok e)
    (file : String) (number : Nat) :
    ∃ t, s.writeLine file number line = (.ok (decide (commandWords line ≠ [])), t) ∧
      t.emitter = e := by
  unfold Emitter.take at h
  cases hr : readWords (commandWords line) with
  | error f => simp [hr] at h
  | ok found =>
    rw [hr] at h
    cases found with
    | none =>
      obtain rfl := Except.ok.inj h
      have hread : readLine file number line = .ok none := by simp only [readLine, parseLine, hr]
      exact ⟨s, by simp [writeLine, hread, readWords_eq_none.1 hr], rfl⟩
    | some c =>
      have hread := readLine_of_readWords hr file number
      have htext := ((of_readLine hread).2 _ rfl).1
      simp only at h
      rw [writeLine_of_readLine hread, Emitter.write_instruction ho htext]
      split at h
      · cases h
      · next d hd =>
        split at h
        · next hfits =>
          obtain rfl := Except.ok.inj h
          have hfound : decide (commandWords line ≠ []) = true := by simp [(of_readWords hr).2.2]
          simp only [hd, if_pos hfits, hfound]
          exact ⟨_, rfl, rfl⟩
        · cases h

/-- A line that is not taken leaves the emitter as it is, and its fault is told with its place. -/
theorem writeLine_of_take_error (ho : s.emitter.closed = false)
    (h : s.emitter.take line = .error f) (file : String) (number : Nat) :
    ∃ g t, s.writeLine file number line = (.error (.command g), t) ∧ t.emitter = s.emitter ∧
      ToldAt (locationOfLine file number line) line f g := by
  unfold Emitter.take at h
  cases hr : readWords (commandWords line) with
  | error g =>
    rw [hr] at h
    obtain rfl := Except.error.inj h
    obtain ⟨g', hread, htold⟩ := readLine_of_readWords_eq_error hr file number
    exact ⟨g', s, by simp only [writeLine, hread], rfl, htold⟩
  | ok found =>
    rw [hr] at h
    cases found with
    | none => cases h
    | some c =>
      have hread := readLine_of_readWords hr file number
      have htext := ((of_readLine hread).2 _ rfl).1
      simp only at h
      rw [writeLine_of_readLine hread, Emitter.write_instruction ho htext]
      split at h
      · next g hg =>
        obtain rfl := Except.error.inj h
        simp only [hg]
        exact ⟨_, _, rfl, rfl, toldAt_locate hg _ line⟩
      · next d hd =>
        split at h
        · cases h
        · next hfits =>
          obtain rfl := Except.error.inj h
          simp only [hd, if_neg hfits]
          exact ⟨_, _, rfl, rfl, .number _⟩

/-- The number of lines with a command. -/
def commandCount (lines : List String) : Nat :=
  (lines.filter fun line => commandWords line ≠ []).length

/-- Lines that are taken are translated one after the other, whatever stands behind them. -/
theorem writeLines_append (ho : s.emitter.closed = false) (h : s.emitter.takeAll lines = .ok e)
    (file : String) (number count : Nat) :
    ∃ t : Session, t.emitter = e ∧ ∀ after, s.writeLines file number count (lines ++ after) =
      t.writeLines file (number + lines.length) (count + commandCount lines) after := by
  induction lines generalizing s number count with
  | nil =>
    obtain rfl := Except.ok.inj h
    exact ⟨s, rfl, fun after => rfl⟩
  | cons line lines ih =>
    obtain ⟨e₁, htake, h⟩ := Emitter.takeAll_cons_eq_ok.1 h
    obtain ⟨t₁, hline, rfl⟩ := writeLine_of_take ho htake file (number + 1)
    have ho₁ := (Emitter.scope_of_take htake).2.trans ho
    obtain ⟨t, ht, hrest⟩ := ih ho₁ h (number + 1)
      (if commandWords line ≠ [] then count + 1 else count)
    refine ⟨t, ht, fun after => ?_⟩
    rw [List.cons_append, writeLines_cons, hline, andThen]
    simp only [decide_eq_true_eq]
    rw [hrest, List.length_cons]
    by_cases hw : commandWords line = []
    · simp [hw, commandCount, Nat.add_assoc, Nat.add_comm 1]
    · simp [hw, commandCount, Nat.add_assoc, Nat.add_comm 1]

/-! ## Modules -/

/-- The name of a source in locations: without a name of its own it is named after its module. -/
def fileOf (m : String) : Option String → String
  | none | some "" => m ++ ".vm"
  | some name => name

/-- The session in a module. -/
def entered (s : Session) (m : String) : Session where
  emitter := { s.emitter with scope := { s.emitter.scope with module := some m } }
  journal := s.journal.push (.moduleEntered m)

/-- The lines of a text. -/
def sourceLines (source : String) : List String := (Text.lines source.toList).map String.ofList

/-- A text is translated line by line in its module. -/
theorem translateModule_eq_writeLines {name m : String} (h : moduleOfName? name = some m)
    (s : Session) (source : String) (file : Option String) :
    s.translateModule (.ofString source) name file =
      andThen ((s.entered m).writeLines (fileOf m file) 0 0 (sourceLines source)) fun count t =>
        (.ok count, t.note (.moduleTranslated m count)) := by
  have henter : s.enterModule name = (.ok (), s.entered m) := by
    unfold Session.enterModule Emitter.enterModule
    rw [h]
    rfl
  rw [translateModule_eq_andThen, henter, andThen]
  rfl

variable {name m : String} {file : Option String} {source : String}

/-- A text all of whose lines are taken is translated. -/
theorem translateModule_of_takeAll (ho : s.emitter.closed = false)
    (hname : moduleOfName? name = some m)
    (h : (s.entered m).emitter.takeAll (sourceLines source) = .ok e) (file : Option String) :
    ∃ t, s.translateModule (.ofString source) name file =
      (.ok (commandCount (sourceLines source)), t) ∧ t.emitter = e := by
  obtain ⟨t, ht, hwrite⟩ := writeLines_append (s := s.entered m) ho h (fileOf m file) 0 0
  have hlines := hwrite []
  rw [List.append_nil, writeLines, Nat.zero_add] at hlines
  rw [translateModule_eq_writeLines hname, hlines]
  exact ⟨_, rfl, ht⟩

/-- The first line that is not taken ends the translation of a text. The lines behind it have no
part in that. -/
theorem translateModule_of_take_error {before : List String} (ho : s.emitter.closed = false)
    (hname : moduleOfName? name = some m) (hbefore : (s.entered m).emitter.takeAll before = .ok e)
    (hline : e.take line = .error f) (file : Option String) :
    ∃ g t, t.emitter = e ∧
      ToldAt (locationOfLine (fileOf m file) (before.length + 1) line) line f g ∧
      ∀ source after, sourceLines source = before ++ line :: after →
        s.translateModule (.ofString source) name file = (.error (.command g), t) := by
  obtain ⟨t, rfl, hwrite⟩ := writeLines_append (s := s.entered m) ho hbefore (fileOf m file) 0 0
  have hopen := (Emitter.scope_of_takeAll hbefore).2.trans ho
  obtain ⟨g, u, hfail, hu, htold⟩ :=
    writeLine_of_take_error hopen hline (fileOf m file) (before.length + 1)
  refine ⟨g, u, hu, htold, fun source after hsource => ?_⟩
  rw [translateModule_eq_writeLines hname, hsource, hwrite, writeLines_cons, Nat.zero_add, hfail]
  rfl

end Session

end HackToolchain.Codegen
