import HackToolchain.Proofs.Codegen.Emission

/-!
# The journal decides nothing

Sessions whose emitters are the same go the same way, whatever their journals hold (`Agree`): what
comes out of a program does not depend on what was noted down before it
(`translateProgram_journal`).
-/

set_option autoImplicit false

namespace HackToolchain.Codegen

open Text

/-- Two translations have the same outcome and leave the same emitter. -/
def Agree {α : Type} (x y : Except Fault α × Session) : Prop :=
  x.1 = y.1 ∧ x.2.emitter = y.2.emitter

/-- Translations that agree still agree when both go on, in ways that agree. -/
theorem Agree.andThen {α β : Type} {x y : Except Fault α × Session}
    {f g : α → Session → Except Fault β × Session} (h : Agree x y)
    (hf : ∀ a s t, s.emitter = t.emitter → Agree (f a s) (g a t)) :
    Agree (Session.andThen x f) (Session.andThen y g) := by
  obtain ⟨outcome, s⟩ := x
  obtain ⟨outcome', t⟩ := y
  obtain ⟨rfl, hemitter⟩ : outcome = outcome' ∧ s.emitter = t.emitter := h
  cases outcome with
  | error e => exact ⟨rfl, hemitter⟩
  | ok a => exact hf a s t hemitter

namespace Session

variable {s t : Session}

theorem agree_write (h : s.emitter = t.emitter) (r : Request) : Agree (s.write r) (t.write r) := by
  unfold Session.write
  rw [h]
  exact ⟨rfl, rfl⟩

theorem agree_enterModule (h : s.emitter = t.emitter) (name : String) :
    Agree (s.enterModule name) (t.enterModule name) := by
  unfold enterModule
  rw [h]
  rcases t.emitter.enterModule name with ⟨_ | _, e⟩
  · exact ⟨rfl, rfl⟩
  · exact ⟨rfl, rfl⟩

theorem agree_writeLine (h : s.emitter = t.emitter) (file : String) (number : Nat) (line : String) :
    Agree (s.writeLine file number line) (t.writeLine file number line) := by
  cases hread : Vm.readLine file number line with
  | error f =>
    unfold writeLine
    rw [hread]
    exact ⟨rfl, h⟩
  | ok found =>
    cases found with
    | none =>
      unfold writeLine
      rw [hread]
      exact ⟨rfl, h⟩
    | some i =>
      have hnote : (s.note (.commandRead i)).emitter = (t.note (.commandRead i)).emitter := h
      rw [writeLine_eq_andThen hread, writeLine_eq_andThen hread]
      apply (agree_write hnote (.instruction i)).andThen
      intro _ s t h
      exact ⟨rfl, h⟩

theorem agree_writeLines (h : s.emitter = t.emitter) (file : String) (number count : Nat)
    (lines : List String) :
    Agree (s.writeLines file number count lines) (t.writeLines file number count lines) := by
  induction lines generalizing number count s t with
  | nil => exact ⟨rfl, h⟩
  | cons line lines ih =>
    rw [writeLines_cons, writeLines_cons]
    apply (agree_writeLine h file (number + 1) line).andThen
    intro found s t h
    exact ih h _ _

theorem agree_translateModule (h : s.emitter = t.emitter) (source : Utf8.Stream) (name : String)
    (file : Option String) :
    Agree (s.translateModule source name file) (t.translateModule source name file) := by
  rw [translateModule_eq_andThen, translateModule_eq_andThen]
  apply (agree_enterModule h name).andThen
  intro _ s t h
  rw [h]
  apply (agree_writeLines h _ 0 0 source.lines).andThen
  intro count s t h
  cases source.fault with
  | some f => exact ⟨rfl, h⟩
  | none => exact ⟨rfl, h⟩

theorem agree_headline (h : s.emitter = t.emitter) (moduleName : String) :
    Agree (s.headline moduleName) (t.headline moduleName) := by
  unfold headline
  rw [h]
  split
  · exact agree_write h _
  · exact ⟨rfl, h⟩

theorem agree_translateUnit (h : s.emitter = t.emitter) (u : SourceUnit) :
    Agree (s.translateUnit u) (t.translateUnit u) := by
  have hopened : (s.opened u).emitter = (t.opened u).emitter := by
    rw [emitter_opened, emitter_opened, h]
  rw [translateUnit_eq_andThen, translateUnit_eq_andThen]
  apply (agree_headline hopened u.moduleName).andThen
  intro _ s t h
  exact agree_translateModule h u.source u.moduleName _

theorem agree_translateUnits (h : s.emitter = t.emitter) (modules : List String) (count : Nat)
    (units : List SourceUnit) :
    Agree (s.translateUnits modules count units) (t.translateUnits modules count units) := by
  induction units generalizing modules count s t with
  | nil => exact ⟨rfl, h⟩
  | cons u units ih =>
    rw [translateUnits_cons, translateUnits_cons]
    apply (agree_translateUnit h u).andThen
    intro n s t h
    rw [h]
    exact ih h _ _

theorem agree_writeBoot (h : s.emitter = t.emitter) (boot : Option (String × Int)) :
    Agree (s.writeBoot boot) (t.writeBoot boot) := by
  cases boot with
  | none => exact ⟨rfl, h⟩
  | some b => exact agree_write h (.bootstrap b.1 b.2)

/-- The result depends on the outcome and the emitter alone. -/
theorem result_eq_of_agree {x y : Except Fault (List String × Nat) × Session} (h : Agree x y)
    (bootstrap : Bool) : (result bootstrap x).1 = (result bootstrap y).1 := by
  obtain ⟨outcome, s⟩ := x
  obtain ⟨outcome', t⟩ := y
  obtain ⟨rfl, hemitter⟩ : outcome = outcome' ∧ s.emitter = t.emitter := h
  rcases outcome with f | ⟨modules, count⟩
  · rfl
  · simp only [result, hemitter]

end Session

/-- What comes out of a program does not depend on what the journal holds already. -/
theorem translateProgram_journal (options : Options) (bootstrap : Bool) (units : List SourceUnit)
    (journal journal' : Journal) :
    (translateProgram options bootstrap units journal).1 =
      (translateProgram options bootstrap units journal').1 := by
  have hstart : (Session.initial options.comments journal).emitter =
      (Session.initial options.comments journal').emitter := rfl
  rw [translateProgram_eq_result, translateProgram_eq_result]
  apply Session.result_eq_of_agree
  apply (Session.agree_writeBoot hstart (options.boot? bootstrap)).andThen
  intro _ s t h
  exact Session.agree_translateUnits h [] 0 units

end HackToolchain.Codegen
