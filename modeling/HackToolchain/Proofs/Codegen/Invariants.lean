import HackToolchain.Proofs.Codegen.Atomicity
import HackToolchain.Proofs.Codegen.Emission

/-!
# Invariants of emitters

Whatever is translated, and whether or not it is translated to the end, its emitter goes from
operation to operation (`Session.reaches_translateUnits`). So what every operation keeps is kept by
programs. All numbers in what an emitter wrote, for one, could be written (`Emitter.AllFit`).
-/

set_option autoImplicit false

namespace HackToolchain.Codegen

open Text Vm

/-! ## Operations -/

namespace Emitter

/-- Operations lead from an emitter to another one. -/
def Reaches (e e' : Emitter) : Prop := ∃ ops, e.performAll ops = e'

variable {e e' f : Emitter}

theorem Reaches.refl (e : Emitter) : e.Reaches e := ⟨[], rfl⟩

theorem Reaches.trans (h : e.Reaches e') (h' : e'.Reaches f) : e.Reaches f := by
  obtain ⟨ops, rfl⟩ := h
  obtain ⟨ops', rfl⟩ := h'
  exact ⟨ops ++ ops', performAll_append e ops ops'⟩

theorem reaches_perform (e : Emitter) (op : Operation) : e.Reaches (e.perform op).2 := ⟨[op], rfl⟩

/-- What every operation keeps is kept by all operations that lead somewhere. -/
theorem Reaches.keeps {P : Emitter → Prop} (hP : ∀ e op, P e → P (e.perform op).2)
    (h : e.Reaches e') (he : P e) : P e' := by
  obtain ⟨ops, rfl⟩ := h
  induction ops generalizing e with
  | nil => exact he
  | cons op ops ih =>
    rw [performAll_cons]
    exact ih (hP e op he)

end Emitter

/-! ## Sessions -/

namespace Session

variable {s : Session}

/-- Operations lead to where a session stands after two parts, if they do so for each part. -/
theorem reaches_andThen {α β : Type} {r : Except Fault α × Session}
    {f : α → Session → Except Fault β × Session} (hr : s.emitter.Reaches r.2.emitter)
    (hf : ∀ a (t : Session), t.emitter.Reaches (f a t).2.emitter) :
    s.emitter.Reaches (andThen r f).2.emitter := by
  obtain ⟨_ | a, t⟩ := r
  · exact hr
  · exact hr.trans (hf a t)

theorem reaches_write (s : Session) (r : Request) : s.emitter.Reaches (s.write r).2.emitter :=
  s.emitter.reaches_perform (.write r)

theorem reaches_enterModule (s : Session) (name : String) :
    s.emitter.Reaches (s.enterModule name).2.emitter := by
  have hemitter : (s.enterModule name).2.emitter = (s.emitter.enterModule name).2 := by
    unfold enterModule
    rcases s.emitter.enterModule name with ⟨_ | _, e⟩
    · rfl
    · rfl
  rw [hemitter]
  exact s.emitter.reaches_perform (.enter name)

theorem reaches_writeLine (s : Session) (file : String) (number : Nat) (line : String) :
    s.emitter.Reaches (s.writeLine file number line).2.emitter := by
  cases hr : readLine file number line with
  | error f =>
    simp only [writeLine, hr]
    exact .refl _
  | ok found =>
    cases found with
    | none =>
      simp only [writeLine, hr]
      exact .refl _
    | some i =>
      rw [writeLine_eq_andThen hr]
      apply reaches_andThen
      · exact (s.note (.commandRead i)).reaches_write (.instruction i)
      · exact fun _ t => .refl _

theorem reaches_writeLines (s : Session) (file : String) (number count : Nat)
    (lines : List String) :
    s.emitter.Reaches (s.writeLines file number count lines).2.emitter := by
  induction lines generalizing s number count with
  | nil => exact .refl _
  | cons line lines ih =>
    rw [writeLines_cons]
    apply reaches_andThen
    · exact s.reaches_writeLine file _ line
    · exact fun _ t => ih t _ _

theorem reaches_translateModule (s : Session) (source : Utf8.Stream) (name : String)
    (file : Option String) : s.emitter.Reaches (s.translateModule source name file).2.emitter := by
  rw [translateModule_eq_andThen]
  apply reaches_andThen
  · exact s.reaches_enterModule name
  · intro _ t
    apply reaches_andThen
    · exact t.reaches_writeLines _ _ _ _
    · intro count u
      cases source.fault with
      | none => exact .refl _
      | some f => exact .refl _

theorem reaches_translateUnit (s : Session) (u : SourceUnit) :
    s.emitter.Reaches (s.translateUnit u).2.emitter := by
  rw [translateUnit_eq_andThen, ← s.emitter_opened u]
  apply reaches_andThen
  · unfold headline
    split
    · exact (s.opened u).reaches_write _
    · exact .refl _
  · exact fun _ t => t.reaches_translateModule _ _ _

/-- A program is translated by operations, as far as it is translated. -/
theorem reaches_translateUnits (s : Session) (modules : List String) (count : Nat)
    (units : List SourceUnit) :
    s.emitter.Reaches (s.translateUnits modules count units).2.emitter := by
  induction units generalizing s modules count with
  | nil => exact .refl _
  | cons u units ih =>
    rw [translateUnits_cons]
    apply reaches_andThen
    · exact s.reaches_translateUnit u
    · exact fun _ t => ih t _ _

theorem reaches_writeBoot (s : Session) (boot : Option (String × Int)) :
    s.emitter.Reaches (s.writeBoot boot).2.emitter := by
  cases boot with
  | none => exact .refl _
  | some b =>
    obtain ⟨entry, stackBase⟩ := b
    rw [writeBoot]
    exact s.reaches_write _

end Session

/-! ## Numbers -/

/-- All numbers in what was written could be written. -/
def Emitter.AllFit (e : Emitter) : Prop := ∀ l ∈ e.lines.toList, l.fits = true

theorem Emitter.AllFit.write {e : Emitter} (h : e.AllFit) (r : Request) : (e.write r).2.AllFit := by
  cases hd : e.scope.draft e.counters r with
  | error f => simpa only [Emitter.write, hd] using h
  | ok d =>
    by_cases hfits : d.code.all Line.fits = true
    · simp only [Emitter.write, hd, if_pos hfits, Emitter.commit]
      by_cases hc : e.closed = true
      · simp only [if_pos hc]
        exact fun l hl => h l hl
      · simp only [if_neg hc]
        intro l hl
        have hl : l ∈ e.lines.toList ++ d.code := by simpa using hl
        rw [List.mem_append] at hl
        rcases hl with hl | hl
        · exact h l hl
        · exact List.all_eq_true.1 hfits l hl
    · simpa only [Emitter.write, hd, if_neg hfits] using h

theorem Emitter.AllFit.perform {e : Emitter} (h : e.AllFit) (op : Operation) :
    (e.perform op).2.AllFit := by
  cases op with
  | write r => exact h.write r
  | enter moduleName =>
    rw [Emitter.perform]
    obtain ⟨f, hm⟩ | ⟨m, hm⟩ := e.enterModule_cases moduleName
    · rw [hm]
      exact h
    · rw [hm]
      exact h

theorem Emitter.Reaches.allFit {e e' : Emitter} (h : e.Reaches e') (he : e.AllFit) : e'.AllFit :=
  h.keeps (fun _ op he => he.perform op) he

end HackToolchain.Codegen
