import HackToolchain.Proofs.Codegen.Tasks

/-!
# What an emitter writes

Translating the lines of a module adds the code of its commands to the lines of the emitter
(`wrote_of_writeLines`), translating modules one after the other adds the code of all their
commands, and the counters run on (`wrote_of_translateModules`, `wrote_of_translateUnits`).
-/

set_option autoImplicit false

namespace HackToolchain.Codegen

open Text Vm Asm

/-! ## Code of tasks is code without comments -/

theorem noComments_append {c d : Code} (hc : NoComments c) (hd : NoComments d) :
    NoComments (c ++ d) := fun l hl => (List.mem_append.1 hl).elim (hc l) (hd l)

theorem noComments_of_all {c : Code} (h : c.all (!·.isComment) = true) : NoComments c := by
  intro l hl
  simpa using List.all_eq_true.1 h l hl

theorem noComments_callCode (module : Option String) (number : Int) (name : String)
    (argumentCount : Int) : NoComments (callCode module number name argumentCount) :=
  noComments_of_all rfl

theorem noComments_operatorCode (op : Operator) (number : Int) :
    NoComments (operatorCode op number) := by
  cases op <;> exact noComments_of_all rfl

theorem noComments_functionCode (name : String) (localCount : Int) :
    NoComments (functionCode name localCount) := by
  intro l hl
  rcases List.mem_cons.1 hl with rfl | hl
  · rfl
  · rw [zeroLocals, List.mem_flatten] at hl
    obtain ⟨c, hc, hl⟩ := hl
    obtain rfl := (List.mem_replicate.1 hc).2
    have hdecide : ∀ l ∈ Line.toD .zero :: pushD, l.isComment = false := by decide
    exact hdecide l hl

theorem noComments_pushCode {module : Option String} {s : Segment} {index : Int} {code : Code}
    (h : pushCode module s index = .ok code) : NoComments code := by
  unfold pushCode staticSymbol at h
  cases module <;> cases s <;> simp [baseRegister?, Except.map] at h <;> subst h <;>
    exact noComments_of_all rfl

theorem noComments_popCode {module : Option String} {s : Segment} {index : Int} {code : Code}
    (h : popCode module s index = .ok code) : NoComments code := by
  unfold popCode staticSymbol at h
  cases module <;> cases s <;> simp [baseRegister?, Except.map] at h <;> subst h <;>
    exact noComments_of_all rfl

theorem Task.noComments {t : Task} {k : Counters} {d : Draft} (h : t.draft k = .ok d) :
    NoComments d.code := by
  obtain ⟨module, job⟩ := t
  cases job with
  | bootstrap entry stackBase =>
    obtain rfl := Except.ok.inj h
    exact noComments_append (noComments_of_all rfl) (noComments_callCode _ _ _ _)
  | command c =>
    cases c with
    | arithmetic name =>
      obtain ⟨op, -, hcode, -⟩ := Task.draft_operator h
      exact hcode ▸ noComments_operatorCode _ _
    | push segment index =>
      obtain ⟨-, s, -, -, -, hcode⟩ := Task.draft_push h
      exact noComments_pushCode hcode
    | pop segment index =>
      obtain ⟨-, s, -, -, -, hcode⟩ := Task.draft_pop h
      exact noComments_popCode hcode
    | label name =>
      obtain rfl := Except.ok.inj h
      exact noComments_of_all rfl
    | goto name =>
      obtain rfl := Except.ok.inj h
      exact noComments_of_all rfl
    | ifGoto name =>
      obtain rfl := Except.ok.inj h
      exact noComments_of_all rfl
    | function name n =>
      obtain rfl := Except.ok.inj h
      exact noComments_functionCode _ _
    | call name n =>
      obtain rfl := Except.ok.inj h
      exact noComments_callCode _ _ _ _
    | «return» =>
      obtain rfl := Except.ok.inj h
      exact noComments_of_all rfl

/-! ## Writing -/

/-- An emitter has written the code of tasks, with comments between. -/
def Wrote (e : Emitter) (tasks : List Task) (e' : Emitter) : Prop :=
  ∃ lines codes, e'.lines.toList = e.lines.toList ++ lines ∧ TidyComments lines ∧
    withoutComments lines = codes.flatten ∧ Drafts e.counters tasks codes e'.counters

namespace Wrote

theorem refl {e e' : Emitter} (hl : e'.lines = e.lines) (hc : e'.counters = e.counters) :
    Wrote e [] e' :=
  ⟨[], [], by rw [hl, List.append_nil], fun _ h => absurd h List.not_mem_nil, rfl,
    hc ▸ Drafts.nil e.counters⟩

theorem trans {e f g : Emitter} {ts us : List Task} (h : Wrote e ts f) (k : Wrote f us g) :
    Wrote e (ts ++ us) g := by
  obtain ⟨l, cs, hl, ht, hw, hd⟩ := h
  obtain ⟨m, ds, hm, hu, hv, he⟩ := k
  refine ⟨l ++ m, cs ++ ds, by rw [hm, hl, List.append_assoc], tidyComments_append ht hu, ?_,
    hd.append he⟩
  rw [withoutComments, List.filter_append, ← withoutComments, ← withoutComments, hw, hv,
    List.flatten_append]

end Wrote

theorem Emitter.write_eq_ok {e e' : Emitter} {r : Request} (h : e.write r = (.ok (), e')) :
    ∃ d, e.scope.draft e.counters r = .ok d ∧ e'.scope = e.scope ∧ e'.counters = d.counters ∧
      e'.lines.toList = e.lines.toList ++ d.code := by
  unfold Emitter.write at h
  split at h
  · simp at h
  · next d hd =>
    split at h
    · unfold Emitter.commit at h
      split at h
      · simp at h
      · obtain rfl := (Prod.mk.inj h).2
        exact ⟨d, hd, rfl, rfl, by simp⟩
    · simp at h

theorem counters_annotate (s : Scope) (text : String) (d : Draft) :
    (s.annotate text d).counters = d.counters := by
  unfold Scope.annotate
  cases s.comments <;> rfl

/-- A draft that is written, perhaps behind a comment, is a task done. -/
theorem wrote_of_annotate {e e' : Emitter} {t : Task} {d : Draft} {text : String}
    (hd : t.draft e.counters = .ok d) (htext : ∀ c ∈ text.toList, isBreak c = false)
    (hc : e'.counters = (e.scope.annotate text d).counters)
    (hl : e'.lines.toList = e.lines.toList ++ (e.scope.annotate text d).code) :
    Wrote e [t] e' := by
  -- The code of a task has no comments, so leaving comments out takes away just the one in front.
  have hno := Task.noComments hd
  have htidy : TidyComments d.code := fun _ h => absurd (hno _ h) (by simp [Line.isComment])
  unfold Scope.annotate at hc hl
  split at hc
  · next hon =>
    rw [if_pos hon] at hl
    refine ⟨_, [d.code], hl, ?_, ?_, hc ▸ Drafts.single hd⟩
    · intro other h
      rcases List.mem_cons.1 h with h | h
      · rw [Line.comment.inj h]
        exact htext
      · exact htidy other h
    · rw [withoutComments, List.filter_cons_of_neg (by simp [Line.isComment]), ← withoutComments,
        withoutComments_eq_self hno]
      simp
  · next hoff =>
    rw [if_neg hoff] at hl
    refine ⟨_, [d.code], hl, htidy, ?_, hc ▸ Drafts.single hd⟩
    rw [withoutComments_eq_self hno]
    simp

/-- The command of an instruction that is written is a task done in the module. -/
theorem wrote_of_instruction {e e' : Emitter} {i : Instruction} (hne : i.text ≠ "")
    (htext : ∀ c ∈ i.text.toList, isBreak c = false)
    (h : e.write (.instruction i) = (.ok (), e')) :
    e'.scope = e.scope ∧ Wrote e [⟨e.module, .command i.command⟩] e' := by
  obtain ⟨d, hd, hs, hc, hl⟩ := Emitter.write_eq_ok h
  refine ⟨hs, ?_⟩
  have hrender : i.render = .ok i.text := by rw [Instruction.render, if_neg hne]
  have hdraft : ∃ d', e.scope.draftCommand e.counters i.command = .ok d' ∧
      d = e.scope.annotate i.text d' := by
    simp only [Scope.draft, Scope.draftInstruction, hrender] at hd
    cases hcommand : e.scope.draftCommand e.counters i.command with
    | error f =>
      cases hon : e.scope.comments <;> simp [hcommand, hon, Except.map, Except.mapError] at hd
    | ok d' =>
      refine ⟨d', rfl, ?_⟩
      cases hon : e.scope.comments <;>
        simp_all [Except.map, Except.mapError, Scope.annotate]
  obtain ⟨d', hd', rfl⟩ := hdraft
  rw [Scope.draftCommand_eq] at hd'
  exact wrote_of_annotate hd' htext hc hl

theorem isBreak_of_mem_bootstrapComment {entry : String} {stackBase : Int}
    (hentry : ∀ c ∈ entry.toList, isBreak c = false) :
    ∀ c ∈ ("bootstrap: SP=" ++ Decimal.render stackBase ++ "; call " ++ entry ++ " 0").toList,
      isBreak c = false := by
  intro c hmem
  have hfixed : ∀ c ∈ "bootstrap: SP=".toList ++ "; call ".toList ++ " 0".toList,
      isBreak c = false := by decide
  simp only [String.toList_append, List.mem_append] at hmem hfixed
  rcases hmem with (((hmem | hmem) | hmem) | hmem) | hmem
  · exact hfixed c (.inl (.inl hmem))
  · exact isBreak_of_not_isBlank (Decimal.isBlank_of_mem_render hmem)
  · exact hfixed c (.inl (.inr hmem))
  · exact hentry c hmem
  · exact hfixed c (.inr hmem)

theorem isBreak_of_mem_headline {name : String} (hname : ∀ c ∈ name.toList, isBreak c = false) :
    ∀ c ∈ ("=== " ++ name ++ ".vm ===").toList, isBreak c = false := by
  intro c hmem
  have hfixed : ∀ c ∈ "=== ".toList ++ ".vm ===".toList, isBreak c = false := by decide
  simp only [String.toList_append, List.mem_append] at hmem hfixed
  rcases hmem with (hmem | hmem) | hmem
  · exact hfixed c (.inl hmem)
  · exact hname c hmem
  · exact hfixed c (.inr hmem)

theorem wrote_of_bootstrap {e e' : Emitter} {entry : String} {stackBase : Int}
    (hentry : ∀ c ∈ entry.toList, isBreak c = false)
    (h : e.write (.bootstrap entry stackBase) = (.ok (), e')) :
    e'.scope = e.scope ∧ Wrote e [⟨e.module, .bootstrap entry stackBase⟩] e' := by
  obtain ⟨d, hd, hs, hc, hl⟩ := Emitter.write_eq_ok h
  refine ⟨hs, ?_⟩
  simp only [Scope.draft, Scope.draftBootstrap] at hd
  split at hd
  · obtain rfl := Except.ok.inj hd
    exact wrote_of_annotate (t := ⟨e.module, .bootstrap entry stackBase⟩) rfl
      (isBreak_of_mem_bootstrapComment hentry) hc hl
  · simp at hd

theorem wrote_of_comment {e e' : Emitter} {text : String}
    (htext : ∀ c ∈ text.toList, isBreak c = false)
    (h : e.write (.comment text) = (.ok (), e')) : e'.scope = e.scope ∧ Wrote e [] e' := by
  obtain ⟨d, hd, hs, hc, hl⟩ := Emitter.write_eq_ok h
  obtain rfl := Except.ok.inj hd
  refine ⟨hs, [.comment text], [], hl, ?_, rfl, hc ▸ Drafts.nil e.counters⟩
  intro other hmem
  rw [Line.comment.inj (List.mem_singleton.1 hmem)]
  exact htext

/-! ## One after the other -/

namespace Session

/-- Goes on after what came out well. -/
def andThen {α β : Type} (r : Except Fault α × Session)
    (f : α → Session → Except Fault β × Session) :
    Except Fault β × Session :=
  match r with
  | (.error e, s) => (.error e, s)
  | (.ok a, s) => f a s

theorem andThen_ok {α β : Type} (a : α) (s : Session)
    (f : α → Session → Except Fault β × Session) : andThen (.ok a, s) f = f a s := rfl

theorem andThen_eq_ok {α β : Type} {r : Except Fault α × Session}
    {f : α → Session → Except Fault β × Session} {b : β} {s : Session}
    (h : andThen r f = (.ok b, s)) : ∃ a t, r = (.ok a, t) ∧ f a t = (.ok b, s) := by
  obtain ⟨outcome, t⟩ := r
  cases outcome with
  | error e => simp [andThen] at h
  | ok a => exact ⟨a, t, rfl, h⟩

theorem writeLine_eq_andThen {s : Session} {file line : String} {number : Nat} {i : Instruction}
    (h : Vm.readLine file number line = .ok (some i)) : s.writeLine file number line =
      andThen ((s.note (.commandRead i)).write (.instruction i)) fun _ s => (.ok true, s) := by
  simp only [writeLine, h]
  rcases (s.note (.commandRead i)).write (.instruction i) with ⟨_ | _, t⟩ <;> rfl

theorem writeLines_cons (s : Session) (file : String) (number count : Nat) (line : String)
    (lines : List String) : s.writeLines file number count (line :: lines) =
      andThen (s.writeLine file (number + 1) line) fun found s =>
        s.writeLines file (number + 1) (if found then count + 1 else count) lines := by
  rw [writeLines]
  rcases s.writeLine file (number + 1) line with ⟨_ | _, t⟩ <;> rfl

/-- A module is entered, its lines are translated, and its text must have been text to the end. -/
theorem translateModule_eq_andThen (s : Session) (source : Utf8.Stream) (name : String)
    (file : Option String) : s.translateModule source name file =
      andThen (s.enterModule name) fun _ s =>
        andThen
          (s.writeLines
            (match file with
              | none | some "" => s.emitter.module.getD "" ++ ".vm"
              | some name => name) 0 0 source.lines) fun count u =>
          match source.fault with
          | some f => (.error (.undecodable f), u)
          | none => (.ok count, u.note (.moduleTranslated (s.emitter.module.getD "") count)) := by
  unfold translateModule
  rcases s.enterModule name with ⟨_ | _, t⟩
  · rfl
  · simp only [andThen]
    generalize t.writeLines _ 0 0 source.lines = r
    rcases r with ⟨_ | _, u⟩ <;> rfl

/-- The session that has noted which file it reads, if it reads one. -/
def opened (s : Session) (u : SourceUnit) : Session :=
  match u.path with
  | some path => s.note (.readingFile path)
  | none => s

/-- Announces a module, if comments are on. -/
def headline (s : Session) (moduleName : String) : Except Fault Unit × Session :=
  if s.emitter.scope.comments then s.write (.comment ("=== " ++ moduleName ++ ".vm ==="))
  else (.ok (), s)

theorem emitter_opened (s : Session) (u : SourceUnit) : (s.opened u).emitter = s.emitter := by
  unfold opened
  cases u.path <;> rfl

/-- A source is announced, and then its module is translated. -/
theorem translateUnit_eq_andThen (s : Session) (u : SourceUnit) : s.translateUnit u =
    andThen ((s.opened u).headline u.moduleName) fun _ t =>
      t.translateModule u.source u.moduleName (u.path.map Path.render) := by
  obtain ⟨moduleName, source, path⟩ := u
  cases hc : s.emitter.scope.comments with
  | false => cases path <;> simp [translateUnit, opened, headline, note, hc, andThen]
  | true =>
    cases path with
    | none =>
      simp only [translateUnit, opened, headline, hc, if_true]
      rcases s.write _ with ⟨_ | _, t⟩ <;> simp only [andThen]
    | some path =>
      simp only [translateUnit, opened, headline, note, hc, if_true]
      rcases Session.write _ _ with ⟨_ | _, t⟩ <;> simp only [andThen]

theorem translateUnits_cons (s : Session) (modules : List String) (count : Nat) (u : SourceUnit)
    (units : List SourceUnit) : s.translateUnits modules count (u :: units) =
      andThen (s.translateUnit u) fun n s =>
        s.translateUnits (s.emitter.module.getD "" :: modules) (count + n) units := by
  rw [translateUnits]
  rcases s.translateUnit u with ⟨_ | _, t⟩ <;> rfl

end Session

/-! ## Modules -/

def lineTasks (module : Option String) (lines : List String) : List Task :=
  lines.filterMap fun line => (commandOf? line).map fun c => ⟨module, .command c⟩

theorem Session.write_eq_ok {s s' : Session} {r : Request} (h : s.write r = (.ok (), s')) :
    s.emitter.write r = (.ok (), s'.emitter) := by
  unfold Session.write at h
  cases hw : s.emitter.write r with
  | mk outcome e =>
    simp only [hw, Prod.mk.injEq] at h
    obtain ⟨rfl, rfl⟩ := h
    rfl

theorem wrote_of_writeLine {s s' : Session} {file line : String} {number : Nat} {found : Bool}
    (h : s.writeLine file number line = (.ok found, s')) :
    s'.emitter.scope = s.emitter.scope ∧
      Wrote s.emitter (lineTasks s.emitter.module [line]) s'.emitter := by
  cases hr : Vm.readLine file number line with
  | error f => simp [Session.writeLine, hr] at h
  | ok out =>
    obtain ⟨hcommand, htext⟩ := of_readLine hr
    cases out with
    | none =>
      simp only [Session.writeLine, hr, Prod.mk.injEq] at h
      obtain ⟨-, rfl⟩ := h
      refine ⟨rfl, ?_⟩
      simp only [lineTasks, hcommand, List.filterMap_cons, Option.map_none, List.filterMap_nil]
      exact .refl rfl rfl
    | some i =>
      obtain ⟨hne, hbreak⟩ := htext i rfl
      simp only [lineTasks, hcommand, List.filterMap_cons, Option.map_some, List.filterMap_nil]
      rw [Session.writeLine_eq_andThen hr] at h
      obtain ⟨_, t, hw, h⟩ := Session.andThen_eq_ok h
      obtain ⟨-, rfl⟩ := Prod.mk.inj h
      have hwrite := Session.write_eq_ok hw
      exact wrote_of_instruction hne hbreak hwrite

theorem wrote_of_writeLines {s s' : Session} {file : String} {number count total : Nat}
    {lines : List String} (h : s.writeLines file number count lines = (.ok total, s')) :
    s'.emitter.scope = s.emitter.scope ∧
      Wrote s.emitter (lineTasks s.emitter.module lines) s'.emitter := by
  induction lines generalizing number count s with
  | nil =>
    simp only [Session.writeLines, Prod.mk.injEq] at h
    obtain ⟨-, rfl⟩ := h
    exact ⟨rfl, .refl rfl rfl⟩
  | cons line lines ih =>
    rw [Session.writeLines_cons] at h
    obtain ⟨found, t, hl, h⟩ := Session.andThen_eq_ok h
    obtain ⟨hscope, hwrote⟩ := wrote_of_writeLine hl
    obtain ⟨hscope', hwrote'⟩ := ih h
    refine ⟨hscope'.trans hscope, ?_⟩
    have hmodule : t.emitter.module = s.emitter.module := congrArg Scope.module hscope
    rw [hmodule] at hwrote'
    rw [show line :: lines = [line] ++ lines from rfl, lineTasks, List.filterMap_append]
    exact hwrote.trans hwrote'

/-- The tasks of the modules of a program. -/
def unitTasks (units : List SourceUnit) : List Task :=
  units.flatMap fun u => lineTasks (moduleOfName? u.moduleName) u.source.lines

/-- The tasks of sources are the commands on their lines. -/
theorem of_mem_unitTasks {units : List SourceUnit} {t : Task} (h : t ∈ unitTasks units) :
    ∃ u ∈ units, t.module = moduleOfName? u.moduleName ∧
      ∃ line ∈ u.source.lines, ∃ c, commandOf? line = some c ∧ t.job = .command c := by
  obtain ⟨u, hu, ht⟩ := List.mem_flatMap.1 h
  obtain ⟨line, hl, hline⟩ := List.mem_filterMap.1 ht
  obtain ⟨c, hc, htask⟩ := Option.map_eq_some_iff.1 hline
  exact ⟨u, hu, by rw [← htask], line, hl, c, hc, by rw [← htask]⟩

theorem tight_of_mem_unitTasks {units : List SourceUnit} {module : Option String} {c : Command}
    (h : ⟨module, .command c⟩ ∈ unitTasks units) {name : String} (hn : c.name? = some name) :
    Tight name.toList := by
  obtain ⟨-, -, -, line, -, c', hc', hjob⟩ := of_mem_unitTasks h
  obtain rfl := Job.command.inj hjob
  exact (of_commandOf? hc').1 name hn

theorem wrote_of_translateModule {s s' : Session} {source : Utf8.Stream} {name : String}
    {file : Option String} {count : Nat}
    (h : s.translateModule source name file = (.ok count, s')) :
    (moduleOfName? name).isSome ∧ s'.emitter.module = moduleOfName? name ∧
      Wrote s.emitter (lineTasks (moduleOfName? name) source.lines) s'.emitter := by
  unfold Session.translateModule Session.enterModule Emitter.enterModule at h
  cases hm : moduleOfName? name with
  | none => simp [hm] at h
  | some m =>
    simp only [hm, Session.note] at h
    split at h
    · simp at h
    · next total t hw =>
      obtain ⟨hscope, hwrote⟩ := wrote_of_writeLines hw
      cases hf : source.fault with
      | some f => simp [hf] at h
      | none =>
        simp only [hf, Prod.mk.injEq] at h
        obtain ⟨-, rfl⟩ := h
        exact ⟨rfl, congrArg Scope.module hscope, hwrote⟩

namespace Session

/-- Translates modules one after the other, up to the first that stops. -/
def translateModules (s : Session) (count : Nat) : List SourceUnit → Except Fault Nat × Session
  | [] => (.ok count, s)
  | u :: rest =>
    andThen (s.translateModule u.source u.moduleName (u.path.map Path.render)) fun n s =>
      translateModules s (count + n) rest

/-- Writes the bootstrap if there is a function to start with, and then translates modules. -/
def translate (s : Session) (boot : Option (String × Int)) (units : List SourceUnit) :
    Except Fault Nat × Session :=
  match boot with
  | none => s.translateModules 0 units
  | some (entry, stackBase) =>
    andThen (s.write (.bootstrap entry stackBase)) fun _ s => s.translateModules 0 units

end Session

/-- Modules that are translated are the tasks of their commands. -/
theorem wrote_of_translateModules {s s' : Session} {count total : Nat} {units : List SourceUnit}
    (h : s.translateModules count units = (.ok total, s')) :
    Wrote s.emitter (unitTasks units) s'.emitter ∧
      ∀ u ∈ units, (moduleOfName? u.moduleName).isSome := by
  induction units generalizing s count with
  | nil =>
    rw [Session.translateModules] at h
    obtain ⟨-, rfl⟩ := Prod.mk.inj h
    exact ⟨.refl rfl rfl, by simp⟩
  | cons u units ih =>
    rw [Session.translateModules] at h
    obtain ⟨n, t, ht, h⟩ := Session.andThen_eq_ok h
    obtain ⟨hsome, -, hwrote⟩ := wrote_of_translateModule ht
    obtain ⟨hwrote', hsome'⟩ := ih h
    refine ⟨hwrote.trans hwrote', ?_⟩
    intro v hv
    rcases List.mem_cons.1 hv with rfl | hv
    · exact hsome
    · exact hsome' v hv

/-- The tasks of a program that starts in a module: the bootstrap if there is a function to start
with, and the commands. -/
def programTasks (module : Option String) (boot : Option (String × Int)) (units : List SourceUnit) :
    List Task :=
  boot.toList.map (fun b => ⟨module, .bootstrap b.1 b.2⟩) ++ unitTasks units

theorem wrote_of_translate {s s' : Session} {boot : Option (String × Int)}
    {units : List SourceUnit} {count : Nat}
    (hboot : ∀ b ∈ boot, ∀ c ∈ b.1.toList, isBreak c = false)
    (h : s.translate boot units = (.ok count, s')) :
    Wrote s.emitter (programTasks s.emitter.module boot units) s'.emitter := by
  cases boot with
  | none =>
    simp only [Session.translate] at h
    exact (wrote_of_translateModules h).1
  | some b =>
    obtain ⟨entry, stackBase⟩ := b
    simp only [Session.translate] at h
    obtain ⟨u, t, ht, h⟩ := Session.andThen_eq_ok h
    have hwrite := Session.write_eq_ok ht
    exact (wrote_of_bootstrap (hboot _ rfl) hwrite).2.trans (wrote_of_translateModules h).1

theorem wrote_of_headline {s s' : Session} {moduleName : String} {u : Unit}
    (hname : ∀ c ∈ moduleName.toList, isBreak c = false)
    (h : s.headline moduleName = (.ok u, s')) : Wrote s.emitter [] s'.emitter := by
  unfold Session.headline at h
  split at h
  · exact (wrote_of_comment (isBreak_of_mem_headline hname) (Session.write_eq_ok h)).2
  · obtain ⟨-, rfl⟩ := Prod.mk.inj h
    exact .refl rfl rfl

theorem wrote_of_translateUnit {s s' : Session} {u : SourceUnit} {count : Nat}
    (hname : ∀ c ∈ u.moduleName.toList, isBreak c = false)
    (h : s.translateUnit u = (.ok count, s')) :
    Wrote s.emitter (lineTasks (moduleOfName? u.moduleName) u.source.lines) s'.emitter := by
  rw [Session.translateUnit_eq_andThen] at h
  obtain ⟨_, t, hheadline, h⟩ := Session.andThen_eq_ok h
  have hwrote := wrote_of_headline hname hheadline
  rw [Session.emitter_opened] at hwrote
  exact hwrote.trans (wrote_of_translateModule h).2.2

/-- The units of a program that are translated are the tasks of their commands, if no name of a
module has a break. -/
theorem wrote_of_translateUnits {s s' : Session} {modules : List String} {count : Nat}
    {units : List SourceUnit} {result : List String × Nat}
    (hunits : ∀ u ∈ units, ∀ c ∈ u.moduleName.toList, isBreak c = false)
    (h : s.translateUnits modules count units = (.ok result, s')) :
    Wrote s.emitter (unitTasks units) s'.emitter := by
  induction units generalizing s modules count with
  | nil =>
    simp only [Session.translateUnits, Prod.mk.injEq] at h
    obtain ⟨-, rfl⟩ := h
    exact .refl rfl rfl
  | cons u units ih =>
    rw [Session.translateUnits_cons] at h
    obtain ⟨n, t, ht, h⟩ := Session.andThen_eq_ok h
    exact (wrote_of_translateUnit (hunits u List.mem_cons_self) ht).trans
      (ih (fun v hv => hunits v (List.mem_cons_of_mem _ hv)) h)

/-- The function to start with and the base of the stack, if there is to be a bootstrap. -/
def Options.boot? (options : Options) (bootstrap : Bool) : Option (String × Int) :=
  if bootstrap then some (options.entry, options.stackBase) else none

/-- A task of a program is its bootstrap or a command of a module. -/
theorem of_mem_programTasks {options : Options} {bootstrap : Bool} {units : List SourceUnit}
    {t : Task} (h : t ∈ programTasks none (options.boot? bootstrap) units) :
    t = ⟨none, .bootstrap options.entry options.stackBase⟩ ∨ t ∈ unitTasks units := by
  rw [programTasks, List.mem_append] at h
  refine h.imp_left fun h => ?_
  obtain ⟨b, hb, rfl⟩ := List.mem_map.1 h
  rw [Options.boot?, Option.mem_toList, Option.ite_none_right_eq_some] at hb
  rw [← Option.some.inj hb.2]

namespace Session

/-- The session that a program is translated in. -/
def initial (comments : Bool) (journal : Journal) : Session :=
  { emitter := { scope := { comments } }, journal }

/-- Writes the bootstrap if there is to be one. -/
def writeBoot (s : Session) : Option (String × Int) → Except Fault Unit × Session
  | none => (.ok (), s)
  | some (entry, stackBase) => s.write (.bootstrap entry stackBase)

end Session

theorem wrote_of_writeBoot {s s' : Session} {boot : Option (String × Int)} {u : Unit}
    (hboot : ∀ b ∈ boot, ∀ c ∈ b.1.toList, isBreak c = false)
    (h : s.writeBoot boot = (.ok u, s')) :
    Wrote s.emitter
      (boot.toList.map fun b => ⟨s.emitter.module, .bootstrap b.1 b.2⟩) s'.emitter := by
  cases boot with
  | none =>
    obtain ⟨-, rfl⟩ := Prod.mk.inj h
    exact .refl rfl rfl
  | some b =>
    obtain ⟨entry, stackBase⟩ := b
    rw [Session.writeBoot] at h
    have hwrite := Session.write_eq_ok h
    exact (wrote_of_bootstrap (hboot _ rfl) hwrite).2

namespace Session

/-- The result of translating sources. -/
def result (bootstrap : Bool) :
    Except Fault (List String × Nat) × Session → Except Fault Result × Journal
  | (.error f, s) => (.error f, s.journal)
  | (.ok (modules, count), s) =>
    (.ok
      { assembly := s.emitter.text, modules, instructionCount := count,
        lineCount := s.emitter.lineCount, bootstrapped := bootstrap },
      s.journal)

theorem result_eq_ok {r : Except Fault (List String × Nat) × Session} {bootstrap : Bool}
    {out : Result} {journal : Journal} (h : result bootstrap r = (.ok out, journal)) :
    ∃ modules count s, r = (.ok (modules, count), s) ∧ out.assembly = s.emitter.text := by
  obtain ⟨_ | ⟨modules, count⟩, s⟩ := r
  · simp [result] at h
  · obtain rfl := Except.ok.inj (Prod.mk.inj h).1
    exact ⟨modules, count, s, rfl, rfl⟩

end Session

theorem translateProgram_eq_result (options : Options) (bootstrap : Bool) (units : List SourceUnit)
    (journal : Journal) : translateProgram options bootstrap units journal =
      Session.result bootstrap (Session.andThen
        ((Session.initial options.comments journal).writeBoot (options.boot? bootstrap))
        fun _ s => s.translateUnits [] 0 units) := by
  have hboot : (if bootstrap then
        (Session.initial options.comments journal).write
          (.bootstrap options.entry options.stackBase)
      else (.ok (), Session.initial options.comments journal)) =
      (Session.initial options.comments journal).writeBoot (options.boot? bootstrap) := by
    rw [Options.boot?]
    cases bootstrap with
    | false => rfl
    | true => simp only [if_true, Session.writeBoot]
  rw [← hboot]
  unfold translateProgram
  simp only [Session.initial]
  generalize (if bootstrap then _ else _) = r
  rcases r with ⟨_ | _, s⟩
  · rfl
  · simp only [Session.andThen]
    generalize s.translateUnits [] 0 units = r
    rcases r with ⟨_ | ⟨modules, count⟩, t⟩ <;> rfl

/-- What the emitter of a program that is translated has written is the tasks of the program, if no
name of a module and not that of the function to start with has a break. -/
theorem wrote_of_translateProgram {options : Options} {bootstrap : Bool}
    {units : List SourceUnit} {journal journal' : Journal} {result : Result}
    (hentry : ∀ c ∈ options.entry.toList, isBreak c = false)
    (hunits : ∀ u ∈ units, ∀ c ∈ u.moduleName.toList, isBreak c = false)
    (h : translateProgram options bootstrap units journal = (.ok result, journal')) :
    ∃ r s, Session.andThen
        ((Session.initial options.comments journal).writeBoot (options.boot? bootstrap))
        (fun _ s => s.translateUnits [] 0 units) = (r, s) ∧
      result.assembly = s.emitter.text ∧
      Wrote (Session.initial options.comments journal).emitter
        (programTasks none (options.boot? bootstrap) units) s.emitter := by
  rw [translateProgram_eq_result] at h
  obtain ⟨modules, count, s, hs, htext⟩ := Session.result_eq_ok h
  refine ⟨_, s, hs, htext, ?_⟩
  obtain ⟨_, t, ht, hs⟩ := Session.andThen_eq_ok hs
  have hboot : ∀ b ∈ options.boot? bootstrap, ∀ c ∈ b.1.toList, isBreak c = false := by
    intro b hb
    rw [Options.boot?, Option.mem_def, Option.ite_none_right_eq_some] at hb
    obtain rfl := Option.some.inj hb.2
    exact hentry
  exact (wrote_of_writeBoot hboot ht).trans (wrote_of_translateUnits hunits hs)

/-- The assembly of a program is the code drafted for its tasks, with comments between, if no name
of a module and not that of the function to start with has a break. -/
theorem exists_code_of_translateProgram {options : Options} {bootstrap : Bool}
    {units : List SourceUnit} {journal journal' : Journal} {result : Result}
    (hentry : ∀ c ∈ options.entry.toList, isBreak c = false)
    (hunits : ∀ u ∈ units, ∀ c ∈ u.moduleName.toList, isBreak c = false)
    (h : translateProgram options bootstrap units journal = (.ok result, journal')) :
    ∃ lines codes k, result.assembly = renderLines lines ∧ TidyComments lines ∧
      withoutComments lines = codes.flatten ∧
        Drafts {} (programTasks none (options.boot? bootstrap) units) codes k := by
  obtain ⟨-, s, -, htext, lines, codes, hl, ht, hw, hd⟩ := wrote_of_translateProgram hentry hunits h
  refine ⟨lines, codes, _, ?_, ht, hw, hd⟩
  rw [htext, Emitter.text, Emitter.textFrom, List.drop_zero, hl]
  rfl

end HackToolchain.Codegen
