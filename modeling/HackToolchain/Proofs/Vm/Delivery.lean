import HackToolchain.Proofs.Vm.Passes

/-!
# What a reader delivers

A desk is a reader with all the passes that were taken over it, and a history records what was asked
of it step by step, with the answers and the lines that were taken. In every history each line is
delivered once (`delivered_once`): the lines that were taken, by a pass or as they are, and those
that are left make up the source. Only the first pass that is ever run reads anything, and it reads
no more once it has ended or failed. As long as no line is taken as it is, instructions are told
their true places.
-/

set_option autoImplicit false

namespace HackToolchain.Vm

open Text

/-- A reader with the passes that were taken over it, in the order in which they were taken. -/
structure Desk where
  reader : Reader
  passes : List Pass := []

namespace Desk

/-! ## Steps and histories -/

/-- What can be asked of a desk. A pass is named by the number of passes taken before it. -/
inductive Step where
  /-- Takes a new pass. -/
  | read
  /-- Advances a pass. -/
  | next (pass : Nat)
  /-- Advances a pass to its end or first fault. -/
  | drain (pass : Nat)
  /-- Takes a line as it is. -/
  | readline
  deriving DecidableEq

/-- What is answered. -/
inductive Answer where
  /-- There is nothing to tell. -/
  | nothing
  | line (text : String)
  | next (outcome : Except Fault (Option Instruction))
  | drained (outcome : Except Fault (List Instruction)) (given : List Instruction)

/-- Does a step; one that names no pass does nothing. -/
def perform (d : Desk) : Step → Answer × Desk
  | .read => (.nothing, { d with passes := d.passes ++ [.fresh] })
  | .readline =>
    let (line, reader) := d.reader.takeLine
    (.line line, { d with reader })
  | .next i =>
    match d.passes[i]? with
    | none => (.nothing, d)
    | some p =>
      let (outcome, reader, p) := d.reader.next p
      (.next outcome, { reader, passes := d.passes.set i p })
  | .drain i =>
    match d.passes[i]? with
    | none => (.nothing, d)
    | some p =>
      let (outcome, given, reader, p) := d.reader.drain p
      (.drained outcome given, { reader, passes := d.passes.set i p })

/-- A step with its answer, the lines that were left before it and those that are left after it. -/
structure Record where
  step : Step
  answer : Answer
  before : List String
  after : List String

/-- The record of a step. -/
def record (d : Desk) (s : Step) : Record where
  step := s
  answer := (d.perform s).1
  before := d.reader.pending
  after := (d.perform s).2.reader.pending

/-- The records of steps, each done whatever came of those before it. -/
def history (d : Desk) : List Step → List Record
  | [] => []
  | s :: steps => d.record s :: history (d.perform s).2 steps

/-- A desk for a source, before any pass is taken. -/
def opened (file source : String) : Desk where
  reader := { file, pending := (lines source.toList).map String.ofList }

namespace Record

/-- The lines that a step took: so many of those before it as are missing after it. -/
def taken (r : Record) : List String := r.before.take (r.before.length - r.after.length)

/-- The pass that a step ran. -/
def ran (r : Record) : Option Nat :=
  match r.step, r.answer with
  | .next i, .next _ => some i
  | .drain i, .drained _ _ => some i
  | _, _ => none

/-- The instructions that a step gave. -/
def given (r : Record) : List Instruction :=
  match r.answer with
  | .next (.ok (some i)) => [i]
  | .drained _ given => given
  | _ => []

/-- A step neither ended a pass nor made it fail. -/
def goesOn (r : Record) : Bool :=
  match r.answer with
  | .next (.ok (some _)) => true
  | _ => false

end Record

/-! ## What histories tell -/

/-- The number of passes that were taken. -/
def passCount (log : List Record) : Nat := (log.filter fun r => r.step = .read).length

/-- The first pass that was ever run. -/
def firstRun (log : List Record) : Option Nat := log.findSome? Record.ran

/-- A pass may still read: no other was run before it, and it has neither ended nor failed. -/
def Live (log : List Record) (i : Nat) : Prop :=
  (∀ j ∈ firstRun log, j = i) ∧ ∀ r ∈ log, r.ran = some i → r.goesOn = true

instance (log : List Record) (i : Nat) : Decidable (Live log i) :=
  decidable_of_iff
    ((firstRun log).all (· == i) = true ∧ (log.all fun r => r.ran != some i || r.goesOn) = true)
    (by rw [Live, Option.all_eq_true, List.all_eq_true]; simp [imp_iff_not_or])

/-- The number of lines that were taken by passes. -/
def linesRead (log : List Record) : Nat :=
  ((log.filter fun r => r.ran.isSome).flatMap Record.taken).length

/-- What is delivered by a step that comes after others. -/
structure Delivery (file : String) (source : List String) (log : List Record) (r : Record) :
    Prop where
  /-- No line is lost, repeated or read ahead. -/
  before : log.flatMap Record.taken ++ r.before = source
  lines : log.flatMap Record.taken ++ r.taken ++ r.after = source
  /-- The passes that can be run are those that were taken. -/
  ran : ∀ i, r.ran = some i ↔ (r.step = .next i ∨ r.step = .drain i) ∧ i < passCount log
  /-- Only a pass gives instructions, and a line is only taken by a pass or as it is. -/
  untouched : r.ran = none → r.given = [] ∧ (r.step ≠ .readline → r.taken = [])
  readline : r.step = .readline →
    (∃ line, r.answer = .line line ∧ r.taken = [line]) ∨
      r.answer = .line "" ∧ r.taken = [] ∧ r.after = []
  /-- A pass that may read goes on to the first line that says something. -/
  next : ∀ i, r.step = .next i → i < passCount log → Live log i →
    ∃ outcome, r.answer = .next outcome ∧ Meets file (linesRead log) r.before outcome r.after
  drain : ∀ i, r.step = .drain i → i < passCount log → Live log i →
    ∃ outcome given, r.answer = .drained outcome given ∧
      Drains file (linesRead log) r.before outcome given r.after
  /-- Every other pass ends at once. -/
  idle : ∀ i, r.ran = some i → ¬Live log i →
    (r.answer = .next (.ok none) ∨ r.answer = .drained (.ok []) []) ∧ r.taken = []

/-- What a desk is like behind a history. -/
structure Behind (file : String) (source : List String) (log : List Record) (d : Desk) : Prop where
  file : d.reader.file = file
  lines : log.flatMap Record.taken ++ d.reader.pending = source
  passCount : d.passes.length = passCount log
  ran : ∀ r ∈ log, ∀ i, r.ran = some i → i < Desk.passCount log
  started : d.reader.started = (firstRun log).isSome
  able : ∀ i p, d.passes[i]? = some p → Live log i → Able d.reader (linesRead log) p
  idle : ∀ i p, d.passes[i]? = some p → ¬Live log i → Idle d.reader p

section

variable {file : String} {source : List String} {log : List Record} {r : Record} {i : Nat}

theorem Record.taken_eq {taken : List String} (h : r.before = taken ++ r.after) :
    r.taken = taken := by
  rw [Record.taken, h, List.length_append, Nat.add_sub_cancel, List.take_left]

theorem passCount_append (log : List Record) (r : Record) :
    passCount (log ++ [r]) = passCount log + if r.step = .read then 1 else 0 := by
  rw [passCount, List.filter_append, List.length_append, ← passCount, List.filter_singleton]
  by_cases h : r.step = .read <;> simp [h]

theorem firstRun_append (log : List Record) (r : Record) :
    firstRun (log ++ [r]) = (firstRun log).or r.ran := by
  rw [firstRun, List.findSome?_append, ← firstRun, List.findSome?_singleton]

theorem linesRead_append (log : List Record) (r : Record) :
    linesRead (log ++ [r]) = linesRead log + if r.ran.isSome then r.taken.length else 0 := by
  rw [linesRead, List.filter_append, List.flatMap_append, List.length_append, ← linesRead,
    List.filter_singleton]
  by_cases h : r.ran.isSome = true <;> simp [h]

theorem live_append : Live (log ++ [r]) i ↔
    (∀ j ∈ (firstRun log).or r.ran, j = i) ∧ (∀ q ∈ log, q.ran = some i → q.goesOn = true) ∧
      (r.ran = some i → r.goesOn = true) := by
  rw [Live, firstRun_append]
  simp [or_imp, forall_and]

/-- A step that runs no pass changes nothing for the passes. -/
theorem live_append_of_ran_eq_none (h : r.ran = none) : Live (log ++ [r]) i ↔ Live log i := by
  rw [live_append, h, Option.or_none, Live]
  simp

/-- A pass that may not read was not the first to be run, so that one was. -/
theorem isSome_firstRun_of_not_live (h : ¬Live log i) : (firstRun log).isSome = true := by
  by_contra hnone
  rw [Option.not_isSome_iff_eq_none] at hnone
  refine h ⟨by simp [hnone], fun q hq hran => ?_⟩
  rw [List.findSome?_eq_none_iff.1 hnone q hq] at hran
  cases hran

theorem linesRead_of_firstRun_eq_none (h : firstRun log = none) : linesRead log = 0 := by
  have hnone : (log.filter fun r => r.ran.isSome) = [] := by
    refine List.filter_eq_nil_iff.2 fun q hq => ?_
    rw [List.findSome?_eq_none_iff.1 h q hq]
    decide
  rw [linesRead, hnone]
  rfl

namespace Behind

variable {d : Desk}

/-- A pass that is new may read if nothing was run yet, and only then. -/
theorem fresh (h : Behind file source log d) :
    (Live log d.passes.length → Able d.reader (linesRead log) .fresh) ∧
      (¬Live log d.passes.length → Idle d.reader .fresh) := by
  constructor
  · intro hlive
    have hnone : firstRun log = none := by
      by_contra hsome
      obtain ⟨j, hj⟩ := Option.ne_none_iff_exists'.1 hsome
      obtain ⟨q, hq, hran⟩ := List.exists_of_findSome?_eq_some hj
      have hlt := h.ran q hq j hran
      rw [hlive.1 j hj, h.passCount] at hlt
      exact Nat.lt_irrefl _ hlt
    rw [linesRead_of_firstRun_eq_none hnone]
    exact .fresh (by rw [h.started, hnone]; rfl)
  · intro hlive
    exact .late (by rw [h.started, isSome_firstRun_of_not_live hlive])

/-- Behind a step that runs no pass, with one more pass if that was taken. -/
theorem keep (h : Behind file source log d) {reader : Reader} {passes : List Pass}
    (hran : r.ran = none) (hfile : reader.file = d.reader.file)
    (hstarted : reader.started = d.reader.started)
    (hlines : log.flatMap Record.taken ++ r.taken ++ reader.pending = source)
    (hpasses : passes = if r.step = .read then d.passes ++ [.fresh] else d.passes) :
    Behind file source (log ++ [r]) { reader, passes } := by
  have hfirst : firstRun (log ++ [r]) = firstRun log := by
    rw [firstRun_append, hran, Option.or_none]
  have hread : linesRead (log ++ [r]) = linesRead log := by
    rw [linesRead_append, hran]
    rfl
  have hpass {j : Nat} {q : Pass} (hq : passes[j]? = some q) :
      (Live log j → Able d.reader (linesRead log) q) ∧ (¬Live log j → Idle d.reader q) := by
    rw [hpasses] at hq
    split at hq
    · rcases Nat.lt_or_ge j d.passes.length with hj | hj
      · rw [List.getElem?_append_left hj] at hq
        exact ⟨h.able j q hq, h.idle j q hq⟩
      · rw [List.getElem?_append_right hj, List.getElem?_singleton] at hq
        split at hq
        · obtain rfl : j = d.passes.length := by omega
          exact Option.some.inj hq ▸ h.fresh
        · cases hq
    · exact ⟨h.able j q hq, h.idle j q hq⟩
  refine
    { file := hfile.trans h.file
      lines := by simpa using hlines
      passCount := ?_
      ran := ?_
      started := by rw [hfirst, ← h.started, hstarted]
      able := ?_
      idle := ?_ }
  · rw [passCount_append, ← h.passCount, hpasses]
    split <;> simp
  · intro q hq j hj
    rw [passCount_append]
    rcases List.mem_append.1 hq with hq | hq
    · exact Nat.lt_add_right _ (h.ran q hq j hj)
    · rw [List.mem_singleton.1 hq, hran] at hj
      cases hj
  · intro j q hq hlive
    rw [live_append_of_ran_eq_none hran] at hlive
    rw [hread]
    exact ((hpass hq).1 hlive).congr hstarted
  · intro j q hq hlive
    rw [live_append_of_ran_eq_none hran] at hlive
    exact ((hpass hq).2 hlive).congr hstarted

/-- The passes behind a step that ran one of them. -/
theorem ran_append (h : Behind file source log d) (hi : i < d.passes.length)
    (hran : r.ran = some i) (hstep : r.step ≠ .read) :
    d.passes.length = Desk.passCount (log ++ [r]) ∧
      ∀ q ∈ log ++ [r], ∀ j, q.ran = some j → j < Desk.passCount (log ++ [r]) := by
  rw [passCount_append, if_neg hstep, Nat.add_zero]
  refine ⟨h.passCount, fun q hq j hj => ?_⟩
  rcases List.mem_append.1 hq with hq | hq
  · exact h.ran q hq j hj
  · rw [List.mem_singleton.1 hq, hran] at hj
    exact Option.some.inj hj ▸ h.passCount ▸ hi

/-- Behind a step that ran a pass that may not read. -/
theorem run_idle (h : Behind file source log d) (hi : i < d.passes.length) (hlive : ¬Live log i)
    (hran : r.ran = some i) (hstep : r.step ≠ .read) (htaken : r.taken = [])
    (hgoes : r.goesOn = false) :
    Behind file source (log ++ [r]) { d with passes := d.passes.set i .finished } := by
  obtain ⟨k, hk⟩ := Option.isSome_iff_exists.1 (isSome_firstRun_of_not_live hlive)
  have hfirst : firstRun (log ++ [r]) = firstRun log := by rw [firstRun_append, hk, Option.some_or]
  have hread : linesRead (log ++ [r]) = linesRead log := by rw [linesRead_append, htaken]; simp
  obtain ⟨hcount, hranAll⟩ := h.ran_append hi hran hstep
  have hother {j : Nat} (hj : j ≠ i) : Live (log ++ [r]) j ↔ Live log j := by
    rw [live_append, hk, Option.some_or, ← hk, hran, Live]
    simp [Ne.symm hj]
  refine
    { file := h.file
      lines := by simpa [htaken] using h.lines
      passCount := by rw [List.length_set, hcount]
      ran := hranAll
      started := by rw [hfirst, ← h.started]
      able := ?_
      idle := ?_ }
  · intro j q hq hable
    by_cases hj : j = i
    · subst hj
      rw [live_append, hgoes] at hable
      exact absurd (hable.2.2 hran) (by decide)
    · rw [List.getElem?_set_ne (Ne.symm hj)] at hq
      rw [hread]
      exact h.able j q hq ((hother hj).1 hable)
  · intro j q hq hidle
    by_cases hj : j = i
    · subst hj
      rw [List.getElem?_set_self hi] at hq
      exact Option.some.inj hq ▸ .finished
    · rw [List.getElem?_set_ne (Ne.symm hj)] at hq
      exact h.idle j q hq (mt (hother hj).2 hidle)

/-- Behind a step that ran the pass that may read. -/
theorem run_live (h : Behind file source log d) (hi : i < d.passes.length) (hlive : Live log i)
    {reader : Reader} {p : Pass} (hran : r.ran = some i) (hstep : r.step ≠ .read)
    (hfile : reader.file = d.reader.file) (hstarted : reader.started = true)
    (hlines : log.flatMap Record.taken ++ r.taken ++ reader.pending = source)
    (hp : p = if r.goesOn then .running (linesRead log + r.taken.length) else .finished) :
    Behind file source (log ++ [r]) { reader, passes := d.passes.set i p } := by
  have hfirst : firstRun (log ++ [r]) = some i := by
    rw [firstRun_append, hran]
    cases hf : firstRun log with
    | none => rfl
    | some k => rw [Option.some_or, hlive.1 k hf]
  have hread : linesRead (log ++ [r]) = linesRead log + r.taken.length := by
    rw [linesRead_append, hran]
    rfl
  obtain ⟨hcount, hranAll⟩ := h.ran_append hi hran hstep
  have hother {j : Nat} (hj : j ≠ i) : ¬Live (log ++ [r]) j :=
    fun hlive => hj (hlive.1 i hfirst).symm
  refine
    { file := hfile.trans h.file
      lines := by simpa using hlines
      passCount := by rw [List.length_set, hcount]
      ran := hranAll
      started := by rw [hfirst, hstarted]; rfl
      able := ?_
      idle := ?_ }
  · intro j q hq hable
    obtain rfl : j = i := by
      by_contra hj
      exact hother hj hable
    rw [live_append] at hable
    rw [List.getElem?_set_self hi, hp, hable.2.2 hran, if_pos rfl] at hq
    rw [hread, ← Option.some.inj hq]
    exact .running hstarted
  · intro j q hq hidle
    by_cases hj : j = i
    · subst hj
      have hgoes : r.goesOn = false := by
        by_contra hgoes
        refine hidle (live_append.2 ⟨?_, hlive.2, fun _ => by simpa using hgoes⟩)
        rw [← firstRun_append, hfirst]
        simp
      rw [List.getElem?_set_self hi, hp, hgoes] at hq
      exact Option.some.inj hq ▸ .finished
    · rw [List.getElem?_set_ne (Ne.symm hj)] at hq
      -- A pass that is not the first to be run is over, or it is fresh and comes too late.
      rcases Classical.em (Live log j) with hj' | hj'
      · have hable := h.able j q hq hj'
        generalize linesRead log = n at hable
        cases hable with
        | running hs =>
          rw [h.started] at hs
          obtain ⟨k, hk⟩ := Option.isSome_iff_exists.1 hs
          exact absurd ((hj'.1 k hk).symm.trans (hlive.1 k hk)) hj
        | fresh => exact .late hstarted
      · cases h.idle j q hq hj' with
        | finished => exact .finished
        | late => exact .late hstarted

end Behind

/-! ## Steps -/

section

variable {d : Desk}

/-- A step that runs no pass, since it names none or one that was not taken. -/
theorem Delivery.of_ran_eq_none (hran : r.ran = none)
    (hbefore : log.flatMap Record.taken ++ r.before = source)
    (hlines : log.flatMap Record.taken ++ r.taken ++ r.after = source)
    (hpass : ∀ i, r.step = .next i ∨ r.step = .drain i → passCount log ≤ i)
    (hgiven : r.given = []) (htaken : r.step ≠ .readline → r.taken = [])
    (hreadline : r.step = .readline →
      (∃ line, r.answer = .line line ∧ r.taken = [line]) ∨
        r.answer = .line "" ∧ r.taken = [] ∧ r.after = []) :
    Delivery file source log r where
  before := hbefore
  lines := hlines
  ran i := by
    rw [hran]
    refine ⟨nofun, fun ⟨hstep, hi⟩ => ?_⟩
    exact absurd (hpass i hstep) (Nat.not_le.2 hi)
  untouched _ := ⟨hgiven, htaken⟩
  readline := hreadline
  next i hstep hi := absurd (hpass i (.inl hstep)) (Nat.not_le.2 hi)
  drain i hstep hi := absurd (hpass i (.inr hstep)) (Nat.not_le.2 hi)
  idle i hi := by rw [hran] at hi; cases hi

/-- A step runs the pass that it names. -/
theorem Record.step_of_ran (hran : r.ran = some i) : r.step = .next i ∨ r.step = .drain i := by
  rw [Record.ran] at hran
  split at hran
  · next hs _ => exact .inl (by rw [hs, Option.some.inj hran])
  · next hs _ => exact .inr (by rw [hs, Option.some.inj hran])
  · cases hran

/-- A step that runs a pass: the one that may read, or one that ends at once. -/
theorem Delivery.of_ran (hran : r.ran = some i) (hi : i < passCount log)
    (hbefore : log.flatMap Record.taken ++ r.before = source)
    (hlines : log.flatMap Record.taken ++ r.taken ++ r.after = source)
    (hnext : r.step = .next i → Live log i →
      ∃ outcome, r.answer = .next outcome ∧ Meets file (linesRead log) r.before outcome r.after)
    (hdrain : r.step = .drain i → Live log i →
      ∃ outcome given, r.answer = .drained outcome given ∧
        Drains file (linesRead log) r.before outcome given r.after)
    (hidle : ¬Live log i →
      (r.answer = .next (.ok none) ∨ r.answer = .drained (.ok []) []) ∧ r.taken = []) :
    Delivery file source log r := by
  have hstep := Record.step_of_ran hran
  have hnamed {j : Nat} (hj : r.step = .next j ∨ r.step = .drain j) : j = i := by
    rcases hstep with hs | hs <;> simpa [hs, eq_comm] using hj
  refine
    { before := hbefore
      lines := hlines
      ran := fun j => ⟨?_, ?_⟩
      untouched := by rw [hran]; exact nofun
      readline := fun hs => by rcases hstep with h | h <;> rw [h] at hs <;> cases hs
      next := ?_
      drain := ?_
      idle := ?_ }
  · intro hj
    obtain rfl := Option.some.inj (hran.symm.trans hj)
    exact ⟨hstep, hi⟩
  · rintro ⟨hj, -⟩
    rw [hran, hnamed hj]
  · intro j hj _ hlive
    obtain rfl := hnamed (.inl hj)
    exact hnext hj hlive
  · intro j hj _ hlive
    obtain rfl := hnamed (.inr hj)
    exact hdrain hj hlive
  · intro j hj hlive
    obtain rfl := Option.some.inj (hran.symm.trans hj)
    exact hidle hlive

namespace Behind

theorem read (h : Behind file source log d) :
    Delivery file source log (d.record .read) ∧
      Behind file source (log ++ [d.record .read]) (d.perform .read).2 := by
  have htaken : (d.record .read).taken = [] := Record.taken_eq (by simp [record, perform])
  have hlines : log.flatMap Record.taken ++ (d.record .read).taken ++ d.reader.pending =
      source := by
    rw [htaken, List.append_nil, h.lines]
  exact ⟨.of_ran_eq_none rfl h.lines hlines (by simp [record]) rfl (fun _ => htaken)
      (by simp [record]),
    h.keep rfl rfl rfl hlines rfl⟩

theorem readline (h : Behind file source log d) :
    Delivery file source log (d.record .readline) ∧
      Behind file source (log ++ [d.record .readline]) (d.perform .readline).2 := by
  have step {line : String} {reader : Reader} {taken : List String}
      (hr : d.reader.takeLine = (line, reader)) (hfile : reader.file = d.reader.file)
      (hstarted : reader.started = d.reader.started)
      (hpending : d.reader.pending = taken ++ reader.pending)
      (hline : taken = [line] ∨ line = "" ∧ taken = [] ∧ reader.pending = []) :
      Delivery file source log (d.record .readline) ∧
        Behind file source (log ++ [d.record .readline]) (d.perform .readline).2 := by
    have hperform : d.perform .readline = (.line line, { d with reader }) := by
      rw [perform, hr]
    have hrecord : d.record .readline =
        { step := .readline, answer := .line line, before := d.reader.pending,
          after := reader.pending } := by
      rw [record, hperform]
    have htaken : (d.record .readline).taken = taken :=
      Record.taken_eq (by rw [hrecord]; exact hpending)
    have hran : (d.record .readline).ran = none := by rw [hrecord]; rfl
    have hlines : log.flatMap Record.taken ++ (d.record .readline).taken ++ reader.pending =
        source := by
      rw [htaken, List.append_assoc, ← hpending, h.lines]
    rw [hperform]
    refine ⟨.of_ran_eq_none hran h.lines (by rw [hrecord] at hlines ⊢; exact hlines) ?_ ?_ ?_ ?_,
      h.keep hran hfile hstarted hlines rfl⟩
    · simp [record]
    · rw [hrecord]
      rfl
    · exact fun hstep => absurd rfl hstep
    · rintro -
      rw [htaken, hrecord]
      rcases hline with rfl | ⟨rfl, rfl, hend⟩
      · exact .inl ⟨line, rfl, rfl⟩
      · exact .inr ⟨rfl, rfl, hend⟩
  obtain ⟨⟨file', pending, started⟩, passes⟩ := d
  cases pending with
  | nil => exact step rfl rfl rfl (List.nil_append _).symm (.inr ⟨rfl, rfl, rfl⟩)
  | cons line rest => exact step rfl rfl rfl (List.singleton_append).symm (.inl rfl)

/-- A step that names a pass that was not taken. -/
theorem absent (h : Behind file source log d) {s : Step} (hs : s = .next i ∨ s = .drain i)
    (hi : d.passes.length ≤ i) :
    Delivery file source log (d.record s) ∧
      Behind file source (log ++ [d.record s]) (d.perform s).2 := by
  have hnone : d.passes[i]? = none := List.getElem?_eq_none hi
  have hperform : d.perform s = (.nothing, d) := by
    rcases hs with rfl | rfl <;> rw [perform, hnone]
  have hrecord : d.record s =
      { step := s, answer := .nothing, before := d.reader.pending, after := d.reader.pending } := by
    rw [record, hperform]
  have htaken : (d.record s).taken = [] := Record.taken_eq (by rw [hrecord]; rfl)
  have hran : (d.record s).ran = none := by
    rw [hrecord]
    rcases hs with rfl | rfl <;> rfl
  have hlines : log.flatMap Record.taken ++ (d.record s).taken ++ d.reader.pending = source := by
    rw [htaken, List.append_nil, h.lines]
  rw [hperform]
  refine ⟨.of_ran_eq_none hran h.lines (by rw [hrecord] at hlines ⊢; exact hlines) ?_ ?_
      (fun _ => htaken) ?_,
    h.keep hran rfl rfl hlines ?_⟩
  · intro j hj
    rw [← h.passCount]
    rcases hs with rfl | rfl <;> simp only [record, Step.next.injEq, Step.drain.injEq,
      reduceCtorEq, or_false, false_or] at hj <;> omega
  · rw [hrecord]
    rfl
  · rcases hs with rfl | rfl <;> exact nofun
  · rcases hs with rfl | rfl <;> simp [record]

/-- A step that runs a pass that may not read. -/
theorem idle_step (h : Behind file source log d) {s : Step} (hs : s = .next i ∨ s = .drain i)
    (hi : i < d.passes.length) (hlive : ¬Live log i) :
    Delivery file source log (d.record s) ∧
      Behind file source (log ++ [d.record s]) (d.perform s).2 := by
  have hpass : d.passes[i]? = some d.passes[i] := List.getElem?_eq_getElem hi
  have hidle := h.idle i _ hpass hlive
  have hended {answer : Answer} {q : Record} (hq : d.record s = q)
      (hrecord : q = ⟨s, answer, d.reader.pending, d.reader.pending⟩) (hran : q.ran = some i)
      (hanswer : answer = .next (.ok none) ∨ answer = .drained (.ok []) [])
      (hperform : (d.perform s).2 = { d with passes := d.passes.set i .finished }) :
      Delivery file source log (d.record s) ∧
        Behind file source (log ++ [d.record s]) (d.perform s).2 := by
    have htaken : q.taken = [] := Record.taken_eq (by rw [hrecord]; rfl)
    have hgoes : q.goesOn = false := by rcases hanswer with rfl | rfl <;> rw [hrecord] <;> rfl
    have hstep : q.step ≠ .read := by
      rcases hs with rfl | rfl <;> rw [hrecord] <;> exact nofun
    rw [hperform, hq]
    refine ⟨.of_ran hran (h.passCount ▸ hi) (by rw [hrecord]; exact h.lines) ?_ ?_ ?_ ?_,
      h.run_idle hi hlive hran hstep htaken hgoes⟩
    · rw [htaken, List.append_nil, hrecord, h.lines]
    · exact fun _ hable => absurd hable hlive
    · exact fun _ hable => absurd hable hlive
    · exact fun _ => ⟨by rw [hrecord]; exact hanswer, htaken⟩
  rcases hs with rfl | rfl
  · have hperform : d.perform (.next i) =
        (.next (.ok none), { d with passes := d.passes.set i .finished }) := by
      simp only [perform, hpass, Reader.next_of_idle hidle]
    exact hended rfl (by rw [record, hperform]) (by rw [record, hperform]; rfl) (.inl rfl)
      (by rw [hperform])
  · have hperform : d.perform (.drain i) =
        (.drained (.ok []) [], { d with passes := d.passes.set i .finished }) := by
      simp only [perform, hpass, Reader.drain_of_idle hidle]
    exact hended rfl (by rw [record, hperform]) (by rw [record, hperform]; rfl) (.inr rfl)
      (by rw [hperform])

/-- Advancing the pass that may read. -/
theorem next_step (h : Behind file source log d) (hi : i < d.passes.length) (hlive : Live log i) :
    Delivery file source log (d.record (.next i)) ∧
      Behind file source (log ++ [d.record (.next i)]) (d.perform (.next i)).2 := by
  have hpass : d.passes[i]? = some d.passes[i] := List.getElem?_eq_getElem hi
  have hable := h.able i _ hpass hlive
  have hmeets := Reader.meets_scan file (linesRead log) d.reader.pending
  have hover := Reader.pass_scan file (linesRead log) d.reader.pending
  have hperform : d.perform (.next i) =
      (let a := Reader.scan file (linesRead log) d.reader.pending
      (.next a.outcome, { reader := { d.reader with pending := a.pending, started := true },
                          passes := d.passes.set i a.pass })) := by
    simp only [perform, hpass, Reader.next_of_able hable, h.file]
  generalize Reader.scan file (linesRead log) d.reader.pending = a at hmeets hover hperform
  obtain ⟨outcome, rest, pass⟩ := a
  simp only at hmeets hover hperform
  have hrecord : d.record (.next i) = ⟨.next i, .next outcome, d.reader.pending, rest⟩ := by
    rw [record, hperform]
  obtain ⟨taken, hpending⟩ := hmeets.exists_taken
  have htaken : (d.record (.next i)).taken = taken :=
    Record.taken_eq (by rw [hrecord]; exact hpending)
  have hran : (d.record (.next i)).ran = some i := by rw [hrecord]; rfl
  have hlines : log.flatMap Record.taken ++ (d.record (.next i)).taken ++ rest = source := by
    rw [htaken, List.append_assoc, ← hpending, h.lines]
  have hcount : linesRead log + d.reader.pending.length - rest.length =
      linesRead log + taken.length := by
    rw [hpending, List.length_append]
    omega
  have hp : pass = if (d.record (.next i)).goesOn then
      .running (linesRead log + (d.record (.next i)).taken.length) else .finished := by
    rw [hover, hcount, htaken, hrecord]
    rcases outcome with _ | _ | _ <;> rfl
  rw [hperform]
  refine ⟨.of_ran hran (h.passCount ▸ hi) h.lines (by rw [hrecord] at hlines ⊢; exact hlines)
      ?_ ?_ ?_,
    h.run_live hi hlive hran nofun rfl rfl hlines hp⟩
  · intro _ _
    rw [hrecord]
    exact ⟨outcome, rfl, hmeets⟩
  · exact nofun
  · exact fun hidle => absurd hlive hidle

/-- Draining the pass that may read. -/
theorem drain_step (h : Behind file source log d) (hi : i < d.passes.length)
    (hlive : Live log i) :
    Delivery file source log (d.record (.drain i)) ∧
      Behind file source (log ++ [d.record (.drain i)]) (d.perform (.drain i)).2 := by
  have hpass : d.passes[i]? = some d.passes[i] := List.getElem?_eq_getElem hi
  obtain ⟨outcome, given, rest, hdrains, hdrain⟩ :=
    Reader.exists_drain (h.able i _ hpass hlive)
  rw [h.file] at hdrains
  have hperform : d.perform (.drain i) =
      (.drained outcome given, { reader := { d.reader with pending := rest, started := true },
                                 passes := d.passes.set i .finished }) := by
    simp only [perform, hpass, hdrain]
  have hrecord : d.record (.drain i) =
      ⟨.drain i, .drained outcome given, d.reader.pending, rest⟩ := by
    rw [record, hperform]
  obtain ⟨taken, hpending⟩ := hdrains.exists_taken
  have htaken : (d.record (.drain i)).taken = taken :=
    Record.taken_eq (by rw [hrecord]; exact hpending)
  have hran : (d.record (.drain i)).ran = some i := by rw [hrecord]; rfl
  have hlines : log.flatMap Record.taken ++ (d.record (.drain i)).taken ++ rest = source := by
    rw [htaken, List.append_assoc, ← hpending, h.lines]
  rw [hperform]
  refine ⟨.of_ran hran (h.passCount ▸ hi) h.lines (by rw [hrecord] at hlines ⊢; exact hlines)
      ?_ ?_ ?_,
    h.run_live hi hlive hran nofun rfl rfl hlines (by rw [hrecord]; rfl)⟩
  · exact nofun
  · intro _ _
    rw [hrecord]
    exact ⟨outcome, given, rfl, hdrains⟩
  · exact fun hidle => absurd hlive hidle

/-- Every step delivers what it has to, and leaves the desk as the longer history says. -/
theorem step (h : Behind file source log d) (s : Step) :
    Delivery file source log (d.record s) ∧
      Behind file source (log ++ [d.record s]) (d.perform s).2 := by
  cases s with
  | read => exact h.read
  | readline => exact h.readline
  | next i =>
    rcases Nat.lt_or_ge i d.passes.length with hi | hi
    · rcases Classical.em (Live log i) with hlive | hlive
      · exact h.next_step hi hlive
      · exact h.idle_step (.inl rfl) hi hlive
    · exact h.absent (.inl rfl) hi
  | drain i =>
    rcases Nat.lt_or_ge i d.passes.length with hi | hi
    · rcases Classical.em (Live log i) with hlive | hlive
      · exact h.drain_step hi hlive
      · exact h.idle_step (.inr rfl) hi hlive
    · exact h.absent (.inr rfl) hi

/-- Every step of a history delivers what it has to. -/
theorem history (h : Behind file source log d) (steps : List Step) {before after : List Record}
    (hsplit : d.history steps = before ++ r :: after) :
    Delivery file source (log ++ before) r := by
  induction steps generalizing log d before with
  | nil => simp [Desk.history] at hsplit
  | cons s steps ih =>
    obtain ⟨hdelivery, hbehind⟩ := h.step s
    cases before with
    | nil =>
      obtain ⟨rfl, -⟩ := List.cons.inj hsplit
      simpa using hdelivery
    | cons q before =>
      obtain ⟨rfl, hrest⟩ := List.cons.inj hsplit
      simpa using ih hbehind hrest

end Behind

/-! ## Histories -/

/-- An instruction that a step gives is on one of the lines before it, counted behind the lines that
passes took. -/
theorem Delivery.exists_line (h : Delivery file source log r) {i : Instruction}
    (hi : i ∈ r.given) :
    ∃ (k : Nat) (line : String), r.before[k]? = some line ∧
      readLine file (linesRead log + k + 1) line = .ok (some i) := by
  obtain ⟨j, hj⟩ : ∃ j, r.ran = some j := by
    rw [← Option.ne_none_iff_exists']
    intro hnone
    rw [(h.untouched hnone).1] at hi
    cases hi
  have hlive : Live log j := by
    by_contra hidle
    obtain ⟨hanswer, -⟩ := h.idle j hj hidle
    rcases hanswer with hanswer | hanswer <;> simp [Record.given, hanswer] at hi
  obtain ⟨hstep, hlt⟩ := (h.ran j).1 hj
  rcases hstep with hstep | hstep
  · obtain ⟨outcome, hanswer, hmeets⟩ := h.next j hstep hlt hlive
    rw [Record.given, hanswer] at hi
    generalize r.before = before, r.after = rest at hmeets ⊢
    cases hmeets with
    | @instruction silent _ line _ _ hread =>
      obtain rfl := List.mem_singleton.1 hi
      exact ⟨silent.length, line, by simp, hread⟩
    | fault => cases hi
    | nothing => cases hi
  · obtain ⟨outcome, given, hanswer, hdrains⟩ := h.drain j hstep hlt hlive
    rw [Record.given, hanswer] at hi
    generalize r.before = before, r.after = rest at hdrains ⊢
    cases hdrains with
    | all hreads => exact hreads.exists_line hi
    | fault hreads =>
      obtain ⟨k, line, hline, hread⟩ := hreads.exists_line hi
      have hk := (List.getElem?_eq_some_iff.1 hline).1
      exact ⟨k, line, by rw [List.getElem?_append_left hk, hline], hread⟩

/-- While no line is taken as it is, all that are taken are taken by passes. -/
theorem linesRead_eq_length (hlog : ∀ q ∈ log, q.ran = none → q.taken = []) :
    linesRead log = (log.flatMap Record.taken).length := by
  induction log with
  | nil => rfl
  | cons q log ih =>
    have ih := ih fun q hq => hlog q (List.mem_cons_of_mem _ hq)
    rw [linesRead] at ih ⊢
    rw [List.flatMap_cons, List.length_append, ← ih]
    cases hran : q.ran with
    | none => simp [hran, hlog q List.mem_cons_self hran]
    | some j => simp [hran]

theorem map_step_history (d : Desk) (steps : List Step) :
    (d.history steps).map Record.step = steps := by
  induction steps generalizing d with
  | nil => rfl
  | cons s steps ih => rw [history, List.map_cons, ih]; rfl

/-- A desk that was just opened has no history. -/
theorem Behind.opened (file source : String) :
    Behind file ((Text.lines source.toList).map String.ofList) [] (opened file source) where
  file := rfl
  lines := rfl
  passCount := rfl
  ran _ hr := absurd hr List.not_mem_nil
  started := rfl
  able i _ hp := by simp [Desk.opened] at hp
  idle i _ hp := by simp [Desk.opened] at hp

end

end

/-- Each line is delivered once, whatever is asked of a desk and in whatever order: the lines that
were taken are the first of the source, every step delivers what it has to, and as long as no line
is taken as it is every instruction stands where it says. -/
theorem delivered_once (file source : String) (steps : List Step) :
    let log := history (opened file source) steps
    let ls := (lines source.toList).map String.ofList
    log.map Record.step = steps ∧ log.flatMap Record.taken <+: ls ∧
      (∀ before r after, log = before ++ r :: after → Delivery file ls before r) ∧
      (.readline ∉ steps → ∀ r ∈ log, ∀ i ∈ r.given, ∃ (k : Nat) (line : String),
        ls[k]? = some line ∧ readLine file (k + 1) line = .ok (some i) ∧
        i.location = some { file, line := k + 1, column := firstColumn line.toList } ∧
        StartsAt line.toList (firstColumn line.toList)) := by
  intro log ls
  have hsteps : log.map Record.step = steps := map_step_history _ steps
  have hdelivery {before after : List Record} {r : Record} (hsplit : log = before ++ r :: after) :
      Delivery file ls before r := by
    simpa using (Behind.opened file source).history steps hsplit
  refine ⟨hsteps, ?_, fun before r after => hdelivery, ?_⟩
  · rcases List.eq_nil_or_concat log with hnil | ⟨before, r, hlast⟩
    · rw [hnil]
      exact List.nil_prefix
    · rw [List.concat_eq_append] at hlast
      refine ⟨r.after, ?_⟩
      rw [hlast, List.flatMap_append, List.flatMap_singleton]
      exact (hdelivery hlast).lines
  · intro hnot r hr i hi
    obtain ⟨before, after, hsplit⟩ := List.append_of_mem hr
    have hread : linesRead before = (before.flatMap Record.taken).length := by
      refine linesRead_eq_length fun q hq hran => ?_
      obtain ⟨first, between, rfl⟩ := List.append_of_mem hq
      have hq : Delivery file ls first q := hdelivery (by simpa using hsplit)
      refine (hq.untouched hran).2 fun hstep => hnot ?_
      rw [← hsteps, hsplit]
      simp [← hstep]
    obtain ⟨k, line, hline, hread'⟩ := (hdelivery hsplit).exists_line hi
    refine ⟨linesRead before + k, line, ?_, hread', location_of_readLine hread'⟩
    rw [← (hdelivery hsplit).before, hread, List.getElem?_append_right (Nat.le_add_right _ _),
      Nat.add_sub_cancel_left, hline]

/-- A source whose third line is no command. -/
def brokenSource : String := "// first\n  push constant 1\nbad\nadd\n"

/-- Two passes over it, of which the second is run first, and one line that is taken as it is. -/
def brokenSteps : List Step := [.read, .read, .next 1, .next 0, .next 1, .readline, .next 1]

def brokenHistory : List Record := history (opened "Main.vm" brokenSource) brokenSteps

/-- The second pass may read until it meets the line that is no command. -/
theorem delivered_once_brokenSource :
    brokenHistory.map Record.taken =
        [[], [], ["// first\n", "  push constant 1\n"], [], ["bad\n"], ["add\n"], []] ∧
      Live (brokenHistory.take 4) 1 ∧ ¬Live (brokenHistory.take 6) 1 ∧
      (∀ r : Record, brokenHistory[4]? = some r → ∃ f : Fault, r.answer = .next (.error f) ∧
        Meets "Main.vm" 2 ["bad\n", "add\n"] (.error f) ["add\n"]) ∧
      ∀ r : Record, brokenHistory[6]? = some r → r.taken = [] := by
  have hlive : Live (brokenHistory.take 4) 1 := by decide +kernel
  have hover : ¬Live (brokenHistory.take 6) 1 := by decide +kernel
  obtain ⟨hsteps, -, hdelivery, -⟩ := delivered_once "Main.vm" brokenSource brokenSteps
  rw [← brokenHistory] at hsteps hdelivery
  have hat {k : Nat} {r : Record} (hr : brokenHistory[k]? = some r) :
      Delivery "Main.vm" ((lines brokenSource.toList).map String.ofList)
        (brokenHistory.take k) r := by
    obtain ⟨hk, hr⟩ := List.getElem?_eq_some_iff.1 hr
    apply hdelivery _ r (brokenHistory.drop (k + 1))
    rw [← hr, ← List.drop_eq_getElem_cons hk, List.take_append_drop]
  have hstep {k : Nat} {r : Record} (hr : brokenHistory[k]? = some r) :
      brokenSteps[k]? = some r.step := by
    rw [← hsteps, List.getElem?_map, hr, Option.map_some]
  refine ⟨by decide +kernel, hlive, hover, fun r hr => ?_, fun r hr => ?_⟩
  · have hbefore : brokenHistory[4]?.map Record.before = some ["bad\n", "add\n"] := by
      decide +kernel
    have hafter : brokenHistory[4]?.map Record.after = some ["add\n"] := by decide +kernel
    have hgiven : brokenHistory[4]?.map Record.given = some [] := by decide +kernel
    rw [hr] at hbefore hafter hgiven
    obtain ⟨outcome, hanswer, hmeets⟩ :=
      (hat hr).next 1 (Option.some.inj (hstep hr)).symm (by decide +kernel) hlive
    rw [Option.some.inj hbefore, Option.some.inj hafter] at hmeets
    have hread : linesRead (brokenHistory.take 4) = 2 := by decide +kernel
    rw [hread] at hmeets
    rcases outcome with f | (_ | i)
    · exact ⟨f, hanswer, hmeets⟩
    · generalize ["bad\n", "add\n"] = before at hmeets
      cases hmeets
    · simp [Record.given, hanswer] at hgiven
  · have hran : r.ran = some 1 := ((hat hr).ran 1).2
      ⟨.inl (Option.some.inj (hstep hr)).symm, by decide +kernel⟩
    exact ((hat hr).idle 1 hran hover).2

end Desk

end HackToolchain.Vm
