import HackToolchain.Codegen.Emitter

/-!
# Operations that roll back

An emitter can also be run as its operations go along. Lines are queued bunch by bunch, counters
move in between, operations are made of other operations, and what fails has done something already.
Only the outermost operation hands the queue over when it is complete, and takes back what was done
when something failed (`Method.atomic`). This comes to the same as completing a draft before
anything changes (`Method.ofRequest_eq_write`).

Within an operation, a method queues the code of a draft and moves the counters as far as the draft
does, or it fails (`Method.Drafts`). Methods one behind the other put their drafts together
(`Method.Drafts.append`), and an operation within another one is just a part of it
(`Method.Drafts.atomic`).
-/

set_option autoImplicit false

namespace HackToolchain.Codegen

open Text Machine Vm

/-! ## Methods -/

/-- An emitter at work, with the lines that are queued if an operation is in progress. -/
structure Work where
  emitter : Emitter
  queue : Option Code := none

/-- What is done with an emitter at work. If it fails, it may have done something before. -/
abbrev Method := Work → Except Fault Unit × Work

namespace Method

def done : Method := fun w => (.ok (), w)

def fail (f : Vm.Fault) : Method := fun w => (.error (.command f), w)

/-- A method and, unless it fails, another one behind it. -/
def andThen (first second : Method) : Method := fun w =>
  match first w with
  | (.ok (), w) => second w
  | (.error f, w) => (.error f, w)

/-- A method that depends on how the emitter is when its turn comes. -/
def ofEmitter (f : Emitter → Method) : Method := fun w => f w.emitter w

/-- Queues lines, unless one of them cannot be written. -/
def emit (code : Code) : Method := fun w =>
  if code.all Line.fits then (.ok (), { w with queue := w.queue.map (· ++ code) })
  else (.error (.command (.number .tooLongToWrite)), w)

/-- Queues lines bunch by bunch. -/
def emitAll : List Code → Method
  | [] => done
  | code :: codes => (emit code).andThen (emitAll codes)

/-- Writes a number out, unless it is too long. -/
def writeOut (n : Int) : Method :=
  if Decimal.fits n then done else fail (.number .tooLongToWrite)

/-- Moves the counters. -/
def count (f : Counters → Counters) : Method := fun w =>
  (.ok (), { w with emitter := { w.emitter with counters := f w.emitter.counters } })

/-- Says of a command that is rejected where it stands. -/
def located (location : Option Location) (sourceLine : Option String) (m : Method) : Method :=
  fun w =>
    match m w with
    | (.error (.command f), w) => (.error (.command (f.locate location sourceLine)), w)
    | outcome => outcome

/-- Makes an operation of a method. The outermost operation opens a queue and hands it over at the
end; if something fails, the queue is dropped and the counters go back to where they were. -/
def atomic (m : Method) : Method := fun w =>
  match w.queue with
  | some _ => m w
  | none =>
    match m { w with queue := some [] } with
    | (.error f, w') => (.error f, ⟨{ w'.emitter with counters := w.emitter.counters }, none⟩)
    | (.ok (), w') =>
      let (outcome, e) := w'.emitter.commit ⟨w'.queue.getD [], w'.emitter.counters⟩
      (outcome, ⟨e, none⟩)

/-! ## The operations of an emitter -/

def comment (text : String) : Method := atomic (emit [.comment text])

/-- Compares; the number of the comparison counts when its code is queued. -/
def compare (j : Jump) : Method :=
  ofEmitter fun e =>
    let n := e.counters.comparisons
    (emitAll
      [[.toD (.yMinusD .m), .load (.comparison .holds n), .jumpOnD j], pointAtTop,
        [.toM .zero, .load (.comparison .done n), .jump], [.define (.comparison .holds n)],
        pointAtTop, [.toM .minusOne, .define (.comparison .done n)]]).andThen
      (count fun k => { k with comparisons := k.comparisons + 1 })

def combine (op : Operator) : Method :=
  match unary? op, comparisonJump? op with
  | some c, _ => emit [.toM c]
  | none, some j => compare j
  | none, none => emit [.toM (binary op)]

def operator (name : String) : Method :=
  atomic <|
    match Operator.ofName? name with
    | none => fail (Cause.unknownOperator name).fault
    | some op =>
      (emitAll [if op.isUnary then [] else popD, decrementSp, pointAtTop]).andThen <|
        (combine op).andThen (emit incrementSp)

def move (kind : CommandKind) (segment : String) (index : Int) : Method :=
  atomic <| ofEmitter fun e =>
    match moveCode e.module kind segment index with
    | .error f => fail f
    | .ok code => emit code

def label (name : String) : Method := atomic <| ofEmitter fun e => emit (labelCode e.module name)

def goto (name : String) : Method := atomic <| ofEmitter fun e => emit (gotoCode e.module name)

def ifGoto (name : String) : Method :=
  atomic <| ofEmitter fun e => emitAll [popD, [.load (.label e.module name), .jumpOnD .ne]]

def function (name : String) (localCount : Int) : Method :=
  atomic <|
    emitAll ([.define (.function name)] :: List.replicate localCount.toNat (.toD .zero :: pushD))

/-- The code of a call in the bunches in which it is queued. -/
def callBunches (module : Option String) (number : Int) (name : String) (argumentCount : Int) :
    List Code :=
  [[.load (.returnAddress module number), .toD (.y .a)], pushD] ++ savedRegisters.map saveCode ++
    [[.load (.register .sp), .toD (.y .m), .number (argumentCount + frameSize), .toD (.dMinusY .a),
        .load (.register .arg), .toM .d],
      [.load (.register .sp), .toD (.y .m), .load (.register .lcl), .toM .d],
      [.load (.function name), .jump], [.define (.returnAddress module number)]]

/-- Calls. The number of the call is written out first, and the call counts before any of its code
is queued. -/
def call (name : String) (argumentCount : Int) : Method :=
  atomic <| ofEmitter fun e =>
    (writeOut e.counters.calls).andThen <|
      (count fun k => { k with calls := k.calls + 1 }).andThen <|
        emitAll (callBunches e.module e.counters.calls name argumentCount)

def «return» : Method := atomic (emit returnCode)

/-- Writes a comment if comments are wanted; its text may have a number in it that is too long. -/
def commentOn (e : Emitter) (text : Except Decimal.Fault String) : Method :=
  if e.scope.comments then
    match text with
    | .error f => fail (.number f)
    | .ok text => comment text
  else done

/-- What is told of the bootstrap code. -/
def bootstrapText (entry : String) (stackBase : Int) : Except Decimal.Fault String :=
  if Decimal.fits stackBase then
    .ok ("bootstrap: SP=" ++ Decimal.render stackBase ++ "; call " ++ entry ++ " 0")
  else .error .tooLongToWrite

def bootstrap (entry : String) (stackBase : Int) : Method :=
  atomic <| ofEmitter fun e =>
    (commentOn e (bootstrapText entry stackBase)).andThen <|
      (emitAll [numberToD stackBase, [.load (.register .sp), .toM .d]]).andThen (call entry 0)

def ofCommand : Command → Method
  | .arithmetic name => operator name
  | .push segment index => move .push segment index
  | .pop segment index => move .pop segment index
  | .label name => label name
  | .goto name => goto name
  | .ifGoto name => ifGoto name
  | .function name n => function name n
  | .call name n => call name n
  | .return => «return»

def instruction (i : Instruction) : Method :=
  atomic <| ofEmitter fun e =>
    located i.location (if i.text = "" then none else some i.text) <|
      (commentOn e i.render).andThen (ofCommand i.command)

def ofRequest : Request → Method
  | .operator name => operator name
  | .move kind segment index => move kind segment index
  | .label name => label name
  | .goto name => goto name
  | .ifGoto name => ifGoto name
  | .function name n => function name n
  | .call name n => call name n
  | .return => «return»
  | .bootstrap entry stackBase => bootstrap entry stackBase
  | .comment text => comment text
  | .instruction i => instruction i

/-! ## Drafts -/

/-- A draft, if all of its lines can be written. It stays folded, since the bound on numbers is a
power that must not be computed when drafts are compared. -/
@[irreducible]
def checked (d : Draft) : Except Vm.Fault Draft :=
  if d.code.all Line.fits then .ok d else .error (.number .tooLongToWrite)

theorem checked_of_fits {c : Code} {k : Counters} (h : c.all Line.fits = true) :
    checked ⟨c, k⟩ = .ok ⟨c, k⟩ := by rw [checked, if_pos h]

theorem checked_of_not_fits {c : Code} {k : Counters} (h : ¬c.all Line.fits = true) :
    checked ⟨c, k⟩ = .error (.number .tooLongToWrite) := by rw [checked, if_neg h]

/-- A draft that can be written has no line with a number on it that is too long. -/
theorem fits_of_mem {c : Code} {l : Line} {n : Int} (h : c.all Line.fits = true) (hmem : l ∈ c)
    (hn : l.number? = some n) : Decimal.fits n = true := by
  have hline := List.all_eq_true.1 h l hmem
  rwa [Line.fits, hn, Option.all_some] at hline

/-- A line that cannot be written is no fault of the command, so there is nothing to locate. -/
theorem mapError_bind_checked (r : Except Vm.Fault Draft) (location : Option Location)
    (sourceLine : Option String) :
    (r.bind checked).mapError (·.locate location sourceLine) =
      (r.mapError (·.locate location sourceLine)).bind checked := by
  cases r with
  | error f => rfl
  | ok d =>
    show (checked d).mapError _ = checked d
    by_cases hfits : d.code.all Line.fits = true
    · rw [checked_of_fits hfits]
      rfl
    · rw [checked_of_not_fits hfits]
      rfl

/-- What a method does to an emitter while an operation is in progress: it queues a draft and moves
the counters as far as the draft does, or it fails, having queued and counted something perhaps. -/
inductive Drafts (m : Method) (e : Emitter) : Except Vm.Fault Draft → Prop
  | ok {d : Draft} (h : ∀ queued, m ⟨e, some queued⟩ =
      (.ok (), ⟨{ e with counters := d.counters }, some (queued ++ d.code)⟩)) : Drafts m e (.ok d)
  | error {f : Vm.Fault} (h : ∀ queued, ∃ counters queued', m ⟨e, some queued⟩ =
      (.error (.command f), ⟨{ e with counters }, some queued'⟩)) : Drafts m e (.error f)

namespace Drafts

variable {m first second : Method} {e : Emitter} {d : Draft} {f : Vm.Fault} {c c' : Code}
  {k k' : Counters} {r : Except Vm.Fault Draft}

theorem done : Drafts done e (checked ⟨[], e.counters⟩) := by
  rw [checked_of_fits rfl]
  exact .ok fun queued => by rw [Method.done, List.append_nil]

theorem fail (f : Vm.Fault) : Drafts (fail f) e (.error f) :=
  .error fun queued => ⟨e.counters, queued, rfl⟩

theorem count (g : Counters → Counters) : Drafts (count g) e (checked ⟨[], g e.counters⟩) := by
  rw [checked_of_fits rfl]
  exact .ok fun queued => by rw [Method.count, List.append_nil]

theorem ofEmitter {g : Emitter → Method} (h : Drafts (g e) e r) : Drafts (ofEmitter g) e r := by
  cases h with
  | ok h => exact .ok h
  | error h => exact .error h

/-- An operation within another one is a part of it. -/
theorem atomic (h : Drafts m e r) : Drafts (atomic m) e r := by
  cases h with
  | ok h => exact .ok h
  | error h => exact .error h

theorem emit (code : Code) : Drafts (emit code) e (checked ⟨code, e.counters⟩) := by
  unfold checked
  split
  · next hfits => exact .ok fun queued => by simp [Method.emit, hfits]
  · next hfits => exact .error fun queued => ⟨e.counters, queued, by simp [Method.emit, hfits]⟩

theorem andThen (h : Drafts first e (.ok d))
    (h' : Drafts second { e with counters := d.counters } r) :
    Drafts (first.andThen second) e (r.map fun d' => ⟨d.code ++ d'.code, d'.counters⟩) := by
  cases h with
  | ok h =>
    cases h' with
    | ok h' => exact .ok fun queued => by simp [Method.andThen, h, h', List.append_assoc]
    | error h' =>
      refine .error fun queued => ?_
      obtain ⟨counters, queued', h'⟩ := h' (queued ++ d.code)
      exact ⟨counters, queued', by simp [Method.andThen, h, h']⟩

theorem andThen_of_error (h : Drafts first e (.error f)) :
    Drafts (first.andThen second) e (.error f) := by
  cases h with
  | error h =>
    refine .error fun queued => ?_
    obtain ⟨counters, queued', h⟩ := h queued
    exact ⟨counters, queued', by simp [Method.andThen, h]⟩

/-- Methods one behind the other queue the code of the one and then that of the other. -/
theorem append (h : Drafts first e (checked ⟨c, k⟩))
    (h' : Drafts second { e with counters := k } (checked ⟨c', k'⟩)) :
    Drafts (first.andThen second) e (checked ⟨c ++ c', k'⟩) := by
  by_cases hc : c.all Line.fits = true
  · rw [checked_of_fits hc] at h
    have hboth := h.andThen h'
    have hsame : checked ⟨c ++ c', k'⟩ =
        (checked ⟨c', k'⟩).map fun d' => ⟨c ++ d'.code, d'.counters⟩ := by
      unfold checked
      rw [List.all_append, hc, Bool.true_and]
      split <;> rfl
    rw [hsame]
    exact hboth
  · have happend : ¬(c ++ c').all Line.fits = true := by
      rw [List.all_append, Bool.and_eq_true]
      exact fun hall => hc hall.1
    rw [checked_of_not_fits hc] at h
    rw [checked_of_not_fits happend]
    exact h.andThen_of_error

theorem emitAll (codes : List Code) :
    Drafts (emitAll codes) e (checked ⟨codes.flatten, e.counters⟩) := by
  induction codes with
  | nil => exact done
  | cons code codes ih => exact (emit code).append ih

theorem located (location : Option Location) (sourceLine : Option String) (h : Drafts m e r) :
    Drafts (located location sourceLine m) e (r.mapError (·.locate location sourceLine)) := by
  cases h with
  | ok h => exact .ok fun queued => by simp [Method.located, h]
  | error h =>
    refine .error fun queued => ?_
    obtain ⟨counters, queued', h⟩ := h queued
    exact ⟨counters, queued', by simp [Method.located, h]⟩

end Drafts

/-! ## What the operations draft -/

section

variable {e : Emitter}

theorem drafts_comment (text : String) :
    Drafts (comment text) e (checked ⟨[.comment text], e.counters⟩) :=
  (Drafts.emit [.comment text]).atomic

theorem drafts_compare (j : Jump) :
    Drafts (compare j) e (checked ⟨comparison j e.counters.comparisons,
      { e.counters with comparisons := e.counters.comparisons + 1 }⟩) := by
  rw [← List.append_nil (comparison j e.counters.comparisons)]
  refine Drafts.ofEmitter (Drafts.append ?_ (Drafts.count _))
  exact Drafts.emitAll _

theorem drafts_combine (op : Operator) :
    Drafts (combine op) e (checked ⟨Codegen.combine op e.counters.comparisons,
      { e.counters with
        comparisons := e.counters.comparisons + if op.isComparison then 1 else 0 }⟩) := by
  have hkeep : { e.counters with comparisons := e.counters.comparisons + 0 } = e.counters := by
    rw [Int.add_zero]
  cases op with
  | eq | gt | lt => exact drafts_compare _
  | add | sub | neg | and | or | not =>
    simp only [Operator.isComparison, Bool.false_eq_true, if_false, hkeep]
    exact Drafts.emit _

theorem drafts_operator (name : String) :
    Drafts (operator name) e ((Scope.draftOperator e.counters name).bind checked) := by
  unfold operator Scope.draftOperator
  refine Drafts.atomic ?_
  cases Operator.ofName? name with
  | none => exact Drafts.fail _
  | some op =>
    have hcode : operatorCode op e.counters.comparisons =
        [if op.isUnary then [] else popD, decrementSp, pointAtTop].flatten ++
          (Codegen.combine op e.counters.comparisons ++ incrementSp) := by
      simp [operatorCode]
    simp only [Except.bind, hcode]
    exact (Drafts.emitAll _).append ((drafts_combine op).append (Drafts.emit _))

theorem drafts_move (kind : CommandKind) (segment : String) (index : Int) :
    Drafts (move kind segment index) e
      (((moveCode e.module kind segment index).map (Scope.plain e.counters)).bind checked) := by
  refine Drafts.atomic (Drafts.ofEmitter ?_)
  cases moveCode e.module kind segment index with
  | error f => exact Drafts.fail f
  | ok code => exact Drafts.emit code

theorem drafts_ifGoto (name : String) :
    Drafts (ifGoto name) e (checked ⟨ifGotoCode e.module name, e.counters⟩) := by
  have hcode : ifGotoCode e.module name =
      [popD, [.load (.label e.module name), .jumpOnD .ne]].flatten := by simp [ifGotoCode]
  rw [hcode]
  exact Drafts.atomic (Drafts.ofEmitter (Drafts.emitAll _))

theorem drafts_function (name : String) (localCount : Int) :
    Drafts (function name localCount) e (checked ⟨functionCode name localCount, e.counters⟩) := by
  have hcode : functionCode name localCount =
      ([.define (.function name)] ::
        List.replicate localCount.toNat (.toD .zero :: pushD)).flatten := by
    simp [functionCode, zeroLocals]
  rw [hcode]
  exact Drafts.atomic (Drafts.emitAll _)

theorem flatten_callBunches (module : Option String) (number : Int) (name : String)
    (argumentCount : Int) :
    (callBunches module number name argumentCount).flatten =
      callCode module number name argumentCount := by
  simp [callBunches, callCode, List.flatMap_def]

theorem drafts_call (name : String) (argumentCount : Int) :
    Drafts (call name argumentCount) e
      (checked ⟨callCode e.module e.counters.calls name argumentCount,
        { e.counters with calls := e.counters.calls + 1 }⟩) := by
  have hcode := flatten_callBunches e.module e.counters.calls name argumentCount
  refine Drafts.atomic (Drafts.ofEmitter ?_)
  unfold writeOut
  rw [← hcode]
  by_cases hn : Decimal.fits e.counters.calls = true
  · rw [if_pos hn]
    exact Drafts.done.append ((Drafts.count _).append (Drafts.emitAll _))
  · -- The number is on the line that loads the return address.
    have hfits : ¬(callBunches e.module e.counters.calls name argumentCount).flatten.all
        Line.fits = true := by
      intro hall
      have hmem : Line.load (.returnAddress e.module e.counters.calls) ∈
          callCode e.module e.counters.calls name argumentCount := by
        simp [callCode]
      rw [hcode] at hall
      exact hn (fits_of_mem hall hmem rfl)
    rw [if_neg hn, checked_of_not_fits hfits]
    exact (Drafts.fail _).andThen_of_error

theorem drafts_return : Drafts «return» e (checked ⟨returnCode, e.counters⟩) :=
  (Drafts.emit returnCode).atomic

@[simp]
theorem done_andThen (m : Method) : done.andThen m = m := rfl

@[simp]
theorem fail_andThen (f : Vm.Fault) (m : Method) : (fail f).andThen m = fail f := rfl

theorem commentOn_off (h : e.scope.comments = false) (text : Except Decimal.Fault String) :
    commentOn e text = done := by
  simp [commentOn, h]

theorem commentOn_error (h : e.scope.comments = true) (f : Decimal.Fault) :
    commentOn e (.error f) = fail (.number f) := by
  simp [commentOn, h]

/-- A comment in front of what is drafted, if comments are wanted. -/
theorem Drafts.annotated {m : Method} {r : Except Vm.Fault Draft} (h : Drafts m e (r.bind checked))
    (text : String) :
    Drafts ((commentOn e (.ok text)).andThen m) e
      ((r.map (e.scope.annotate text)).bind checked) := by
  have hcomment : Drafts (commentOn e (.ok text)) e
      (.ok ⟨if e.scope.comments then [.comment text] else [], e.counters⟩) := by
    unfold commentOn
    rw [← checked_of_fits (by cases e.scope.comments <;> rfl)]
    cases e.scope.comments with
    | false => exact Drafts.done
    | true => exact drafts_comment text
  cases r with
  | error f => exact hcomment.andThen h
  | ok d =>
    have hannotate : e.scope.annotate text d =
        ⟨(if e.scope.comments then [.comment text] else []) ++ d.code, d.counters⟩ := by
      unfold Scope.annotate
      cases e.scope.comments <;> rfl
    simp only [Except.map, Except.bind, hannotate]
    rw [← checked_of_fits (by cases e.scope.comments <;> rfl)] at hcomment
    exact hcomment.append h

theorem drafts_bootstrap (entry : String) (stackBase : Int) :
    Drafts (bootstrap entry stackBase) e
      ((e.scope.draftBootstrap e.counters entry stackBase).bind checked) := by
  have hcode : bootstrapCode e.module e.counters.calls entry stackBase =
      [numberToD stackBase, [.load (.register .sp), .toM .d]].flatten ++
        callCode e.module e.counters.calls entry 0 := by
    simp [bootstrapCode]
  have hboot : Drafts ((emitAll [numberToD stackBase, [.load (.register .sp), .toM .d]]).andThen
      (call entry 0)) e (checked ⟨bootstrapCode e.module e.counters.calls entry stackBase,
        { e.counters with calls := e.counters.calls + 1 }⟩) := by
    rw [hcode]
    exact (Drafts.emitAll _).append (drafts_call entry 0)
  refine Drafts.atomic (Drafts.ofEmitter ?_)
  unfold Scope.draftBootstrap bootstrapText
  by_cases hbase : Decimal.fits stackBase = true
  · rw [if_pos hbase, if_pos hbase]
    exact Drafts.annotated (r := .ok _) hboot _
  · rw [if_neg hbase, if_neg hbase]
    cases hon : e.scope.comments with
    | false =>
      -- Without comments the code itself has the number on a line.
      have hfits : ¬(bootstrapCode e.module e.counters.calls entry stackBase).all
          Line.fits = true := by
        intro hall
        have hmem : Line.number stackBase ∈
            bootstrapCode e.module e.counters.calls entry stackBase := by
          simp [bootstrapCode, numberToD]
        exact hbase (fits_of_mem hall hmem rfl)
      rw [commentOn_off hon, done_andThen]
      rwa [checked_of_not_fits hfits] at hboot
    | true =>
      rw [commentOn_error hon, fail_andThen]
      exact Drafts.fail _

theorem drafts_ofCommand (c : Command) :
    Drafts (ofCommand c) e ((e.scope.draftCommand e.counters c).bind checked) := by
  cases c with
  | arithmetic name => exact drafts_operator name
  | push segment index => exact drafts_move .push segment index
  | pop segment index => exact drafts_move .pop segment index
  | label name => exact Drafts.atomic (Drafts.ofEmitter (Drafts.emit _))
  | goto name => exact Drafts.atomic (Drafts.ofEmitter (Drafts.emit _))
  | ifGoto name => exact drafts_ifGoto name
  | function name n => exact drafts_function name n
  | call name n => exact drafts_call name n
  | «return» => exact drafts_return

theorem drafts_instruction (i : Instruction) :
    Drafts (instruction i) e ((e.scope.draftInstruction e.counters i).bind checked) := by
  have hcommand := drafts_ofCommand (e := e) i.command
  refine Drafts.atomic (Drafts.ofEmitter ?_)
  unfold Scope.draftInstruction
  cases hon : e.scope.comments with
  | false =>
    rw [commentOn_off hon, done_andThen]
    simp only [Bool.false_eq_true, if_false, ← mapError_bind_checked]
    exact hcommand.located _ _
  | true =>
    cases hrender : i.render with
    | error f =>
      rw [commentOn_error hon, fail_andThen]
      exact (Drafts.fail _).located _ _
    | ok text =>
      have hmap : ∀ (r : Except Vm.Fault Draft) (g : Vm.Fault → Vm.Fault) (a : Draft → Draft),
          (r.mapError g).map a = (r.map a).mapError g := by
        rintro (f | d) g a <;> rfl
      simp only [if_true, hmap, ← mapError_bind_checked]
      exact (hcommand.annotated text).located _ _

theorem drafts_ofRequest (r : Request) :
    Drafts (ofRequest r) e ((e.scope.draft e.counters r).bind checked) := by
  cases r with
  | operator name => exact drafts_operator name
  | move kind segment index => exact drafts_move kind segment index
  | label name => exact drafts_ofCommand (.label name)
  | goto name => exact drafts_ofCommand (.goto name)
  | ifGoto name => exact drafts_ofCommand (.ifGoto name)
  | function name n => exact drafts_ofCommand (.function name n)
  | call name n => exact drafts_ofCommand (.call name n)
  | «return» => exact drafts_ofCommand .return
  | bootstrap entry stackBase => exact drafts_bootstrap entry stackBase
  | comment text => exact drafts_comment text
  | instruction i => exact drafts_instruction i

/-! ## The outermost operation -/

/-- An operation is one already. -/
theorem atomic_atomic (m : Method) : atomic (atomic m) = atomic m := by
  funext w
  obtain ⟨e, _ | queued⟩ := w <;> rfl

theorem atomic_ofRequest (r : Request) : atomic (ofRequest r) = ofRequest r := by
  cases r <;>
    simp only [ofRequest, operator, move, label, goto, ifGoto, function, call, «return», bootstrap,
      comment, instruction, atomic_atomic]

/-- An operation that drafts something takes the draft, and is as if it had never been when it
fails. -/
theorem atomic_of_ok {m : Method} {d : Draft} (h : Drafts m e (.ok d)) :
    atomic m ⟨e, none⟩ = ((e.commit d).1, ⟨(e.commit d).2, none⟩) := by
  cases h with
  | ok h => simp [atomic, h, Emitter.commit]

theorem atomic_of_error {m : Method} {f : Vm.Fault} (h : Drafts m e (.error f)) :
    atomic m ⟨e, none⟩ = (.error (.command f), ⟨e, none⟩) := by
  cases h with
  | error h =>
    obtain ⟨counters, queued, h⟩ := h []
    simp [atomic, h]

theorem write_eq (e : Emitter) (r : Request) :
    e.write r = match (e.scope.draft e.counters r).bind checked with
      | .error f => (.error (.command f), e)
      | .ok d => e.commit d := by
  unfold Emitter.write
  cases e.scope.draft e.counters r with
  | error f => rfl
  | ok d =>
    by_cases hfits : d.code.all Line.fits = true
    · simp only [Except.bind, checked_of_fits hfits, hfits, if_true]
    · simp only [Except.bind, checked_of_not_fits hfits, if_neg hfits]

/-- Queueing lines as an operation goes along, and taking back what was done when it fails, writes
what completing the draft first does. -/
theorem ofRequest_eq_write (e : Emitter) (r : Request) :
    ofRequest r ⟨e, none⟩ = ((e.write r).1, ⟨(e.write r).2, none⟩) := by
  have hdrafts := drafts_ofRequest (e := e) r
  rw [← atomic_ofRequest, write_eq]
  cases hr : (e.scope.draft e.counters r).bind checked with
  | error f =>
    rw [hr] at hdrafts
    exact atomic_of_error hdrafts
  | ok d =>
    rw [hr] at hdrafts
    exact atomic_of_ok hdrafts

end

end Method

end HackToolchain.Codegen
