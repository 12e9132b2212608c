import HackToolchain.Codegen.Program
import HackToolchain.Proofs.Codegen.Rendering
import HackToolchain.Proofs.Text.Words

/-!
# The tasks of a program

A program is a list of tasks: the bootstrap, if it is wanted, and the commands of its modules in
order. An emitter that translates the program drafts the code of the tasks one after the other
(`Drafts`) and writes it, with comments between (`Wrote`). To the assembler the comments say nothing
(`readCode_withoutComments`).
-/

set_option autoImplicit false

namespace HackToolchain.Codegen

open Text Vm Asm

/-! ## Tasks -/

/-- What a piece of code is for. -/
inductive Job where
  /-- Sets the stack pointer and calls a function. -/
  | bootstrap (entry : String) (stackBase : Int)
  | command (c : Command)
  deriving Repr, DecidableEq

/-- A job, and the module that it is done in. -/
structure Task where
  module : Option String
  job : Job
  deriving Repr, DecidableEq

def Task.draft (t : Task) (counters : Counters) : Except Vm.Fault Draft :=
  match t.job with
  | .bootstrap entry stackBase =>
    .ok
      { code := bootstrapCode t.module counters.calls entry stackBase,
        counters := { counters with calls := counters.calls + 1 } }
  | .command c => ({ module := t.module } : Scope).draftCommand counters c

/-- The code of a command depends on the module that it is in and on nothing else of its scope. -/
theorem Scope.draftCommand_eq (s : Scope) (k : Counters) (c : Command) :
    s.draftCommand k c = Task.draft ⟨s.module, .command c⟩ k := by
  cases c <;> rfl

theorem moveCode_eq_ok {module : Option String} {kind : CommandKind} {segment : String}
    {index : Int} {code : Code} (h : moveCode module kind segment index = .ok code) :
    ∃ s, Segment.ofName? segment = some s ∧ 0 ≤ index ∧ index ≤ s.limit ∧
      (kind = .push ∧ pushCode module s index = .ok code ∨
        kind = .pop ∧ popCode module s index = .ok code) := by
  unfold moveCode readSegment at h
  cases hs : Segment.ofName? segment with
  | none => simp [hs, Cause.fault] at h
  | some s =>
    simp only [hs] at h
    split at h
    · next hrange =>
      refine ⟨s, rfl, hrange.1, hrange.2, ?_⟩
      cases kind
      case push =>
        refine .inl ⟨rfl, ?_⟩
        cases hc : pushCode module s index <;> simp_all [Except.mapError]
      case pop =>
        refine .inr ⟨rfl, ?_⟩
        cases hc : popCode module s index <;> simp_all [Except.mapError]
      all_goals simp [Except.mapError] at h
    · split at h <;> simp [Cause.fault] at h

theorem Task.draft_push {module : Option String} {segment : String} {index : Int} {k : Counters}
    {d : Draft} (h : Task.draft ⟨module, .command (.push segment index)⟩ k = .ok d) :
    d.counters = k ∧ ∃ s, Segment.ofName? segment = some s ∧ 0 ≤ index ∧ index ≤ s.limit ∧
      pushCode module s index = .ok d.code := by
  simp only [Task.draft, Scope.draftCommand] at h
  cases hc : moveCode module .push segment index with
  | error f => simp [hc, Except.map] at h
  | ok code =>
    simp only [hc, Except.map, Except.ok.injEq] at h
    subst h
    obtain ⟨s, hs, h0, hl, ⟨_, hcode⟩ | ⟨hk, _⟩⟩ := moveCode_eq_ok hc
    · exact ⟨rfl, s, hs, h0, hl, hcode⟩
    · exact absurd hk (by decide)

theorem Task.draft_pop {module : Option String} {segment : String} {index : Int} {k : Counters}
    {d : Draft} (h : Task.draft ⟨module, .command (.pop segment index)⟩ k = .ok d) :
    d.counters = k ∧ ∃ s, Segment.ofName? segment = some s ∧ 0 ≤ index ∧ index ≤ s.limit ∧
      popCode module s index = .ok d.code := by
  simp only [Task.draft, Scope.draftCommand] at h
  cases hc : moveCode module .pop segment index with
  | error f => simp [hc, Except.map] at h
  | ok code =>
    simp only [hc, Except.map, Except.ok.injEq] at h
    subst h
    obtain ⟨s, hs, h0, hl, ⟨hk, _⟩ | ⟨_, hcode⟩⟩ := moveCode_eq_ok hc
    · exact absurd hk (by decide)
    · exact ⟨rfl, s, hs, h0, hl, hcode⟩

theorem Task.draft_operator {module : Option String} {name : String} {k : Counters} {d : Draft}
    (h : Task.draft ⟨module, .command (.arithmetic name)⟩ k = .ok d) :
    ∃ op, Operator.ofName? name = some op ∧ d.code = operatorCode op k.comparisons ∧
      d.counters =
        { k with comparisons := k.comparisons + (if op.isComparison then 1 else 0) } := by
  simp only [Task.draft, Scope.draftCommand, Scope.draftOperator] at h
  cases hop : Operator.ofName? name with
  | none => simp [hop, Cause.fault] at h
  | some op =>
    simp only [hop, Except.ok.injEq] at h
    subst h
    exact ⟨op, rfl, rfl, rfl⟩

/-- Tasks are drafted one after the other, from counters to counters, each with its code. -/
inductive Drafts : Counters → List Task → List Code → Counters → Prop
  | nil (k : Counters) : Drafts k [] [] k
  | cons {k k' : Counters} {t : Task} {d : Draft} {ts : List Task} {cs : List Code}
      (first : t.draft k = .ok d) (rest : Drafts d.counters ts cs k') :
      Drafts k (t :: ts) (d.code :: cs) k'

namespace Drafts

variable {k l m : Counters} {ts us : List Task} {cs ds : List Code}

theorem append (h : Drafts k ts cs l) (g : Drafts l us ds m) :
    Drafts k (ts ++ us) (cs ++ ds) m := by
  induction h with
  | nil => exact g
  | cons first _ ih => exact .cons first (ih g)

theorem single {t : Task} {d : Draft} (h : t.draft k = .ok d) :
    Drafts k [t] [d.code] d.counters := .cons h (.nil _)

theorem exists_draft (h : Drafts k ts cs l) {i : Nat} {t : Task} (ht : ts[i]? = some t) :
    ∃ counters d, t.draft counters = .ok d ∧ cs[i]? = some d.code := by
  induction h generalizing i with
  | nil => simp at ht
  | cons first _ ih =>
    cases i with
    | zero =>
      simp only [List.getElem?_cons_zero, Option.some.injEq] at ht
      subst ht
      exact ⟨_, _, first, by simp⟩
    | succ i =>
      rw [List.getElem?_cons_succ] at ht
      simpa using ih ht

end Drafts

/-- The code of tasks, drafted one after the other. -/
def draftCodes (counters : Counters) : List Task → List Code
  | [] => []
  | t :: ts =>
    match t.draft counters with
    | .error _ => []
    | .ok d => d.code :: draftCodes d.counters ts

theorem Drafts.draftCodes_eq {k l : Counters} {ts : List Task} {cs : List Code}
    (h : Drafts k ts cs l) : draftCodes k ts = cs := by
  induction h with
  | nil => rfl
  | cons first _ ih => rw [draftCodes, first, ← ih]

/-! ## Commands in a text -/

/-- The command on a line, if there is one and it can be read. -/
def commandOf? (line : String) : Option Command :=
  match readWords (commandWords line) with
  | .ok c => c
  | .error _ => none

/-- A command made with an index that is read has a natural number for it. -/
theorem exists_index {word token : String} {make : Int → Command} {c : Command}
    (h : (((fun n : Nat => (n : Int)) <$> readIndex word token).map make) = .ok c) :
    ∃ n : Nat, c = make n := by
  cases hr : readIndex word token with
  | error f => simp [hr, Except.map] at h
  | ok n =>
    simp only [hr, Except.map, Except.map_ok, Except.ok.injEq] at h
    exact ⟨n, h.symm⟩

theorem of_readArguments {kind : CommandKind} {word : String} {args : List String} {c : Command}
    (h : readArguments kind word args = .ok c) :
    (∀ name, c.name? = some name → name ∈ word :: args) ∧ ∀ n, c.index? = some n → 0 ≤ n := by
  unfold readArguments at h
  split at h
  case h_10 => simp [Cause.fault] at h
  all_goals
    first
    | obtain ⟨n, rfl⟩ := exists_index h
    | obtain rfl := Except.ok.inj h
    simp [Command.name?, Command.index?]

theorem of_readWords {ws : List String} {c : Command} (h : readWords ws = .ok (some c)) :
    (∀ name, c.name? = some name → name ∈ ws) ∧ (∀ n, c.index? = some n → 0 ≤ n) ∧ ws ≠ [] := by
  cases ws with
  | nil => simp [readWords] at h
  | cons word args =>
    simp only [readWords] at h
    split at h
    · simp [Cause.fault] at h
    · next kind _ =>
      cases hargs : readArguments kind word args with
      | error f => simp [hargs, Except.map] at h
      | ok c' =>
        simp only [hargs, Except.map, Except.ok.injEq, Option.some.injEq] at h
        subst h
        obtain ⟨hname, hindex⟩ := of_readArguments hargs
        exact ⟨hname, hindex, List.cons_ne_nil word args⟩

/-- The names in a command that is read have neither blanks nor comments, and the number is not
negative. -/
theorem of_commandOf? {line : String} {c : Command} (h : commandOf? line = some c) :
    (∀ name, c.name? = some name → Tight name.toList) ∧ ∀ n, c.index? = some n → 0 ≤ n := by
  unfold commandOf? at h
  split at h
  · next hread =>
    subst h
    obtain ⟨hname, hindex, _⟩ := of_readWords hread
    refine ⟨fun name hn => ?_, hindex⟩
    obtain ⟨w, hw, rfl⟩ := List.mem_map.1 (hname name hn)
    rw [String.toList_ofList]
    exact tight_of_mem_words hw
  · simp at h

/-- A line that is read has its command, and its text has no breaks and is not empty. -/
theorem of_readLine {file line : String} {number : Nat} {out : Option Instruction}
    (h : Vm.readLine file number line = .ok out) :
    commandOf? line = out.map (·.command) ∧
      ∀ i, out = some i → i.text ≠ "" ∧ ∀ c ∈ i.text.toList, isBreak c = false := by
  unfold Vm.readLine parseLine at h
  simp only at h
  unfold commandOf?
  cases hr : readWords (commandWords line) with
  | error f => cases f <;> simp [hr] at h
  | ok found =>
    cases found with
    | none =>
      simp only [hr, Except.ok.injEq] at h
      subst h
      exact ⟨rfl, by simp⟩
    | some c =>
      simp only [hr, Except.ok.injEq] at h
      subst h
      refine ⟨rfl, ?_⟩
      rintro i hi
      obtain rfl := Option.some.inj hi
      simp only
      have hne := (of_readWords hr).2.2
      have hwords {w : String} (hw : w ∈ commandWords line) :
          w.toList ≠ [] ∧ ∀ c ∈ w.toList, isBlank c = false := by
        obtain ⟨v, hv, rfl⟩ := List.mem_map.1 hw
        rw [String.toList_ofList]
        exact of_mem_words hv
      constructor
      · intro hempty
        cases hws : commandWords line with
        | nil => exact hne hws
        | cons w ws =>
          have hw := (hwords (w := w) (by rw [hws]; exact List.mem_cons_self)).1
          rw [hws] at hempty
          have hlist := congrArg String.toList hempty
          cases ws with
          | nil => simp_all
          | cons v ws => simp_all
      · intro c hc
        rcases mem_intercalate hc with hc | ⟨w, hw, hc⟩
        · have hspace : ∀ c ∈ " ".toList, isBreak c = false := by decide
          exact hspace c hc
        · exact isBreak_of_not_isBlank ((hwords hw).2 c hc)

/-! ## Comments -/

def Line.isComment : Line → Bool
  | .comment _ => true
  | _ => false

def withoutComments (c : Code) : Code := c.filter fun l => !l.isComment

/-- No comment in the code has a break. -/
def TidyComments (c : Code) : Prop :=
  ∀ text, .comment text ∈ c → ∀ ch ∈ text.toList, isBreak ch = false

theorem tidyComments_append {c d : Code} (hc : TidyComments c) (hd : TidyComments d) :
    TidyComments (c ++ d) := by
  intro text h
  rcases List.mem_append.1 h with h | h
  · exact hc text h
  · exact hd text h

/-- Comments without breaks say nothing. -/
theorem readCode_withoutComments {c : Code} (h : TidyComments c) :
    readCode (withoutComments c) = readCode c := by
  induction c with
  | nil => rfl
  | cons l c ih =>
    have hc := ih fun text ht => h text (List.mem_cons_of_mem _ ht)
    rw [withoutComments] at hc ⊢
    cases hl : l.isComment with
    | false => rw [List.filter_cons_of_pos (by simp [hl]), readCode, readCode, hc]
    | true =>
      rw [List.filter_cons_of_neg (by simp [hl]), hc, readCode]
      cases l with
      | comment text =>
        rw [Line.read_comment (h text List.mem_cons_self)]
        simp
      | _ => simp [Line.isComment] at hl

def NoComments (c : Code) : Prop := ∀ l ∈ c, l.isComment = false

theorem withoutComments_eq_self {c : Code} (h : NoComments c) : withoutComments c = c :=
  List.filter_eq_self.2 fun l hl => by simp [h l hl]

end HackToolchain.Codegen
