import HackToolchain.Proofs.Text.Contents
import HackToolchain.Proofs.Vm.Language
import HackToolchain.Vm.Reader

/-!
# What a pass reads

A pass that may read is the one that was advanced first (`Able`); every other one ends at once
(`Idle`). Advanced, it goes on to the first line that says something, and stands right behind it
with what that line says (`meets_scan`); drained, it gives what the lines say up to the first fault
or the end (`exists_drain`).
-/

set_option autoImplicit false

namespace HackToolchain.Vm

open Text

/-! ## Lines -/

/-- A line is blank but for a comment. -/
def SaysNothing (line : String) : Prop := content line.toList = []

section

variable {file line : String} {number : Nat} {i : Instruction}

theorem commandWords_eq_nil : commandWords line = [] ↔ SaysNothing line := by
  rw [commandWords, List.map_eq_nil_iff, words_content, SaysNothing, content_eq_nil_iff]

/-- Nothing is read from the lines that say nothing, and from no others. -/
theorem readLine_eq_none : readLine file number line = .ok none ↔ SaysNothing line := by
  rw [← commandWords_eq_nil, ← readWords_eq_none, readLine, parseLine]
  rcases readWords (commandWords line) with (_ | _) | (_ | _) <;> simp

/-- An instruction stands where its line has its first character that is no blank. -/
theorem location_of_readLine (h : readLine file number line = .ok (some i)) :
    i.location = some { file, line := number, column := firstColumn line.toList } ∧
      StartsAt line.toList (firstColumn line.toList) := by
  constructor
  · rw [readLine, parseLine] at h
    split at h
    · cases h
    · obtain rfl := Option.some.inj (Except.ok.inj h)
      rfl
    · cases h
    · cases h
  · refine startsAt_of_content fun hnil => ?_
    rw [readLine_eq_none.2 hnil] at h
    cases h

end

/-! ## Advancing and draining -/

/-- What a pass meets that has read `count` lines and has these lines before it, and the lines that
are left behind what it met. -/
inductive Meets (file : String) (count : Nat) :
    List String → Except Fault (Option Instruction) → List String → Prop where
  | instruction {silent rest : List String} {line : String} {i : Instruction}
      (hsilent : ∀ l ∈ silent, SaysNothing l)
      (hread : readLine file (count + silent.length + 1) line = .ok (some i)) :
      Meets file count (silent ++ line :: rest) (.ok (some i)) rest
  | fault {silent rest : List String} {line : String} {f : Fault}
      (hsilent : ∀ l ∈ silent, SaysNothing l)
      (hread : readLine file (count + silent.length + 1) line = .error f) :
      Meets file count (silent ++ line :: rest) (.error f) rest
  | nothing {silent : List String} (hsilent : ∀ l ∈ silent, SaysNothing l) :
      Meets file count silent (.ok none) []

/-- Lines, of which the first stands behind `count` others, say these instructions. -/
inductive Reads (file : String) : Nat → List String → List Instruction → Prop where
  | nil {count : Nat} : Reads file count [] []
  | silent {count : Nat} {line : String} {lines : List String} {given : List Instruction}
      (hline : SaysNothing line) (h : Reads file (count + 1) lines given) :
      Reads file count (line :: lines) given
  | instruction {count : Nat} {line : String} {lines : List String} {i : Instruction}
      {given : List Instruction} (hline : readLine file (count + 1) line = .ok (some i))
      (h : Reads file (count + 1) lines given) : Reads file count (line :: lines) (i :: given)

/-- What draining a pass gives that has read `count` lines and has these lines before it: the
outcome, the instructions and the lines that are left. -/
inductive Drains (file : String) (count : Nat) : List String →
    Except Fault (List Instruction) → List Instruction → List String → Prop where
  | all {lines : List String} {given : List Instruction} (h : Reads file count lines given) :
      Drains file count lines (.ok given) given []
  | fault {lines rest : List String} {line : String} {given : List Instruction} {f : Fault}
      (h : Reads file count lines given)
      (hread : readLine file (count + lines.length + 1) line = .error f) :
      Drains file count (lines ++ line :: rest) (.error f) given rest

/-- What was met is in front of what is left. -/
theorem Meets.exists_taken {file : String} {count : Nat} {before rest : List String}
    {outcome : Except Fault (Option Instruction)} (h : Meets file count before outcome rest) :
    ∃ taken, before = taken ++ rest := by
  cases h with
  | @instruction silent _ line => exact ⟨silent ++ [line], by simp⟩
  | @fault silent _ line => exact ⟨silent ++ [line], by simp⟩
  | nothing => exact ⟨before, by simp⟩

/-- What was drained is in front of what is left. -/
theorem Drains.exists_taken {file : String} {count : Nat} {before rest : List String}
    {outcome : Except Fault (List Instruction)} {given : List Instruction}
    (h : Drains file count before outcome given rest) : ∃ taken, before = taken ++ rest := by
  cases h with
  | all => exact ⟨before, by simp⟩
  | @fault lines _ line => exact ⟨lines ++ [line], by simp⟩

/-- A pass may read, and has read `count` lines. -/
inductive Able (r : Reader) : Nat → Pass → Prop where
  | running {count : Nat} (h : r.started = true) : Able r count (.running count)
  | fresh (h : r.started = false) : Able r 0 .fresh

/-- A pass reads nothing. -/
inductive Idle (r : Reader) : Pass → Prop where
  | finished : Idle r .finished
  | late (h : r.started = true) : Idle r .fresh

section

variable {file : String} {count : Nat} {lines before : List String} {given : List Instruction}
  {outcome : Except Fault (List Instruction)} {rest : List String}

/-- Only whether a pass has started counts for who may read. -/
theorem Able.congr {r r' : Reader} {p : Pass} (h : Able r count p) (hs : r'.started = r.started) :
    Able r' count p := by
  cases h with
  | running h => exact .running (hs.trans h)
  | fresh h => exact .fresh (hs.trans h)

theorem Idle.congr {r r' : Reader} {p : Pass} (h : Idle r p) (hs : r'.started = r.started) :
    Idle r' p := by
  cases h with
  | finished => exact .finished
  | late h => exact .late (hs.trans h)

/-- Silent lines in front change nothing but the count. -/
theorem Reads.append_silent (hsilent : ∀ l ∈ before, SaysNothing l)
    (h : Reads file (count + before.length) lines given) :
    Reads file count (before ++ lines) given := by
  induction before generalizing count with
  | nil => exact h
  | cons line before ih =>
    refine .silent (hsilent line List.mem_cons_self)
      (ih (fun l hl => hsilent l (List.mem_cons_of_mem _ hl)) ?_)
    rwa [Nat.add_assoc, Nat.add_comm 1, ← List.length_cons]

/-- Every instruction that lines say is on one of them. -/
theorem Reads.exists_line (h : Reads file count lines given) {i : Instruction} (hi : i ∈ given) :
    ∃ (k : Nat) (line : String), lines[k]? = some line ∧
      readLine file (count + k + 1) line = .ok (some i) := by
  have hnumber (n k : Nat) : n + 1 + k + 1 = n + (k + 1) + 1 := by omega
  induction h with
  | nil => cases hi
  | silent _ _ ih =>
    obtain ⟨k, line, hline, hread⟩ := ih hi
    rw [hnumber] at hread
    exact ⟨k + 1, line, hline, hread⟩
  | @instruction _ first _ _ _ hfirst _ ih =>
    rcases List.mem_cons.1 hi with rfl | hi
    · exact ⟨0, first, rfl, hfirst⟩
    · obtain ⟨k, line, hline, hread⟩ := ih hi
      rw [hnumber] at hread
      exact ⟨k + 1, line, hline, hread⟩

/-- An instruction in front of what is drained is given first. -/
theorem Drains.cons {line : String} {i : Instruction} (hsilent : ∀ l ∈ before, SaysNothing l)
    (hread : readLine file (count + before.length + 1) line = .ok (some i))
    (h : Drains file (count + before.length + 1) lines outcome given rest) :
    Drains file count (before ++ line :: lines) (outcome.map (i :: ·)) (i :: given) rest := by
  cases h with
  | all h => exact .all (.append_silent hsilent (.instruction hread h))
  | @fault lines rest last given f h hlast =>
    have hreads : Reads file count (before ++ line :: lines) (i :: given) :=
      .append_silent hsilent (.instruction hread h)
    have hnumber : count + before.length + 1 + lines.length =
        count + (before ++ line :: lines).length := by
      simp only [List.length_append, List.length_cons]
      omega
    rw [hnumber] at hlast
    simpa [Except.map] using Drains.fault hreads hlast

end

namespace Reader

/-- What scanning meets is what comes first. -/
theorem meets_scan (file : String) (count : Nat) (lines : List String) :
    Meets file count lines (scan file count lines).outcome (scan file count lines).pending := by
  induction lines generalizing count with
  | nil => exact .nothing (by simp)
  | cons line lines ih =>
    rw [scan]
    cases hread : readLine file (count + 1) line with
    | error f =>
      have hfirst : ∀ l ∈ ([] : List String), SaysNothing l := by simp
      exact .fault hfirst hread
    | ok found =>
      cases found with
      | some i =>
        have hfirst : ∀ l ∈ ([] : List String), SaysNothing l := by simp
        exact .instruction hfirst hread
      | none =>
        have hline := readLine_eq_none.1 hread
        have hsilent {silent : List String} (h : ∀ l ∈ silent, SaysNothing l) :
            ∀ l ∈ line :: silent, SaysNothing l := by simpa [hline] using h
        have hnumber (silent : List String) :
            count + 1 + silent.length = count + (line :: silent).length := by
          rw [List.length_cons]
          omega
        have ih := ih (count + 1)
        generalize scan file (count + 1) lines = a at ih ⊢
        obtain ⟨outcome, pending, pass⟩ := a
        cases ih with
        | instruction h hread =>
          rw [hnumber] at hread
          exact .instruction (hsilent h) hread
        | fault h hread =>
          rw [hnumber] at hread
          exact .fault (hsilent h) hread
        | nothing h => exact .nothing (hsilent h)

/-- A pass goes on behind an instruction, and counts the lines up to it; otherwise it is over. -/
theorem pass_scan (file : String) (count : Nat) (lines : List String) :
    (scan file count lines).pass =
      match (scan file count lines).outcome with
      | .ok (some _) => .running (count + lines.length - (scan file count lines).pending.length)
      | _ => .finished := by
  induction lines generalizing count with
  | nil => rfl
  | cons line lines ih =>
    rw [scan]
    rcases readLine file (count + 1) line with f | (_ | i)
    · rfl
    · rw [List.length_cons, Nat.add_comm lines.length 1, ← Nat.add_assoc]
      exact ih (count + 1)
    · have hcount : count + 1 = count + (line :: lines).length - lines.length := by
        rw [List.length_cons]
        omega
      rw [← hcount]

variable {r : Reader} {count : Nat} {p : Pass}

theorem next_of_able (h : Able r count p) :
    r.next p =
      let a := scan r.file count r.pending
      (a.outcome, { r with pending := a.pending, started := true }, a.pass) := by
  cases h with
  | running h => rfl
  | fresh h => simp [next, h]

theorem next_of_idle (h : Idle r p) : r.next p = (.ok none, r, .finished) := by
  cases h with
  | finished => rfl
  | late h => simp [next, h]

theorem drain_of_idle (h : Idle r p) : r.drain p = (.ok [], [], r, .finished) := by
  rw [drain, drainWithin, next_of_idle h]
  rfl

theorem exists_drainWithin {fuel : Nat} (hfuel : r.pending.length < fuel) (h : Able r count p)
    (out : List Instruction) :
    ∃ outcome given rest, Drains r.file count r.pending outcome given rest ∧
      drainWithin fuel out r p =
        (outcome.map (out.reverse ++ ·), out.reverse ++ given,
          { r with pending := rest, started := true }, .finished) := by
  -- Every round takes a line at least, so the rounds do not run out before the lines do.
  induction fuel generalizing r count p out with
  | zero => omega
  | succ fuel ih =>
    have hmeets := meets_scan r.file count r.pending
    have hpass := pass_scan r.file count r.pending
    rw [drainWithin, next_of_able h]
    obtain ⟨file, pending, started⟩ := r
    simp only at hmeets hpass hfuel ⊢
    generalize scan file count pending = a at hmeets hpass
    obtain ⟨outcome, left, pass⟩ := a
    cases hmeets with
    | fault hsilent hread =>
      simp only at hpass
      subst hpass
      exact ⟨_, _, _, .fault (by simpa using Reads.append_silent hsilent .nil) hread,
        by simp [Except.map]⟩
    | nothing hsilent =>
      simp only at hpass
      subst hpass
      exact ⟨_, _, _, .all (by simpa using Reads.append_silent hsilent .nil), by simp [Except.map]⟩
    | @instruction silent _ line i hsilent hread =>
      have hcount : count + (silent ++ line :: left).length - left.length =
          count + silent.length + 1 := by
        simp only [List.length_append, List.length_cons]
        omega
      simp only [hcount] at hpass
      subst hpass
      have hleft : left.length < fuel := by
        simp only [List.length_append, List.length_cons] at hfuel
        omega
      obtain ⟨outcome, given, rest, hdrains, heq⟩ :=
        ih (r := { file, pending := left, started := true }) hleft (.running rfl) (i :: out)
      refine ⟨_, _, rest, .cons hsilent hread hdrains, ?_⟩
      simp only [heq]
      cases outcome <;> simp [Except.map]

/-- Draining a pass that may read gives what its lines say up to the first fault, and ends it. -/
theorem exists_drain (h : Able r count p) :
    ∃ outcome given rest, Drains r.file count r.pending outcome given rest ∧
      r.drain p = (outcome, given, { r with pending := rest, started := true }, .finished) := by
  obtain ⟨outcome, given, rest, hdrains, heq⟩ :=
    exists_drainWithin (Nat.lt_succ_self r.pending.length) h []
  refine ⟨outcome, given, rest, hdrains, ?_⟩
  rw [drain, heq]
  cases outcome <;> rfl

end Reader

end HackToolchain.Vm
