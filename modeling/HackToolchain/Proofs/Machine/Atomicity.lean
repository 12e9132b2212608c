import HackToolchain.Proofs.Machine.Steps

/-!
# Requests that fail

A computer without a watch is asked for one thing after another. The memory keeps its size, the
instruction memory holds what was loaded last, and what is refused leaves the whole computer as it
was. Only a run can fail after it has begun, and then it stops in the state that its last completed
instruction left: `Computer.failures_atomic`.

An instruction fails as a whole or not at all (`execute_cases`), since what can fail of it comes
before the first change (`execute_eq_inOrder`). From this the step of a computer has three outcomes
(`Computer.step_cases`), and a run is so many completed instructions, after which it ends or the
next one fails (`Computer.runFrom_ends`, `Computer.runToFrom_ends`).
-/

set_option autoImplicit false

namespace HackToolchain.Machine

/-! ## One instruction -/

/-- The word computes, and it reads or writes the memory cell that A points at. -/
def usesCell (w : Word) : Bool := w.getLsbD 15 && (w.getLsbD 12 || w.getLsbD 3)

theorem usesCell_eq (w : Word) : usesCell w = (!isLoad w && (Fields.ofWord w).needsCell) := by
  have hm : (Fields.ofWord w).destination.m = w.getLsbD 3 := by
    simp [Fields.ofWord, Destination.ofBits]
  rw [usesCell, isLoad, Bool.not_not, Fields.needsCell, hm]
  rfl

theorem holds_natCast (ram : Ram) (n : Nat) : ram.holds n = decide (n < ram.size) := by
  simp [Ram.holds]

/-- A word that uses a cell past the memory changes nothing, and every other word is executed. -/
theorem execute_cases (w : Word) (r : Registers) (ram : Ram) :
    (usesCell w = true ∧ ram.size ≤ r.a.toNat ∧
      execute w r ram = (.error (.addressOutOfRange r.a.toNat), r, ram)) ∨
    (¬(usesCell w = true ∧ ram.size ≤ r.a.toNat) ∧
      ∃ r' ram', execute w r ram = (.ok (), r', ram') ∧ ram'.size = ram.size) := by
  have huses := usesCell_eq w
  rw [execute]
  by_cases hload : isLoad w = true
  · rw [if_pos hload]
    rw [hload, Bool.not_true, Bool.false_and] at huses
    exact .inr ⟨by simp [huses], _, _, rfl, rfl⟩
  · rw [if_neg hload]
    rw [Bool.not_eq_true] at hload
    rw [hload, Bool.not_false, Bool.true_and] at huses
    simp only [← huses, holds_natCast]
    by_cases hcell : usesCell w = true ∧ ram.size ≤ r.a.toNat
    · refine .inl ⟨hcell.1, hcell.2, if_pos ?_⟩
      simp [hcell.1, hcell.2]
    · refine .inr ⟨hcell, _, _, if_neg ?_, ?_⟩
      · intro h
        apply hcell
        simpa using h
      · split
        · exact ram.size_set _ _
        · rfl

theorem Ram.size_clear (ram : Ram) : ram.clear.size = ram.size := Array.size_replicate

/-! ## Programs -/

/-- A program has at most as many words as the instruction memory, and each of its numbers is a
word. -/
def Loadable (program : Array Int) : Prop :=
  program.size ≤ 32768 ∧ ∀ n ∈ program, 0 ≤ n ∧ n ≤ 65535

instance (program : Array Int) : Decidable (Loadable program) :=
  inferInstanceAs (Decidable (_ ∧ _))

theorem isWord_iff {n : Int} : Rom.isWord n = true ↔ 0 ≤ n ∧ n ≤ 65535 := by
  rw [Rom.isWord, Bool.and_eq_true, decide_eq_true_eq, decide_eq_true_eq, Int.lt_iff_add_one_le]
  omega

theorem toNat_ofInt_of_isWord {n : Int} (h : Rom.isWord n = true) :
    ((Word.ofInt n).toNat : Int) = n := by
  obtain ⟨hlow, hhigh⟩ := isWord_iff.1 h
  rw [Word.ofInt, BitVec.toNat_ofInt]
  omega

namespace Rom

variable {r : Rom} {program : Array Int}

/-- The numbers that the words of the program stand for. -/
def numbers (r : Rom) : Array Int := r.words.map fun w => (w.toNat : Int)

theorem load_of_loadable (hc : r.capacity = 32768) (h : Loadable program) :
    ∃ r', r.load program = .ok r' ∧ r'.capacity = 32768 ∧ r'.numbers = program := by
  have hwords : ∀ n ∈ program, isWord n = true := fun n hn => isWord_iff.2 (h.2 n hn)
  have hnone : (program.find? fun n => !isWord n) = none := by
    rw [Array.find?_eq_none]
    intro n hn
    simp [hwords n hn]
  refine ⟨{ r with words := program.map Word.ofInt }, ?_, hc, ?_⟩
  · rw [load, if_neg (by have := h.1; omega), hnone]
  · rw [numbers, Array.map_map]
    refine (Array.map_congr_left fun n hn => ?_).trans (Array.map_id program)
    exact toNat_ofInt_of_isWord (hwords n hn)

theorem load_of_not_loadable (hc : r.capacity = 32768) (h : ¬Loadable program) :
    ∃ e, r.load program = .error e := by
  rw [load]
  by_cases hlong : r.capacity < program.size
  · exact ⟨_, if_pos hlong⟩
  · rw [if_neg hlong]
    cases hfind : program.find? fun n => !isWord n with
    | some n => exact ⟨_, rfl⟩
    | none =>
      rw [Array.find?_eq_none] at hfind
      refine absurd ⟨by omega, fun n hn => isWord_iff.1 ?_⟩ h
      simpa using hfind n hn

end Rom

/-! ## Steps -/

namespace Computer

variable {c d : Computer} {e : Error} {k : Nat}

/-- The instruction that is next uses the cell that A points at, and the memory does not go so
far. -/
def LacksCell (c : Computer) : Prop :=
  ∃ w, c.current = some w ∧ usesCell w = true ∧ c.ram.size ≤ c.registers.a.toNat

/-- The program is over, or the next instruction lacks its cell and the computer stays as it is, or
the instruction is executed and counted. -/
theorem step_cases (hw : c.watch = none) :
    (c.current = none ∧ c.step = (.ok false, c)) ∨
    (c.LacksCell ∧ c.step = (.error (.addressOutOfRange c.registers.a.toNat), c)) ∨
    (¬c.LacksCell ∧ ∃ s, c.step = (.ok true, c.advance s 1) ∧ s.ram.size = c.ram.size) := by
  rw [step]
  cases hcurrent : c.current with
  | none => exact .inl ⟨rfl, rfl⟩
  | some w =>
    have hobserve : c.observe w = (false, c) := by rw [observe, hw]
    simp only [hobserve, perform]
    obtain ⟨hcell, hsize, h⟩ | ⟨hcell, r, ram, h, hram⟩ := execute_cases w c.registers c.ram
    · refine .inr (.inl ⟨⟨w, hcurrent, hcell, hsize⟩, ?_⟩)
      rw [h]
    · refine .inr (.inr ⟨?_, ⟨r, ram⟩, ?_, hram⟩)
      · rintro ⟨v, hv, huses, hsize⟩
        obtain rfl : w = v := Option.some.inj (hcurrent.symm.trans hv)
        exact hcell ⟨huses, hsize⟩
      · rw [h]
        rfl

/-! ## Runs -/

/-- So many instructions are completed one after the other, from one state to another. -/
inductive Completes : Nat → Computer → Computer → Prop
  | refl (c : Computer) : Completes 0 c c
  | next {k : Nat} {c d f : Computer} (first : c.step = (.ok true, d)) (rest : Completes k d f) :
      Completes (k + 1) c f

/-- What instructions never change, and the size of the memory. -/
structure Frame (c d : Computer) : Prop where
  rom : d.rom = c.rom
  labels : d.labels = c.labels
  watch : d.watch = c.watch
  size : d.ram.size = c.ram.size

theorem Frame.refl (c : Computer) : Frame c c := ⟨rfl, rfl, rfl, rfl⟩

theorem Frame.trans {f : Computer} (h : Frame c d) (g : Frame d f) : Frame c f :=
  ⟨g.rom.trans h.rom, g.labels.trans h.labels, g.watch.trans h.watch, g.size.trans h.size⟩

/-- A completed instruction keeps the frame and is counted. -/
theorem frame_of_step (hw : c.watch = none) (h : c.step = (.ok true, d)) :
    Frame c d ∧ d.cycles = c.cycles + 1 := by
  obtain ⟨-, hstep⟩ | ⟨-, hstep⟩ | ⟨-, s, hstep, hsize⟩ := step_cases hw
  · simp [hstep] at h
  · simp [hstep] at h
  · obtain rfl : c.advance s 1 = d := (Prod.mk.inj (hstep.symm.trans h)).2
    exact ⟨⟨rfl, rfl, rfl, hsize⟩, rfl⟩

theorem Completes.frame (h : Completes k c d) (hw : c.watch = none) :
    Frame c d ∧ d.cycles = c.cycles + k := by
  induction h with
  | refl c => exact ⟨Frame.refl c, rfl⟩
  | next first rest ih =>
    obtain ⟨hframe, hcycles⟩ := frame_of_step hw first
    obtain ⟨hframe', hcycles'⟩ := ih (hframe.watch.trans hw)
    exact ⟨hframe.trans hframe', by omega⟩

/-- A run ends in a state: it is over there, or the next instruction fails. -/
def EndsIn {α : Type} (outcome : Except Error α × Computer) (d : Computer) : Prop :=
  outcome.2 = d ∧ ∀ e, outcome.1 = .error e → d.step = (.error e, d)

/-- A run that begins with a step ends there, or it goes on from the next state and ends where the
rest of it does. -/
theorem exists_endsIn_of_step {α : Type} {outcome : Except Error α × Computer} {a : α}
    {rest : Computer → Except Error α × Computer} (hw : c.watch = none)
    (herror : ∀ e d, c.step = (.error e, d) → outcome = (.error e, d))
    (hstop : ∀ d, c.step = (.ok false, d) → outcome = (.ok a, d))
    (hnext : ∀ d, c.step = (.ok true, d) → outcome = rest d)
    (hrest : ∀ d, d.watch = none → ∃ k f, Completes k d f ∧ EndsIn (rest d) f) :
    ∃ k f, Completes k c f ∧ EndsIn outcome f := by
  obtain ⟨-, hstep⟩ | ⟨-, hstep⟩ | ⟨-, s, hstep, -⟩ := step_cases hw
  · rw [hstop c hstep]
    refine ⟨0, c, .refl c, rfl, ?_⟩
    intro e he
    cases he
  · rw [herror _ c hstep]
    refine ⟨0, c, .refl c, rfl, ?_⟩
    intro e he
    obtain rfl := Except.error.inj he
    exact hstep
  · rw [hnext _ hstep]
    obtain ⟨k, f, hdone, hends⟩ := hrest _ ((frame_of_step hw hstep).1.watch.trans hw)
    exact ⟨k + 1, f, .next hstep hdone, hends⟩

theorem runFrom_ends (budget executed : Nat) (hw : c.watch = none) :
    ∃ k d, Completes k c d ∧ EndsIn (runFrom budget executed c) d := by
  induction budget generalizing executed c with
  | zero => exact ⟨0, c, .refl c, rfl, by simp [runFrom]⟩
  | succ budget ih =>
    apply exists_endsIn_of_step hw
    · intro e d hstep
      rw [runFrom, hstep]
    · intro d hstep
      rw [runFrom, hstep]
    · intro d hstep
      rw [runFrom, hstep]
    · intro d hd
      exact ih (executed + 1) hd

theorem runToFrom_ends (address : Int) (budget executed : Nat) (hw : c.watch = none) :
    ∃ k d, Completes k c d ∧ EndsIn (runToFrom address budget executed c) d := by
  induction budget generalizing executed c with
  | zero => exact ⟨0, c, .refl c, rfl, by simp [runToFrom]⟩
  | succ budget ih =>
    by_cases hpc : (c.registers.pc.toNat : Int) = address
    · rw [runToFrom, if_pos hpc]
      exact ⟨0, c, .refl c, rfl, by simp⟩
    · apply exists_endsIn_of_step hw
      · intro e d hstep
        rw [runToFrom, if_neg hpc, hstep]
      · intro d hstep
        rw [runToFrom, if_neg hpc, hstep]
      · intro d hstep
        rw [runToFrom, if_neg hpc, hstep]
      · intro d hd
        exact ih (executed + 1) hd

end Computer

/-! ## Requests -/

/-- What a computer can be asked for. -/
inductive Request where
  | load (program : Array Int) (labels : Table Int)
  | step
  | run (maxCycles : Option Int)
  | runTo (address : Int) (maxCycles : Option Int)
  | runToLabel (name : String) (maxCycles : Option Int)
  | peek (address : Int)
  | poke (address value : Int)
  | setA (n : Int)
  | setD (n : Int)
  | setPc (n : Int)
  | reset

namespace Request

/-- What a request asks for cannot even begin. -/
def Refused (c : Computer) : Request → Prop
  | .load program _ => ¬Loadable program
  | .step => c.LacksCell
  | .runToLabel name _ => c.labels.find? name = none
  | .peek address | .poke address _ => ¬(0 ≤ address ∧ address < c.ram.size)
  | .run _ | .runTo _ _ | .setA _ | .setD _ | .setPc _ | .reset => False

/-- The request asks for a run. -/
def IsRun : Request → Prop
  | .run _ | .runTo _ _ | .runToLabel _ _ => True
  | _ => False

/-- The program and the labels that are loaded after a request, from those before. -/
def loaded (before : Array Int × Table Int) : Request → Array Int × Table Int
  | .load program labels => if Loadable program then (program, labels) else before
  | _ => before

end Request

/-- The program and the labels that were loaded last among some requests. -/
def lastLoaded (history : List Request) : Array Int × Table Int :=
  history.foldl Request.loaded (#[], .empty)

namespace Computer

/-- Leaves out what an outcome gives besides its state. -/
def plain {α : Type} (outcome : Except Error α × Computer) : Except Error Unit × Computer :=
  (outcome.1.map fun _ => (), outcome.2)

/-- Does what is asked, and says whether it failed. -/
def carryOut (c : Computer) : Request → Except Error Unit × Computer
  | .load program labels => c.load program labels
  | .step => plain c.step
  | .run maxCycles => plain (c.run maxCycles)
  | .runTo address maxCycles => plain (c.runTo address maxCycles)
  | .runToLabel name maxCycles => plain (c.runToLabel name maxCycles)
  | .peek address => plain (c.peek address, c)
  | .poke address value => c.poke address value
  | .setA n => (.ok (), c.setA n)
  | .setD n => (.ok (), c.setD n)
  | .setPc n => (.ok (), c.setPc n)
  | .reset => (.ok (), c.reset)

/-- The computer after some requests, each carried out whatever came of those before it. -/
def carryOutAll (c : Computer) (history : List Request) : Computer :=
  history.foldl (fun c r => (c.carryOut r).2) c

/-- The registers and the cells hold numbers of sixteen bits. -/
structure InRange (c : Computer) : Prop where
  a : c.registers.a.toNat ≤ 65535
  d : c.registers.d.toNat ≤ 65535
  pc : c.registers.pc.toNat ≤ 65535
  cells : ∀ w ∈ c.ram.cells, w.toNat ≤ 65535

/-- What holds of a computer with so many cells after requests which last loaded a program and its
labels. -/
structure Keeps (size : Int) (loaded : Array Int × Table Int) (c : Computer) : Prop where
  watch : c.watch = none
  capacity : c.rom.capacity = 32768
  size : c.ram.size = size
  program : c.rom.numbers = loaded.1
  labels : c.labels = loaded.2

/-- A request fails in a state: it was refused and the computer is as before, or it is a run and the
instruction after its completed ones, which are counted, lacks its cell. -/
def FailsIn (c : Computer) (r : Request) (e : Error) (d : Computer) : Prop :=
  r.Refused c ∧ d = c ∨
    r.IsRun ∧ ∃ k, Completes k c d ∧ d.LacksCell ∧ d.step = (.error e, d) ∧ d.cycles = c.cycles + k

variable {c d f : Computer} {r : Request} {e : Error} {size : Int} {loaded : Array Int × Table Int}

/-! ## One request -/

theorem inRange (c : Computer) : c.InRange := by
  have hword (w : Word) : w.toNat ≤ 65535 := by
    have := w.isLt
    omega
  exact ⟨hword _, hword _, hword _, fun w _ => hword w⟩

theorem Keeps.of_frame (hc : c.Keeps size loaded) (h : Frame c d) : d.Keeps size loaded where
  watch := h.watch.trans hc.watch
  capacity := by rw [h.rom, hc.capacity]
  size := by rw [h.size, hc.size]
  program := by rw [h.rom, hc.program]
  labels := h.labels.trans hc.labels

theorem Keeps.load (hc : c.Keeps size loaded) (program : Array Int) (labels : Table Int) :
    (Loadable program ∧ ((c.load program labels).2).Keeps size (program, labels) ∧
      (c.load program labels).1 = .ok ()) ∨
    (¬Loadable program ∧ ∃ e, c.load program labels = (.error e, c)) := by
  rw [Computer.load]
  by_cases hload : Loadable program
  · obtain ⟨rom, h, hcapacity, hnumbers⟩ := Rom.load_of_loadable hc.capacity hload
    rw [h]
    exact .inl ⟨hload, ⟨hc.watch, hcapacity, hc.size, hnumbers, rfl⟩, rfl⟩
  · obtain ⟨e, h⟩ := Rom.load_of_not_loadable hc.capacity hload
    rw [h]
    exact .inr ⟨hload, e, rfl⟩

theorem holds_iff (ram : Ram) (address : Int) :
    ram.holds address = true ↔ 0 ≤ address ∧ address < ram.size := by
  rw [Ram.holds, Bool.and_eq_true, decide_eq_true_eq, decide_eq_true_eq]

theorem poke_cases (c : Computer) (address value : Int) :
    ((0 ≤ address ∧ address < c.ram.size) ∧ (c.poke address value).1 = .ok () ∧
      Frame c (c.poke address value).2) ∨
    (¬(0 ≤ address ∧ address < c.ram.size) ∧
      c.poke address value = (.error (.addressOutOfRange address), c)) := by
  rw [poke, Ram.write, ← holds_iff]
  by_cases hholds : c.ram.holds address = true
  · rw [if_pos hholds]
    exact .inl ⟨hholds, rfl, rfl, rfl, rfl, c.ram.size_set _ _⟩
  · rw [if_neg hholds]
    exact .inr ⟨hholds, rfl⟩

theorem frame_of_ends {α : Type} {outcome : Except Error α × Computer} (hw : c.watch = none)
    (h : ∃ k d, Completes k c d ∧ EndsIn outcome d) : Frame c outcome.2 := by
  obtain ⟨k, d, hdone, rfl, -⟩ := h
  exact (hdone.frame hw).1

theorem failsIn_of_ends {α : Type} {outcome : Except Error α × Computer} (hw : c.watch = none)
    (hr : r.IsRun) (h : ∃ k d, Completes k c d ∧ EndsIn outcome d)
    (he : plain outcome = (.error e, d)) : c.FailsIn r e d := by
  obtain ⟨k, f, hdone, rfl, hends⟩ := h
  obtain ⟨hframe, hcycles⟩ := hdone.frame hw
  obtain ⟨outcome, f⟩ := outcome
  cases outcome with
  | ok a => simp [plain, Except.map] at he
  | error e' =>
    obtain ⟨he', rfl⟩ := Prod.mk.inj he
    obtain rfl : e' = e := Except.error.inj he'
    have hstep := hends e' rfl
    refine .inr ⟨hr, k, hdone, ?_, hstep, hcycles⟩
    obtain ⟨-, hother⟩ | ⟨hlacks, -⟩ | ⟨-, s, hother, -⟩ := step_cases (hframe.watch.trans hw)
    · simp [hother] at hstep
    · exact hlacks
    · simp [hother] at hstep

theorem run_ends (hw : c.watch = none) (maxCycles : Option Int) :
    ∃ k d, Completes k c d ∧ EndsIn (c.run maxCycles) d :=
  runFrom_ends _ _ hw

theorem runTo_ends (hw : c.watch = none) (address : Int) (maxCycles : Option Int) :
    ∃ k d, Completes k c d ∧ EndsIn (c.runTo address maxCycles) d :=
  runToFrom_ends _ _ _ hw

/-- A request keeps what holds of the computer, with the program that it may have loaded. -/
theorem Keeps.carryOut (hc : c.Keeps size loaded) (r : Request) :
    ((c.carryOut r).2).Keeps size (r.loaded loaded) := by
  cases r with
  | load program labels =>
    rw [Computer.carryOut, Request.loaded]
    obtain ⟨hload, hkeeps, -⟩ | ⟨hload, e, h⟩ := hc.load program labels
    · rw [if_pos hload]
      exact hkeeps
    · rw [if_neg hload, h]
      exact hc
  | step =>
    rw [Computer.carryOut, plain]
    obtain ⟨-, h⟩ | ⟨-, h⟩ | ⟨-, s, h, -⟩ := step_cases hc.watch
    · rw [h]
      exact hc
    · rw [h]
      exact hc
    · exact hc.of_frame (h ▸ (frame_of_step hc.watch h).1)
  | run maxCycles =>
    have hframe : Frame c (c.run maxCycles).2 :=
      frame_of_ends hc.watch (run_ends hc.watch maxCycles)
    exact hc.of_frame hframe
  | runTo address maxCycles =>
    have hframe : Frame c (c.runTo address maxCycles).2 :=
      frame_of_ends hc.watch (runTo_ends hc.watch address maxCycles)
    exact hc.of_frame hframe
  | runToLabel name maxCycles =>
    rw [Computer.carryOut, plain, runToLabel]
    cases c.labels.find? name with
    | none => exact hc
    | some address =>
      have hframe : Frame c (c.runTo address maxCycles).2 :=
        frame_of_ends hc.watch (runTo_ends hc.watch address maxCycles)
      exact hc.of_frame hframe
  | peek address => exact hc
  | poke address value =>
    rw [Computer.carryOut]
    obtain ⟨-, -, hframe⟩ | ⟨-, h⟩ := c.poke_cases address value
    · exact hc.of_frame hframe
    · rw [h]
      exact hc
  | setA n => exact hc.of_frame ⟨rfl, rfl, rfl, rfl⟩
  | setD n => exact hc.of_frame ⟨rfl, rfl, rfl, rfl⟩
  | setPc n => exact hc.of_frame ⟨rfl, rfl, rfl, rfl⟩
  | reset => exact hc.of_frame ⟨rfl, rfl, rfl, c.ram.size_clear⟩

/-- What is refused fails and leaves the computer as it is. -/
theorem Keeps.carryOut_of_refused (hc : c.Keeps size loaded) (h : r.Refused c) :
    ∃ e, c.carryOut r = (.error e, c) := by
  cases r with
  | load program labels =>
    obtain ⟨hload, -⟩ | ⟨-, herror⟩ := hc.load program labels
    · exact absurd hload h
    · exact herror
  | step =>
    rw [Computer.carryOut, plain]
    obtain ⟨hnone, -⟩ | ⟨-, hstep⟩ | ⟨hcell, -⟩ := step_cases hc.watch
    · obtain ⟨w, hw, -⟩ := h
      simp [hnone] at hw
    · rw [hstep]
      exact ⟨_, rfl⟩
    · exact absurd h hcell
  | runToLabel name maxCycles =>
    have hnone : c.labels.find? name = none := h
    rw [Computer.carryOut, plain, runToLabel, hnone]
    exact ⟨_, rfl⟩
  | peek address =>
    have hholds : ¬c.ram.holds address = true := fun hholds => h ((holds_iff _ _).1 hholds)
    rw [Computer.carryOut, plain, peek, Ram.read, if_neg hholds]
    exact ⟨_, rfl⟩
  | poke address value =>
    obtain ⟨hin, -⟩ | ⟨-, herror⟩ := c.poke_cases address value
    · exact absurd hin h
    · exact ⟨_, herror⟩
  | run | runTo | setA | setD | setPc | reset => exact h.elim

/-- A request fails only if it is refused, or within a run. -/
theorem Keeps.failsIn_of_carryOut (hc : c.Keeps size loaded) (h : c.carryOut r = (.error e, d)) :
    c.FailsIn r e d := by
  by_cases hrefused : r.Refused c
  · obtain ⟨e', h'⟩ := hc.carryOut_of_refused hrefused
    exact .inl ⟨hrefused, (Prod.mk.inj (h.symm.trans h')).2⟩
  cases r with
  | load program labels =>
    obtain ⟨-, -, hok⟩ | ⟨hload, -⟩ := hc.load program labels
    · rw [Computer.carryOut] at h
      simp [h] at hok
    · exact absurd hload hrefused
  | step =>
    rw [Computer.carryOut, plain] at h
    obtain ⟨-, hstep⟩ | ⟨hcell, -⟩ | ⟨-, s, hstep, -⟩ := step_cases hc.watch
    · simp [hstep, Except.map] at h
    · exact absurd hcell hrefused
    · simp [hstep, Except.map] at h
  | run maxCycles => exact failsIn_of_ends hc.watch trivial (run_ends hc.watch maxCycles) h
  | runTo address maxCycles =>
    exact failsIn_of_ends hc.watch trivial (runTo_ends hc.watch address maxCycles) h
  | runToLabel name maxCycles =>
    rw [Computer.carryOut, runToLabel] at h
    cases hlabel : c.labels.find? name with
    | none => exact absurd hlabel hrefused
    | some address =>
      rw [hlabel] at h
      exact failsIn_of_ends hc.watch trivial (runTo_ends hc.watch address maxCycles) h
  | peek address =>
    have hholds : c.ram.holds address = true :=
      (holds_iff _ _).2 (Classical.not_not.1 hrefused)
    rw [Computer.carryOut, plain, peek, Ram.read, if_pos hholds] at h
    simp [Except.map] at h
  | poke address value =>
    obtain ⟨-, hok, -⟩ | ⟨hout, -⟩ := c.poke_cases address value
    · rw [Computer.carryOut] at h
      simp [h] at hok
    · exact absurd hout hrefused
  | setA | setD | setPc | reset => simp [Computer.carryOut] at h

/-! ## Sequences of requests -/

theorem Keeps.carryOutAll (hc : c.Keeps size loaded) (history : List Request) :
    (c.carryOutAll history).Keeps size (history.foldl Request.loaded loaded) := by
  induction history generalizing c loaded with
  | nil => exact hc
  | cons r history ih => exact ih (hc.carryOut r)

theorem keeps_ofConfig {config : Config} (h : ofConfig config = .ok c) :
    c.Keeps config.ramWords (#[], .empty) := by
  rw [ofConfig, Ram.ofSize] at h
  cases hshort : blockShortage? (2 * config.ramWords) with
  | some s => simp [hshort, Except.map] at h
  | none =>
    by_cases hneg : config.ramWords < 0
    · simp [hshort, hneg, Except.map] at h
    · rw [hshort, if_neg hneg] at h
      obtain rfl := Except.ok.inj h
      refine ⟨rfl, rfl, ?_, Array.map_empty, rfl⟩
      have hsize : (Ram.zeros config.ramWords.toNat).size = config.ramWords.toNat :=
        Array.size_replicate
      rw [hsize]
      omega

/-- Whatever a computer without a watch has been asked for, its registers and cells are numbers of
sixteen bits, its memory has the size it was made with, and the program and the labels are those
loaded last. A request fails at once exactly if it is refused, and nothing has changed then: a
program that is too long or has a number that is no word, an address outside the memory, an unknown
label, an instruction that lacks its cell. Otherwise only a run fails, in the state after its last
completed instruction, with the completed instructions counted and the next one refused. -/
theorem failures_atomic {config : Config} {start : Computer} (h : ofConfig config = .ok start)
    (history : List Request) :
    let c := start.carryOutAll history
    c.InRange ∧ c.Keeps config.ramWords (lastLoaded history) ∧
      ∀ r : Request, (r.Refused c → ∃ e, c.carryOut r = (.error e, c)) ∧
        ∀ e d, c.carryOut r = (.error e, d) → c.FailsIn r e d := by
  intro c
  have hkeeps : c.Keeps config.ramWords (lastLoaded history) :=
    (keeps_ofConfig h).carryOutAll history
  refine ⟨inRange c, hkeeps, fun r => ⟨hkeeps.carryOut_of_refused, ?_⟩⟩
  intro e d hfails
  exact hkeeps.failsIn_of_carryOut hfails

/-- Loads 2 into D and stores it at address 9. -/
def storeProgram : Array Int := #[2, 0xEC10, 9, 0xE308]

/-- The second of these requests is refused, for a number that is no word. -/
def storeHistory : List Request :=
  [.load storeProgram .empty, .load #[65536] .empty, .poke 3 (-1), .setD 70000]

theorem failures_atomic_storeHistory :
    ofConfig { ramWords := 4 } = .ok { ram := .zeros 4 } ∧
    ∃ c d e, c = carryOutAll { ram := .zeros 4 } storeHistory ∧ c.rom.numbers = storeProgram ∧
      c.carryOut (.run none) = (.error e, d) ∧
      ∃ k, Completes k c d ∧ d.LacksCell ∧ d.cycles = c.cycles + k := by
  have hstart : ofConfig { ramWords := 4 } = .ok { ram := .zeros 4 } := rfl
  obtain ⟨-, hkeeps, hrequest⟩ := failures_atomic hstart storeHistory
  have hlast : (lastLoaded storeHistory).1 = storeProgram := by decide +kernel
  have hfails : ((carryOutAll { ram := .zeros 4 } storeHistory).carryOut (.run none)).1.isOk =
      false := by
    decide +kernel
  rcases hrun : (carryOutAll { ram := .zeros 4 } storeHistory).carryOut (.run none) with
    ⟨outcome, d⟩
  rw [hrun] at hfails
  cases outcome with
  | ok u => cases hfails
  | error e =>
    refine ⟨hstart, _, d, e, rfl, hkeeps.program.trans hlast, hrun, ?_⟩
    obtain ⟨hrefused, -⟩ | ⟨-, k, hdone, hlacks, -, hcycles⟩ := (hrequest (.run none)).2 e d hrun
    · exact hrefused.elim
    · exact ⟨k, hdone, hlacks, hcycles⟩

end Computer

end HackToolchain.Machine
