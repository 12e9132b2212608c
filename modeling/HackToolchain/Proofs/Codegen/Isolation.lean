import HackToolchain.Proofs.Codegen.Simulation
import HackToolchain.Proofs.Codegen.Standing
import HackToolchain.Proofs.Asm.Variables
import HackToolchain.Proofs.Machine.Runs
import HackToolchain.Proofs.Vm.Activations

/-!
# Calls change nothing of their callers

In a build whose static variables lie between the registers and the stack, calls do to memory what
the stack machine says, so a call that has returned has left its caller's frame and the stack below
the arguments alone (`Build.call_isolated`). A name of a module that is broken over rows may hide
instructions, and then it need not be so (`Build.not_isolated_hiddenUnits`).
-/

set_option autoImplicit false

namespace HackToolchain.Codegen

open Text Machine Asm Vm

namespace Build

variable {b : Build} {i j : Nat}

theorem address_mono (h : i ≤ j) : b.address i ≤ b.address j := by
  obtain ⟨k, rfl⟩ := Nat.exists_eq_add_of_le h
  rw [address, address, List.take_add, List.flatten_append, length_append]
  omega

theorem address_lt_of_call {module : Option String} {name : String} {argumentCount : Int}
    (h : b.tasks[i]? = some ⟨module, .command (.call name argumentCount)⟩) :
    b.address i < b.address (i + 1) := by
  obtain ⟨k, d, hdraft, hi⟩ := b.exists_draft h
  obtain rfl := Except.ok.inj hdraft
  rw [address_succ hi]
  have hjump : b.length [.jump] = 1 := length_act _
  simp only [Scope.draftCall, callCode_eq]
  rw [length_append, length_append, hjump]
  omega

/-- The first task at the address behind a call is the one behind the call. -/
theorem taskAt?_of_call {module : Option String} {name : String} {argumentCount : Int}
    (h : b.tasks[i]? = some ⟨module, .command (.call name argumentCount)⟩) :
    b.program.taskAt? (BitVec.ofNat 16 (b.address (i + 1))) = some (i + 1) := by
  have hlt := (List.getElem?_eq_some_iff.1 h).1
  have hcall := address_lt_of_call h
  rw [Vm.Program.taskAt?, toNat_address, List.find?_range_eq_some, List.mem_range]
  refine ⟨decide_eq_true rfl, Nat.succ_lt_succ hlt, fun j hj => ?_⟩
  have hle := address_mono (b := b) (Nat.le_of_lt_succ hj)
  have hne : b.address j ≠ b.address (i + 1) := by omega
  rw [show b.program.address j = b.address j from rfl, decide_eq_false hne]
  rfl

/-- The static variables that the tasks use lie between the registers and the stack. -/
def LowStatics (b : Build) : Prop :=
  ∀ t ∈ b.tasks, ∀ m index cell, t.static? = some (m, index) → b.cell (some m) index = some cell →
    16 ≤ cell ∧ cell ≤ 255

/-- The static variables of a small program lie below the stack. -/
theorem lowStatics_of_size {b : Build} (hbase : b.base = 16) (hsize : b.assembly.words.size ≤ 240) :
    b.LowStatics := by
  intro t _ m index cell _ hcell
  obtain ⟨statements, -, ha⟩ := b.image
  rw [Build.cell, Option.bind_some] at hcell
  obtain ⟨operand, -, hfind⟩ := Option.bind_eq_some_iff.1 hcell
  obtain ⟨k, hk, hn, -⟩ := ha.exists_place hfind
  have := ha.size_vars_le
  omega

theorem sound (hb : b.LowStatics) : b.program.Sound where
  returns i module name argumentCount h := taskAt?_of_call h
  pops module name index segment hmem hname := by
    obtain ⟨i, hi⟩ := List.mem_iff_getElem?.1 hmem
    obtain ⟨k, d, hdraft, -⟩ := b.exists_draft hi
    obtain ⟨-, s, hs, h0, hlimit, -⟩ := Task.draft_pop hdraft
    obtain rfl := Option.some.inj (hs.symm.trans hname)
    exact ⟨h0, hlimit⟩
  statics module name index cell hmem hname hcell := by
    cases module with
    | none => simp [program, Build.cell] at hcell
    | some m =>
      exact hb _ hmem m index cell (Task.static?_eq_some.2 ⟨name, hname, .inr rfl⟩) hcell

/-- A call changes nothing of its caller's. If no name of a module is broken over rows, a computer
that stands at the code of a call stands behind it when the call has returned; the result has taken
the place of the arguments, the bases of the segments are what they were, and the stack below the
arguments is as it was. So it is however many calls are made in between, if every command keeps to
the activation that it is done in. -/
theorem call_isolated (hu : b.Unbroken) (hb : b.LowStatics) (c : Computer) {arguments : Nat}
    {t : State} (h : b.program.Calls arguments ⟨i, c.ram⟩ t) (hw : c.watch = none)
    (hrom : c.rom.words = b.assembly.words) (hpc : c.registers.pc = BitVec.ofNat 16 (b.address i))
    (hsize : c.ram.size = memoryWords) (ha : 256 + arguments ≤ (c.ram.get 0).toNat) :
    ∃ count c', c.run (some (count : Nat)) = (.ok count, c') ∧
      c'.registers.pc = BitVec.ofNat 16 (b.address (i + 1)) ∧
      (c'.ram.get 0).toNat = (c.ram.get 0).toNat - arguments + 1 ∧
      (∀ r, 1 ≤ r → r ≤ 4 → c'.ram.get r = c.ram.get r) ∧
      ∀ a, 256 ≤ a → a < (c.ram.get 0).toNat - arguments → c'.ram.get a = c.ram.get a := by
  -- The call is a run of the stack machine, which the computer follows. With notes shown, memories
  -- that agree are the same, so what holds of one holds of the other.
  obtain ⟨n, hrun⟩ := h.exists_run
  have hreturned := h.returned (sound hb) (h.stacked hsize (by simp only; omega)) ha
  obtain ⟨e, hreach, he⟩ := follows_of_run hu hrun ⟨c.registers.a, c.registers.d, c.ram⟩
    (Agrees.refl hsize)
  obtain ⟨count, hcount⟩ := Computer.exists_run_of_reaches hw hrom hpc hreach
  have hram := he.eq_of_shown
  refine ⟨count, _, hcount, ?_, ?_, ?_, ?_⟩
  · rw [← hreturned.next]
    rfl
  · rw [← hreturned.stacked.toNat, hram]
    rfl
  · intro r h1 h4
    obtain ⟨k, rfl⟩ := Nat.exists_eq_add_of_le h1
    rw [← hreturned.registers k (by omega), hram]
    rfl
  · intro a hlow hlt
    rw [← hreturned.cells a hlow hlt, hram]
    rfl

theorem exists_calls_callTasks {b : Build} {ram : Ram} {sp : Nat} (ht : b.tasks = callTasks)
    (hs : Stacked ram sp) (hsp : sp ≤ 30000) : ∃ t, b.program.Calls 0 ⟨0, ram⟩ t := by
  have htasks : b.program.tasks = callTasks := ht
  have hplace : b.program.entry? "Main.f" = some 4 := by
    rw [Vm.Program.entry?, htasks]
    decide
  have hback : b.program.taskAt? (BitVec.ofNat 16 (b.program.address 1)) = some 1 :=
    taskAt?_of_call (i := 0) (by rw [ht]; rfl)
  exact Vm.Program.exists_calls_constant hs hsp (by rw [htasks]; rfl) hplace (by rw [htasks]; rfl)
    (fun _ _ h => h) (by rw [htasks]; rfl) (by rw [htasks]; rfl) hback

theorem call_isolated_callUnits : ∃ (b : Build) (c : Computer) (t : State),
    b.units = callUnits ∧ b.Unbroken ∧ b.LowStatics ∧ b.program.Calls 0 ⟨0, c.ram⟩ t ∧
      c.watch = none ∧ c.rom.words = b.assembly.words ∧
      c.registers.pc = BitVec.ofNat 16 (b.address 0) ∧ c.ram.size = memoryWords ∧
      (c.ram.get 0).toNat = 256 ∧ ∃ count c', c.run (some (count : Nat)) = (.ok count, c') ∧
        c'.registers.pc = BitVec.ofNat 16 (b.address 1) ∧ (c'.ram.get 0).toNat = 257 ∧
        ∀ r, 1 ≤ r → r ≤ 4 → c'.ram.get r = c.ram.get r := by
  obtain ⟨b, hu, ht, hbase, -, hsize⟩ := exists_build_callUnits
  have hunbroken : b.Unbroken := by
    rw [Unbroken, ht]
    decide
  have hlow : b.LowStatics := lowStatics_of_size hbase (by omega)
  obtain ⟨ram, hs⟩ : ∃ ram, Stacked ram 256 := exists_stacked (by decide) (by decide)
  obtain ⟨t, hcalls⟩ := exists_calls_callTasks ht hs (by decide)
  have hsp : 256 + 0 ≤ (ram.get 0).toNat := by rw [hs.toNat]
  obtain ⟨count, c', hrun, hpc, hpointer, hregisters, -⟩ := call_isolated hunbroken hlow
    (computerAt b.assembly (b.address 0) ram) hcalls rfl rfl rfl hs.size hsp
  exact ⟨b, _, t, hu, hunbroken, hlow, hcalls, rfl, rfl, rfl, hs.size, hs.toNat, count, c', hrun,
    hpc, hpointer.trans (congrArg (· - 0 + 1) hs.toNat), hregisters⟩

end Build

/-- A module that calls a function of another one and then waits, and the other one, whose name is
broken over rows, so that a label in the function hides two instructions. -/
def hiddenUnits : List SourceUnit :=
  [{ moduleName := "Main", source := .ofString "call g 0\nlabel END\ngoto END\n" },
    { moduleName := "a)\n@300\nM=1\n(b",
      source := .ofString "function g 0\nlabel L\npush constant 7\nreturn\n" }]

def hiddenModule : Option String := some "a)\n@300\nM=1\n(b"

def hiddenTasks : List Task :=
  [⟨some "Main", .command (.call "g" 0)⟩, ⟨some "Main", .command (.label "END")⟩,
    ⟨some "Main", .command (.goto "END")⟩, ⟨hiddenModule, .command (.function "g" 0)⟩,
    ⟨hiddenModule, .command (.label "L")⟩, ⟨hiddenModule, .command (.push "constant" 7)⟩,
    ⟨hiddenModule, .command .return⟩]

/-- The second of two hidden instructions. -/
def storeOne : Action := { destination := { m := true }, computation := .one }

namespace Build

theorem exists_build_hiddenUnits : ∃ b : Build, b.units = hiddenUnits ∧ b.tasks = hiddenTasks ∧
    b.base = 16 ∧ b.assembly.words.size ≤ 200 ∧ b.address 1 = b.address 2 := by
  obtain ⟨b, hu, ht, hcodes, hbase⟩ := @exists_build {} none hiddenUnits hiddenTasks rfl rfl
    (by decide +kernel) (by decide +kernel) (by decide +kernel) (fun e he => by cases he)
  refine ⟨b, hu, ht, hbase, b.size_words_le_of_readCode ?_, ?_⟩
  · rw [hcodes]
    decide +kernel
  · rw [address, address, hcodes, length_of_readCode (n := 47) (by decide +kernel),
      length_of_readCode (n := 47) (by decide +kernel)]

theorem run_storeOne {s : Data} (h : s.a.toNat < s.ram.size) :
    (Op.act storeOne).run s = some ⟨s.a, s.d, s.ram.set s.a.toNat 1⟩ := by
  rw [Op.run, if_pos ⟨rfl, fun _ => h⟩]
  rfl

theorem ops_hiddenLabel (p : Assembly) :
    (Line.define (.label hiddenModule "L")).ops p = [.load 300, .act storeOne] := by
  have hread : (Line.define (.label hiddenModule "L")).read =
      some [.label "a", .load "300", .compute ⟨some "M", "1", none⟩ storeOne, .label "b$L"] := by
    decide +kernel
  have hvalue : p.value? "300" = some 300 := by
    rw [Assembly.value?]
    rfl
  rw [Line.ops, hread]
  simp [List.filterMap_cons, opOf, hvalue]

theorem exists_calls_hiddenTasks {b : Build} {ram : Ram} {sp : Nat} (ht : b.tasks = hiddenTasks)
    (hs : Stacked ram sp) (hsp : sp ≤ 30000) : ∃ t, b.program.Calls 0 ⟨0, ram⟩ t := by
  have htasks : b.program.tasks = hiddenTasks := ht
  have hplace : b.program.entry? "g" = some 3 := by
    rw [Vm.Program.entry?, htasks]
    decide
  have hlabel : b.program.tasks[4]? = some ⟨hiddenModule, .command (.label "L")⟩ := by
    rw [htasks]
    rfl
  have hback : b.program.taskAt? (BitVec.ofNat 16 (b.program.address 1)) = some 1 :=
    taskAt?_of_call (i := 0) (by rw [ht]; rfl)
  refine Vm.Program.exists_calls_constant (k := 5) hs hsp (by rw [htasks]; rfl) hplace
    (by rw [htasks]; rfl) (fun ram t h => ?_) (by rw [htasks]; rfl) (by rw [htasks]; rfl) hback
  -- To the stack machine the label is a command that does nothing.
  have hstep : b.program.step .shown ⟨4, ram⟩ = .ok ⟨5, ram⟩ := by
    simp only [Vm.Program.step, hlabel]
    rfl
  exact .plain hlabel (by simp) ⟨by simp, .inl rfl⟩ hstep h

/-- The label in the function stores a one in cell 300, which to the stack machine it does not. -/
theorem follows_hiddenLabel {b : Build} {ram : Ram} (ht : b.tasks = hiddenTasks)
    (hsize : ram.size = memoryWords) : b.Follows .shown 4 ram ⟨5, ram.set 300 1⟩ := by
  obtain ⟨k, d, hdraft, hi⟩ := b.exists_draft (i := 4) (by rw [ht]; rfl)
  obtain rfl := Except.ok.inj hdraft
  refine follows_of_yields hi fun e he => ?_
  obtain rfl := he.eq_of_shown
  have hops : codeOps b.assembly (labelCode hiddenModule "L") = [.load 300, .act storeOne] :=
    ops_hiddenLabel b.assembly
  have hcell : (300 : Word).toNat < e.ram.size := hsize ▸ by decide
  have hstore : (Op.act storeOne).run ⟨300, e.d, e.ram⟩ = some ⟨300, e.d, e.ram.set 300 1⟩ :=
    run_storeOne hcell
  have hstored : Yields [.load 300, .act storeOne] e fun f =>
      Agrees .shown (e.ram.set 300 1) f.ram :=
    ⟨_, congrArg (Option.bind · some) hstore, Agrees.refl ((Ram.size_set ..).trans hsize)⟩
  exact hops ▸ hstored

/-- The processor comes back from the call with a one in cell 300. -/
theorem exists_follows_hiddenTasks {b : Build} {ram : Ram} (ht : b.tasks = hiddenTasks)
    (hs : Stacked ram 400) :
    ∃ t : State, b.Follows .shown 0 ram t ∧ t.next = 1 ∧ t.ram.get 300 = 1 := by
  have htasks : b.program.tasks = hiddenTasks := ht
  obtain ⟨ram₁, henter, h₁, hframe, hbase, hplaced, -, -⟩ := hs.endsAt.enter 0
    (by decide) (by decide) (by decide) (BitVec.ofNat 16 (b.program.address 1))
  have h₂ : EndsAt (ram₁.set 300 1) 405 := h₁.set (by decide)
  obtain ⟨ram₃, ram₄, hpush, hleave, -, hchanges⟩ := EndsAt.exists_push_leave h₂
    ((get_set_of_ne (by decide) _).trans hframe) ((get_set_of_ne (by decide) _).trans hbase)
    (by decide) (by decide) (Word.ofInt 7)
  rw [get_set_of_ne (by decide), hplaced] at hleave
  have hcalled : b.Follows .shown 0 ram ⟨3, ram₁⟩ := by
    refine follows_of_perform (by rw [ht]; rfl) (by decide) (bind_eq_ok.2 ⟨ram₁, henter, ?_⟩)
    rw [Vm.Program.entry?, htasks]
    rfl
  have hbegun : b.Follows .shown 3 ram₁ ⟨4, ram₁⟩ := follows_function (by rw [ht]; rfl) rfl
  have hhidden := follows_hiddenLabel ht h₁.size
  have hpushed : b.Follows .shown 5 (ram₁.set 300 1) ⟨6, ram₃⟩ := by
    have hpushed : pushFrom .shown (b.cell hiddenModule 7) .constant 7 (ram₁.set 300 1) =
        .ok ram₃ := hpush
    exact follows_push (by rw [ht]; rfl) rfl hpushed
  have hreturned : b.Follows .shown 6 ram₃ ⟨1, ram₄⟩ := by
    obtain ⟨k, d, hdraft, hi⟩ := b.exists_draft (i := 6) (by rw [ht]; rfl)
    obtain rfl := Except.ok.inj hdraft
    exact follows_return hi hleave (taskAt?_of_call (i := 0) (by rw [ht]; rfl))
  have hentered := hcalled.trans hbegun
  refine ⟨⟨1, ram₄⟩, ((hentered.trans hhidden).trans hpushed).trans hreturned, rfl, ?_⟩
  exact (hchanges 300 (by decide)).trans (get_set_self h₁.size (by decide) _)

theorem circle_hiddenTasks {b : Build} (ht : b.tasks = hiddenTasks)
    (hsame : b.address 1 = b.address 2) : Circle b.assembly.words (b.address 1) := by
  have hplace : b.program.label? (some "Main") "END" = some 1 := by
    rw [Vm.Program.label?, show b.program.tasks = hiddenTasks from ht]
    decide
  obtain ⟨k, d, hdraft, hi⟩ := b.exists_draft (i := 2) (by rw [ht]; rfl)
  obtain rfl := Except.ok.inj hdraft
  rw [hsame]
  exact circle_of_goto hi hplace hsame

theorem not_isolated_hiddenUnits : ∃ (b : Build) (c : Computer) (t : State),
    b.units = hiddenUnits ∧ b.LowStatics ∧ b.program.Calls 0 ⟨0, c.ram⟩ t ∧ c.watch = none ∧
      c.rom.words = b.assembly.words ∧ c.registers.pc = BitVec.ofNat 16 (b.address 0) ∧
      c.ram.size = memoryWords ∧ (c.ram.get 0).toNat = 400 ∧ c.ram.get 300 = 0 ∧
      (∃ count c', c.run (some (count : Nat)) = (.ok count, c') ∧
        c'.registers.pc = BitVec.ofNat 16 (b.address 1)) ∧
      ∀ count c', c.run (some (count : Nat)) = (.ok count, c') →
        c'.registers.pc = BitVec.ofNat 16 (b.address 1) → c'.ram.get 300 = 1 := by
  obtain ⟨b, hu, ht, hbase, hsize, hsame⟩ := exists_build_hiddenUnits
  obtain ⟨ram, hs, hzero⟩ : ∃ ram, Stacked ram 400 ∧ ram.get 300 = 0 :=
    ⟨(Ram.zeros memoryWords).set 0 (BitVec.ofNat 16 400),
      ⟨(Ram.size_set ..).trans (size_zeros _), get_set_self (size_zeros _) (by decide) _,
        by decide, by decide⟩,
      (get_set_of_ne (by decide) _).trans (get_zeros _ _)⟩
  obtain ⟨t, hcalls⟩ := exists_calls_hiddenTasks ht hs (by decide)
  obtain ⟨u, hfollows, hnext, hone⟩ := exists_follows_hiddenTasks ht hs
  obtain ⟨c, hc⟩ : ∃ c, c = computerAt b.assembly (b.address 0) ram := ⟨_, rfl⟩
  have hw : c.watch = none := hc ▸ rfl
  have hrom : c.rom.words = b.assembly.words := hc ▸ rfl
  have hpc : c.registers.pc = BitVec.ofNat 16 (b.address 0) := hc ▸ rfl
  obtain rfl : c.ram = ram := hc ▸ rfl
  obtain ⟨e, hreach, he⟩ := hfollows c.data (Agrees.refl hs.size)
  rw [hnext] at hreach
  obtain ⟨count, hrun⟩ := Computer.exists_run_of_reaches hw hrom hpc hreach
  have hcircle : Circle c.rom.words (b.address 1) := hrom ▸ circle_hiddenTasks ht hsame
  refine ⟨b, c, t, hu, lowStatics_of_size hbase (by omega), hcalls, hw, hrom, hpc, hs.size,
    hs.toNat, hzero, ⟨count, _, hrun, rfl⟩, fun count' c' hrun' hpc' => ?_⟩
  -- Behind the call the program waits in a jump to itself, so whenever a run is there, the memory
  -- is that of the first time.
  have hdone := Computer.completes_of_runFrom hw (Computer.run_some c count ▸ hrun)
  have hdone' := Computer.completes_of_runFrom hw (Computer.run_some c count' ▸ hrun')
  have hback : u.ram = e.ram := he.eq_of_shown
  rw [hdone.ram_eq_of_circles hdone' hw hcircle (.inl rfl) (.inl hpc'), ← hone, hback]
  rfl

end Build

end HackToolchain.Codegen
