import HackToolchain.Proofs.Codegen.Isolation
import HackToolchain.Proofs.Vm.Resolution

/-!
# The machine code refines the stack machine

A build is resolved when every label that is jumped to is defined in its module, every function that
is called is defined, and no static variable has the name of a label. Then the stack machine never
stops at a name (`Build.Resolved.run`), and the computer does what the stack machine does
(`Build.run_refines`).
-/

set_option autoImplicit false

namespace HackToolchain.Codegen

open Text Machine Asm Vm

namespace Build

variable {b : Build} {i : Nat}

/-- The names that the tasks of a build use stand for something. -/
structure Resolved (b : Build) : Prop where
  /-- Labels are defined in the module in which they are jumped to. -/
  labels : ∀ module name, (⟨module, .command (.goto name)⟩ ∈ b.tasks ∨
    ⟨module, .command (.ifGoto name)⟩ ∈ b.tasks) → ⟨module, .command (.label name)⟩ ∈ b.tasks
  /-- Functions that are called are defined. -/
  functions : ∀ module name argumentCount, ⟨module, .command (.call name argumentCount)⟩ ∈ b.tasks →
    ∃ module' localCount, ⟨module', .command (.function name localCount)⟩ ∈ b.tasks
  /-- Static variables are no labels. -/
  statics : ∀ t ∈ b.tasks, ∀ m index operand, t.static? = some (m, index) →
    (Symbol.static m index).operand? = some operand → b.assembly.labels.find? operand = none

theorem isSome_label? {module : Option String} {name : String}
    (h : ⟨module, .command (.label name)⟩ ∈ b.tasks) : (b.program.label? module name).isSome := by
  rw [Vm.Program.label?, List.findIdx?_isSome, List.any_eq_true]
  exact ⟨_, h, decide_eq_true rfl⟩

theorem isSome_entry_of_mem {module : Option String} {name : String} {localCount : Int}
    (h : ⟨module, .command (.function name localCount)⟩ ∈ b.tasks) :
    (b.program.entry? name).isSome := by
  rw [Vm.Program.entry?, List.findIdx?_isSome, List.any_eq_true]
  exact ⟨_, h, by simp [Vm.Program.isEntry]⟩

theorem mem_tasks_of_mem_unitTasks {t : Task} (h : t ∈ unitTasks b.units) : t ∈ b.tasks :=
  List.mem_append_right _ h

theorem exists_unit {t : Task} {c : Command} (h : t ∈ b.tasks) (hc : t.job = .command c) :
    ∃ u ∈ b.units, t.module = moduleOfName? u.moduleName := by
  rcases List.mem_append.1 h with hboot | hunit
  · obtain ⟨e, -, rfl⟩ := List.mem_map.1 hboot
    simp at hc
  · obtain ⟨u, hu, hm, -⟩ := of_mem_unitTasks hunit
    exact ⟨u, hu, hm⟩

namespace Resolved

theorem isSome_cell (hr : b.Resolved) (hu : b.Unbroken) {t : Task} (ht : b.tasks[i]? = some t)
    {m : String} {index : Int} (hs : t.static? = some (m, index)) :
    (b.cell (some m) index).isSome := by
  have hmem := List.mem_of_getElem? ht
  obtain ⟨k, d, hdraft, hi⟩ := b.exists_draft ht
  have hload := mem_codes hi (Task.load_mem_of_static? hdraft hs)
  have hmodule : t.module = some m ∧ ∃ c, t.job = .command c := by
    obtain ⟨segment, -, rfl | rfl⟩ := Task.static?_eq_some.1 hs
    · exact ⟨rfl, _, rfl⟩
    · exact ⟨rfl, _, rfl⟩
  obtain ⟨hmodule, c, hc⟩ := hmodule
  obtain ⟨u, -, hname⟩ := exists_unit hmem hc
  have hbroken := hu t hmem
  rw [hmodule] at hname hbroken
  obtain ⟨operand, n, hoperand, hn⟩ := b.image.exists_find?_static hload
    (ne_slash_of_moduleOfName? hname.symm) (unbroken_static hbroken index)
    fun operand => hr.statics t hmem m index operand hs
  simp [cell, hoperand, hn]

theorem perform (hr : b.Resolved) (hu : b.Unbroken) {v : Notes} {ram : Ram}
    {module : Option String} {c : Command} (ht : b.tasks[i]? = some ⟨module, .command c⟩) :
    Resolves (b.program.perform v i module c ram) := by
  have hmem := List.mem_of_getElem? ht
  obtain ⟨k, d, hdraft, -⟩ := b.exists_draft ht
  have hcell (index : Int) (hs : ∀ m, module = some m →
      (⟨module, .command c⟩ : Task).static? = some (m, index)) (hne : module ≠ none) :
      (b.program.cell module index).isSome := by
    cases module with
    | none => exact absurd rfl hne
    | some m => exact hr.isSome_cell hu ht (hs m rfl)
  refine Vm.Program.resolves_perform ?_ ?_ ?_ ?_ ?_
  · rintro name rfl
    obtain ⟨op, hop, -, -⟩ := Task.draft_operator hdraft
    rw [hop]
    rfl
  · rintro segment index rfl
    obtain ⟨-, s, hs, -, -, hcode⟩ := Task.draft_push hdraft
    refine ⟨s, hs, fun hstatic => hcell index ?_ ?_⟩
    · rintro m rfl
      exact Task.static?_eq_some.2 ⟨segment, hstatic ▸ hs, .inl rfl⟩
    · rintro rfl
      simp [hstatic, pushCode, staticSymbol, Except.map] at hcode
  · rintro segment index rfl
    obtain ⟨-, s, hs, -, -, hcode⟩ := Task.draft_pop hdraft
    refine ⟨s, hs, ?_, fun hstatic => hcell index ?_ ?_⟩
    · rintro rfl
      simp [popCode] at hcode
    · rintro m rfl
      exact Task.static?_eq_some.2 ⟨segment, hstatic ▸ hs, .inr rfl⟩
    · rintro rfl
      simp [hstatic, popCode, staticSymbol, Except.map] at hcode
  · rintro name (rfl | rfl)
    · exact isSome_label? (hr.labels module name (.inl hmem))
    · exact isSome_label? (hr.labels module name (.inr hmem))
  · rintro name argumentCount rfl
    obtain ⟨module', localCount, hfunction⟩ := hr.functions module name argumentCount hmem
    exact isSome_entry_of_mem hfunction

theorem step (hr : b.Resolved) (hu : b.Unbroken) (v : Notes) (s : State) :
    Resolves (b.program.step v s) := by
  unfold Vm.Program.step
  split
  · simp [Resolves]
  · next t ht =>
    obtain ⟨module, job⟩ := t
    cases job with
    | command c => exact hr.perform hu ht
    | bootstrap entry stackBase =>
      have hboot : (entry, stackBase) ∈ b.boot := by
        rcases List.mem_append.1 (List.mem_of_getElem? ht) with hboot | hunit
        · obtain ⟨e, he, htask⟩ := List.mem_map.1 hboot
          obtain ⟨-, hjob⟩ := Task.mk.inj htask
          obtain ⟨rfl, rfl⟩ := Job.bootstrap.inj hjob
          exact Option.mem_toList.1 he
        · obtain ⟨-, -, -, -, -, c, -, hc⟩ := of_mem_unitTasks hunit
          simp at hc
      obtain ⟨module', localCount, hentry⟩ := b.entered _ hboot
      exact (resolves_store _ _).bind fun _ _ =>
        Vm.Program.resolves_call 0 (isSome_entry_of_mem (mem_tasks_of_mem_unitTasks hentry))

/-- However long the stack machine runs, it stops at no name. -/
theorem run (hr : b.Resolved) (hu : b.Unbroken) (v : Notes) (n : Nat) (s : State) :
    Resolves (b.program.run v n s) := by
  induction n generalizing s with
  | zero => exact resolves_ok s
  | succ n ih => exact (hr.step hu v s).bind fun t _ => ih t

end Resolved

/-- The machine code refines the stack machine. If no name of a module is broken over rows, a
computer that stands at the code of the next task, with a memory that agrees, comes after some
instructions to the code of the task that is next after any number of steps of the stack machine,
and the memories agree again. No step of the stack machine fails for want of a name. -/
theorem run_refines (hr : b.Resolved) (hu : b.Unbroken) (v : Notes) (n : Nat) (s : State) :
    b.program.run v n s ≠ .error .unresolved ∧
      ∀ t, b.program.run v n s = .ok t → ∀ c : Computer, c.watch = none →
        c.rom.words = b.assembly.words → c.registers.pc = BitVec.ofNat 16 (b.address s.next) →
        Agrees v s.ram c.ram → ∃ count c', c.run (some (count : Nat)) = (.ok count, c') ∧
          c'.registers.pc = BitVec.ofNat 16 (b.address t.next) ∧ Agrees v t.ram c'.ram := by
  refine ⟨hr.run hu v n s, fun t ht c hw hrom hpc hram => ?_⟩
  obtain ⟨e, hreach, he⟩ := follows_of_run hu ht ⟨c.registers.a, c.registers.d, c.ram⟩ hram
  obtain ⟨count, hrun⟩ := Computer.exists_run_of_reaches hw hrom hpc hreach
  exact ⟨count, _, hrun, rfl, he⟩

theorem run_refines_callUnits : ∃ (b : Build) (c : Computer) (n : Nat) (t : State),
    b.units = callUnits ∧ b.Resolved ∧ b.Unbroken ∧ b.program.run .shown n ⟨0, c.ram⟩ = .ok t ∧
      t.next = 1 ∧ c.watch = none ∧ c.rom.words = b.assembly.words ∧
      c.registers.pc = BitVec.ofNat 16 (b.address 0) ∧
      ∃ count c', c.run (some (count : Nat)) = (.ok count, c') ∧
        c'.registers.pc = BitVec.ofNat 16 (b.address 1) ∧ Agrees .shown t.ram c'.ram := by
  obtain ⟨b, hu, ht, hbase, hstatic, hsize⟩ := exists_build_callUnits
  have hunbroken : b.Unbroken := by
    rw [Unbroken, ht]
    decide
  have hresolved : b.Resolved := by
    refine ⟨?_, ?_, ?_⟩
    · rw [ht]
      simp [callTasks]
    · rw [ht]
      simp +contextual [callTasks]
    · intro t hmem m index operand hs hoperand
      have hused : callTasks.filterMap Task.static? = [("Main", 0)] := by decide +kernel
      rw [ht] at hmem
      have hname : (m, index) ∈ callTasks.filterMap Task.static? :=
        List.mem_filterMap.2 ⟨t, hmem, hs⟩
      rw [hused, List.mem_singleton, Prod.mk.injEq] at hname
      obtain ⟨rfl, rfl⟩ := hname
      rw [show (Symbol.static "Main" 0).operand? = some "Main.0" by decide +kernel] at hoperand
      exact Option.some.inj hoperand ▸ hstatic
  obtain ⟨ram, hs⟩ : ∃ ram, Stacked ram 256 := exists_stacked (by decide) (by decide)
  obtain ⟨t, hcalls⟩ := exists_calls_callTasks ht hs (by decide)
  obtain ⟨n, hrun⟩ := hcalls.exists_run
  have hnext := (hcalls.returned (sound (lowStatics_of_size hbase (by omega))) hs (by decide)).next
  obtain ⟨-, hrefines⟩ := run_refines hresolved hunbroken .shown n ⟨0, ram⟩
  obtain ⟨count, c', hcount, hpc, hagrees⟩ := hrefines t hrun
    (computerAt b.assembly (b.address 0) ram) rfl rfl rfl (Agrees.refl hs.size)
  rw [hnext] at hpc
  exact ⟨b, _, n, t, hu, hresolved, hunbroken, hrun, hnext, rfl, rfl, rfl, count, c', hcount, hpc,
    hagrees⟩

end Build

/-- A module whose name is broken over rows, so that its label hides two instructions. -/
def brokenUnits : List SourceUnit :=
  [{ moduleName := "a)\n@5\nM=1\n(b", source := .ofString "label L" }]

def brokenTasks : List Task := [⟨some "a)\n@5\nM=1\n(b", .command (.label "L")⟩]

namespace Build

theorem exists_build_brokenUnits : ∃ b : Build, b.units = brokenUnits ∧ b.tasks = brokenTasks ∧
    b.assembly.words = #[encodeLoad 5, storeOne.encode] ∧ b.address 1 = 2 := by
  obtain ⟨b, hu, ht, hcodes, -⟩ := @exists_build {} none brokenUnits brokenTasks rfl rfl
    (by decide +kernel) (by decide +kernel) (by decide +kernel) (fun e he => by cases he)
  obtain ⟨statements, hread, ha⟩ := b.image
  have hfirst : (draftCodes {} brokenTasks).take 1 = draftCodes {} brokenTasks := rfl
  have hread' : readCode (draftCodes {} brokenTasks).flatten =
      some [.label "a", .load "5", .compute ⟨some "M", "1", none⟩ storeOne, .label "b$L"] := by
    decide +kernel
  have hlength : (b.address 1) = 2 := by
    rw [address, hcodes, hfirst, length_of_readCode (n := 2)]
    rw [hread']
    rfl
  rw [hcodes, hread', Option.some.injEq] at hread
  subst hread
  refine ⟨b, hu, ht, ?_, hlength⟩
  have hvalue : b.assembly.value? "5" = some 5 := by
    rw [Assembly.value?]
    rfl
  apply Array.ext'
  rw [ha.words]
  simp [List.filterMap_cons, Assembly.wordOf, hvalue]

theorem not_refines_brokenUnits : ∃ b : Build, b.units = brokenUnits ∧ b.Resolved ∧
    ∃ (s t : State) (c : Computer), b.program.run .shown 1 s = .ok t ∧ t.ram.get 5 = 0 ∧
      c.watch = none ∧ c.rom.words = b.assembly.words ∧
      c.registers.pc = BitVec.ofNat 16 (b.address s.next) ∧ c.ram = s.ram ∧
      ∀ count c', c.run (some (count : Nat)) = (.ok count, c') →
        c'.registers.pc = BitVec.ofNat 16 (b.address t.next) → c'.ram.get 5 = 1 := by
  obtain ⟨b, hu, ht, hwords, hlength⟩ := exists_build_brokenUnits
  have hresolved : b.Resolved := by
    refine ⟨?_, ?_, ?_⟩ <;> rw [ht] <;> simp [brokenTasks, Task.static?]
  obtain ⟨ram, hsize, hfive⟩ : ∃ ram : Ram, ram.size = memoryWords ∧ ram.get 5 = 0 :=
    ⟨Ram.zeros memoryWords, size_zeros _, get_zeros _ _⟩
  have hlabel : b.program.run .shown 1 ⟨0, ram⟩ = .ok ⟨1, ram⟩ := by
    refine bind_eq_ok.2 ⟨⟨1, ram⟩, ?_, rfl⟩
    rw [Vm.Program.step, show b.program.tasks = brokenTasks from ht]
    rfl
  obtain ⟨c, hc⟩ : ∃ c : Computer, c = { ram, rom := { words := b.assembly.words } } := ⟨_, rfl⟩
  have hrom : b.assembly.words.size ≤ 65536 := by simp [hwords]
  have hfirst : c.step = (.ok true, c.advance (Data.before ⟨5, 0, ram⟩ 1) 1) := by
    have hword : b.assembly.words[0]? = some (Op.load 5).word := by simp [hwords, Op.word]
    have hload : (Op.load 5).run ⟨0, 0, ram⟩ = some ⟨5, 0, ram⟩ := rfl
    have hstep := step_op hrom hword hload
    subst hc
    exact Computer.step_of_core rfl hstep
  have hsecond : (c.advance (Data.before ⟨5, 0, ram⟩ 1) 1).step =
      (.ok true, c.advance (Data.before ⟨5, 0, ram.set 5 1⟩ 2) 2) := by
    have hword : b.assembly.words[1]? = some (Op.act storeOne).word := by simp [hwords, Op.word]
    have hcell : (5 : Word).toNat < ram.size := hsize ▸ by decide
    have hstore : (Op.act storeOne).run ⟨5, 0, ram⟩ = some ⟨5, 0, ram.set 5 1⟩ :=
      run_storeOne hcell
    have hstep := step_op hrom hword hstore
    subst hc
    exact @Computer.step_of_core (Computer.advance _ _ _) _ rfl hstep
  have hthird : (c.advance (Data.before ⟨5, 0, ram.set 5 1⟩ 2) 2).step =
      (.ok false, c.advance (Data.before ⟨5, 0, ram.set 5 1⟩ 2) 2) := by
    subst hc
    simp [Computer.step, Computer.current, Rom.fetch, Computer.advance, Data.before, hwords]
  refine ⟨b, hu, hresolved, ⟨0, ram⟩, ⟨1, ram⟩, c, hlabel, hfive, ?_, ?_, ?_, ?_, ?_⟩
  iterate 4 (subst hc; rfl)
  intro count c' hrun hpc
  simp only [hlength] at hpc
  rw [Computer.run, Computer.budget, Option.getD_some, Int.toNat_natCast] at hrun
  rcases count with _ | _ | _ | count
  · rw [Computer.runFrom] at hrun
    obtain rfl := (Prod.mk.inj hrun).2
    subst hc
    simp at hpc
  · simp only [Computer.runFrom, hfirst] at hrun
    obtain rfl := (Prod.mk.inj hrun).2
    simp [Computer.advance, Data.before] at hpc
  · simp only [Computer.runFrom, hfirst, hsecond] at hrun
    obtain rfl := (Prod.mk.inj hrun).2
    simp [Computer.advance, Data.before, Ram.get_set, hsize, memoryWords]
  · simp only [Computer.runFrom, hfirst, hsecond, hthird] at hrun
    have hcount := Except.ok.inj (Prod.mk.inj hrun).1
    omega

end Build

end HackToolchain.Codegen
