import HackToolchain.Proofs.Codegen.Build

/-!
# The processor follows the stack machine

The code of each task does on the processor what the task does on the stack machine: from memories
that agree it leads to the beginning of the code of the next task, with memories that agree again
(`Build.follows_of_step`). The code of a task is placed in the program, so it runs as placed code
does; the places that it jumps to are found by the symbols defined there.
-/

set_option autoImplicit false

namespace HackToolchain.Codegen

open Text Machine Asm Vm

namespace Build

variable {b : Build} {v : Notes} {i j : Nat} {c : Code} {ram ram₁ : Ram} {s : Data}
  {Q : Data → Prop}

theorem size_words_le : b.assembly.words.size ≤ 65536 := by
  have := b.fits
  omega

theorem encodeLoad_address (i : Nat) :
    encodeLoad (b.address i : Int) = BitVec.ofNat 16 (b.address i) := by
  have := b.address_le i
  exact encodeLoad_of_lt (by omega)

theorem toNat_address (i : Nat) : (BitVec.ofNat 16 (b.address i)).toNat = b.address i := by
  have := b.address_le i
  rw [BitVec.toNat_ofNat]
  omega

/-! ## Tasks -/

/-- The processor goes from the code of a task to that of the next one of a state, if its memory
agrees with one, and then its memory agrees with that of the state. -/
def Follows (b : Build) (v : Notes) (i : Nat) (ram : Ram) (t : State) : Prop :=
  ∀ d : Data, Agrees v ram d.ram → ∃ e : Data,
    Core.Reaches b.assembly.words (d.before (b.address i)) (e.before (b.address t.next)) ∧
      Agrees v t.ram e.ram

theorem Follows.refl (i : Nat) (ram : Ram) : b.Follows v i ram ⟨i, ram⟩ :=
  fun d hd => ⟨d, .refl _, hd⟩

theorem Follows.trans {t u : State} (h : b.Follows v i ram t) (g : b.Follows v t.next t.ram u) :
    b.Follows v i ram u := by
  intro d hd
  obtain ⟨e, hreach, he⟩ := h d hd
  obtain ⟨f, hreach', hf⟩ := g e he
  exact ⟨f, hreach.trans hreach', hf⟩

/-- A task with straight code is followed to the next one. -/
theorem follows_of_yields (hi : b.codes[i]? = some c)
    (h : ∀ d : Data, Agrees v ram d.ram →
      Yields (codeOps b.assembly c) d fun e => Agrees v ram₁ e.ram) :
    b.Follows v i ram ⟨i + 1, ram₁⟩ := by
  intro d hd
  obtain ⟨e, he, hreach⟩ := Placed.reaches_of_yields [] c [] (by simpa using placed hi)
    size_words_le (h d hd)
  refine ⟨e, ?_, he⟩
  rw [address_succ hi]
  exact hreach

theorem getElem?_of_findIdx? {α : Type} {xs : List α} {f : α → Bool} (h : xs.findIdx? f = some j) :
    ∃ x, xs[j]? = some x ∧ f x = true := by
  obtain ⟨hlt, hf, -⟩ := List.findIdx?_eq_some_iff_getElem.1 h
  exact ⟨xs[j], List.getElem?_eq_getElem hlt, hf⟩

theorem isBreak_of_task {module : Option String} {command : Command} {name : String}
    (h : b.tasks[i]? = some ⟨module, .command command⟩) (hn : command.name? = some name) :
    ∀ ch ∈ name.toList, isBreak ch = false := by
  have hmem : ⟨module, .command command⟩ ∈ unitTasks b.units := by
    rcases List.mem_append.1 (List.mem_of_getElem? h) with hboot | hunit
    · obtain ⟨e, -, he⟩ := List.mem_map.1 hboot
      exact absurd (Task.mk.inj he).2 (by simp)
    · exact hunit
  exact fun ch hch => isBreak_of_not_isBlank ((tight_of_mem_unitTasks hmem hn).isBlank ch hch)

theorem ops_load_label {module : Option String} {name : String} {d : Code}
    (hj : b.program.label? module name = some j) (hi : b.codes[i]? = some d)
    (hl : .load (.label module name) ∈ d) :
    (Line.load (.label module name)).ops b.assembly = [.load (b.address j)] := by
  obtain ⟨t, ht, hf⟩ := getElem?_of_findIdx? hj
  obtain rfl := of_decide_eq_true hf
  obtain ⟨k, e, he, hcode⟩ := b.exists_draft ht
  obtain rfl := Except.ok.inj he
  obtain ⟨a, ha⟩ := (placed hi).exists_read hl
  exact (placed hcode).ops_load_of_define ha

theorem ops_load_function {name : String} {d : Code} (hj : b.program.entry? name = some j)
    (hi : b.codes[i]? = some d) (hl : .load (.function name) ∈ d) :
    (Line.load (.function name)).ops b.assembly = [.load (b.address j)] := by
  obtain ⟨t, ht, hf⟩ := getElem?_of_findIdx? hj
  obtain ⟨module, job⟩ := t
  unfold Vm.Program.isEntry at hf
  split at hf
  · next f n hjob =>
    obtain rfl := of_decide_eq_true hf
    simp only at hjob
    subst hjob
    obtain ⟨k, e, he, hcode⟩ := b.exists_draft ht
    obtain rfl := Except.ok.inj he
    obtain ⟨a, ha⟩ := (placed hi).exists_read hl
    exact (placed hcode).ops_load_of_define ha
  · simp at hf

/-! ## Each kind of task -/

theorem follows_goto {module : Option String} {name : String} {t : State}
    (hi : b.codes[i]? = some (gotoCode module name))
    (h : Vm.Program.goTo (b.program.label? module name) ram = .ok t) : b.Follows v i ram t := by
  obtain ⟨j, hj, rfl⟩ := Vm.Program.goTo_eq_ok.1 h
  intro d hd
  have hload := ops_load_label hj hi (by simp [gotoCode])
  have hyields : Yields (codeOps b.assembly [Line.load (.label module name)]) d fun e =>
      e.a = BitVec.ofNat 16 (b.address j) ∧ e.ram = d.ram := by
    simp [Yields, hload, encodeLoad_address]
  obtain ⟨e, ⟨ha, he⟩, hreach⟩ := Placed.reaches_of_yields [] _ [Line.jump] (placed hi)
    size_words_le hyields
  have hjump := Placed.reaches_of_jump [Line.load (.label module name)] [] (placed hi)
    size_words_le e
  rw [ha, toNat_address] at hjump
  exact ⟨e, hreach.trans hjump, he ▸ hd⟩

/-- A jump to a label right in front of it goes on for ever. -/
theorem circle_of_goto {module : Option String} {name : String}
    (hi : b.codes[i]? = some (gotoCode module name)) (hj : b.program.label? module name = some j)
    (hsame : b.address j = b.address i) : Circle b.assembly.words (b.address i) := by
  have hload := ops_load_label hj hi (by simp [gotoCode])
  have hholds := (placed hi).holds
  simp only [gotoCode, Line.jump, codeOps_cons, codeOps_nil, hload, Line.ops_act, hsame,
    List.append_nil, List.singleton_append, List.map_cons, List.map_nil, holds_cons] at hholds
  exact ⟨b.fits, hholds.1, hholds.2.1⟩

theorem follows_ifGoto {module : Option String} {name : String} {x : Word} {t : State}
    (ht : b.tasks[i]? = some ⟨module, .command (.ifGoto name)⟩) (hm : brokenModule module = false)
    (hpop : pop v ram = .ok (x, ram₁))
    (h : (if x = 0 then .ok ⟨i + 1, ram₁⟩
      else Vm.Program.goTo (b.program.label? module name) ram₁) = .ok t) : b.Follows v i ram t := by
  obtain ⟨k, e, he, hi⟩ := b.exists_draft ht
  obtain rfl := Except.ok.inj he
  have hi :
      b.codes[i]? = some (popD ++ [Line.load (.label module name)] ++ [Line.jumpOnD .ne]) := by
    simpa [Scope.plain, ifGotoCode] using hi
  obtain ⟨n, hload⟩ := (placed hi).exists_ops_load (unbroken_label hm (isBreak_of_task ht rfl))
    (by simp)
  intro d hd
  have hyields : Yields (codeOps b.assembly (popD ++ [Line.load (.label module name)])) d fun e =>
      e.d = x ∧ e.a = encodeLoad n ∧ Agrees v ram₁ e.ram := by
    rw [codeOps_append]
    refine (yields_popD hd hpop).append fun e he => ?_
    simpa [Yields, hload] using ⟨he.1, he.2.1⟩
  obtain ⟨e, ⟨hx, ha, he⟩, hreach⟩ := Placed.reaches_of_yields [] _ [Line.jumpOnD .ne] (placed hi)
    size_words_le hyields
  have hjump := Placed.reaches_of_jumpOnD .ne (popD ++ [Line.load (.label module name)]) []
    (by simpa using placed hi) size_words_le e
  have hsucc : b.address i +
      (codeOps b.assembly (popD ++ [Line.load (.label module name)] ++ [Line.jumpOnD .ne])).length =
        b.address (i + 1) := (address_succ hi).symm
  rw [hsucc, hx, ha] at hjump
  have hreach := hreach.trans hjump
  have hne : Jump.holds .ne x.signed = decide (x ≠ 0) := by
    have : x.signed = 0 ↔ x = 0 := by
      rw [← BitVec.toInt_inj, BitVec.ofNat_eq_ofNat, BitVec.toInt_zero]
      rfl
    simp [Jump.holds, this]
  rw [hne] at hreach
  by_cases hz : x = 0
  · rw [if_pos hz] at h
    obtain rfl := Except.ok.inj h
    rw [if_neg (by simp [hz])] at hreach
    exact ⟨e, hreach, he⟩
  · rw [if_neg hz] at h
    rw [if_pos (by simpa using hz)] at hreach
    obtain ⟨j, hj, rfl⟩ := Vm.Program.goTo_eq_ok.1 h
    rw [ops_load_label hj hi (by simp)] at hload
    obtain rfl := Op.load.inj (List.cons.inj hload).1
    rw [encodeLoad_address, toNat_address] at hreach
    exact ⟨e, hreach, he⟩

theorem follows_push {module : Option String} {name : String} {index : Int} {segment : Segment}
    (ht : b.tasks[i]? = some ⟨module, .command (.push name index)⟩)
    (hname : Segment.ofName? name = some segment)
    (h : pushFrom v (b.cell module index) segment index ram = .ok ram₁) :
    b.Follows v i ram ⟨i + 1, ram₁⟩ := by
  obtain ⟨k, d, hdraft, hi⟩ := b.exists_draft ht
  obtain ⟨-, s, hs, -, -, hcode⟩ := Task.draft_push hdraft
  obtain rfl := Option.some.inj (hname.symm.trans hs)
  exact follows_of_yields hi fun e he =>
    yields_pushCode hcode (fun n hn => (placed hi).loadsNumber hn) (loadsStatic module index) he h

theorem follows_function {module : Option String} {name : String} {localCount : Int}
    (ht : b.tasks[i]? = some ⟨module, .command (.function name localCount)⟩)
    (h : clearLocals v localCount.toNat ram = .ok ram₁) : b.Follows v i ram ⟨i + 1, ram₁⟩ := by
  obtain ⟨k, e, he, hi⟩ := b.exists_draft ht
  obtain rfl := Except.ok.inj he
  refine follows_of_yields hi fun d hd => ?_
  have hdefine := (placed hi).ops_define (isBreak_of_task ht rfl) (s := .function name)
    List.mem_cons_self
  have hzeros := yields_zeroLocals (p := b.assembly) hd h
  simpa [Scope.plain, functionCode, hdefine] using hzeros

/-- The code of a call, behind other code, enters a function that returns behind it. -/
theorem follows_callCode {module : Option String} {name : String} {number argumentCount : Int}
    {before : Code} {t : State}
    (hi : b.codes[i]? = some (before ++ callCode module number name argumentCount))
    (hbefore : ∀ d : Data, Agrees v ram d.ram →
      Yields (codeOps b.assembly before) d fun e => Agrees v ram₁ e.ram)
    (h : b.program.call v i name argumentCount ram₁ = .ok t) : b.Follows v i ram t := by
  simp only [Vm.Program.call, bind_eq_ok] at h
  obtain ⟨ram₂, henter, h⟩ := h
  obtain ⟨j, hj, rfl⟩ := Vm.Program.goTo_eq_ok.1 h
  rw [show b.program.address (i + 1) = b.address (i + 1) from rfl, address_succ hi] at henter
  intro d hd
  exact (placed hi).reaches_callCode before b.fits
    (ops_load_function hj hi (by simp [callCode])) (b.address_le j) hbefore henter hd

theorem follows_return {place : Word} (hi : b.codes[i]? = some returnCode)
    (h : leave v ram = .ok (place, ram₁)) (hj : b.program.taskAt? place = some j) :
    b.Follows v i ram ⟨j, ram₁⟩ := by
  intro d hd
  obtain ⟨e, hreach, he⟩ := (placed hi).reaches_returnCode size_words_le h hd
  -- The task found at the return address begins there.
  have hplace : b.program.address j = place.toNat := by
    simpa using List.find?_some hj
  replace hplace : b.address j = place.toNat := hplace
  rw [← hplace] at hreach
  exact ⟨e, hreach, he⟩

/-! ## Steps and runs -/

theorem follows_of_perform {module : Option String} {command : Command} {t : State}
    (ht : b.tasks[i]? = some ⟨module, .command command⟩) (hm : brokenModule module = false)
    (h : b.program.perform v i module command ram = .ok t) : b.Follows v i ram t := by
  obtain ⟨k, d, hdraft, hi⟩ := b.exists_draft ht
  cases command with
  | arithmetic name =>
    obtain ⟨op, hop, hcode, -⟩ := Task.draft_operator hdraft
    rw [hcode] at hi
    simp only [Vm.Program.perform, hop, map_eq_ok] at h
    obtain ⟨ram₁, h, rfl⟩ := h
    intro e he
    obtain ⟨f, hreach, hf⟩ := (placed hi).reaches_operatorCode b.fits h he
    refine ⟨f, ?_, hf⟩
    rw [address_succ hi]
    exact hreach
  | push segment index =>
    obtain ⟨-, s, hs, -, -, -⟩ := Task.draft_push hdraft
    simp only [Vm.Program.perform, hs, map_eq_ok] at h
    obtain ⟨ram₁, h, rfl⟩ := h
    exact follows_push ht hs h
  | pop segment index =>
    obtain ⟨-, s, hs, -, -, hcode⟩ := Task.draft_pop hdraft
    simp only [Vm.Program.perform, hs, map_eq_ok] at h
    obtain ⟨ram₁, h, rfl⟩ := h
    exact follows_of_yields hi fun e he =>
      yields_popCode hcode (fun n hn => (placed hi).loadsNumber hn) (loadsStatic module index) he h
  | label name =>
    obtain rfl := Except.ok.inj hdraft
    obtain rfl := Except.ok.inj h
    refine follows_of_yields hi fun e he => ?_
    have hdefine := (placed hi).ops_define (unbroken_label hm (isBreak_of_task ht rfl))
      List.mem_cons_self
    simpa [Yields, Scope.plain, labelCode, hdefine] using he
  | goto name =>
    obtain rfl := Except.ok.inj hdraft
    exact follows_goto hi h
  | ifGoto name =>
    simp only [Vm.Program.perform, bind_eq_ok] at h
    obtain ⟨⟨x, ram₁⟩, hpop, h⟩ := h
    exact follows_ifGoto ht hm hpop h
  | function name localCount =>
    simp only [Vm.Program.perform, map_eq_ok] at h
    obtain ⟨ram₁, h, rfl⟩ := h
    exact follows_function ht h
  | call name argumentCount =>
    obtain rfl := Except.ok.inj hdraft
    have hi : b.codes[i]? = some ([] ++ callCode module k.calls name argumentCount) := hi
    exact follows_callCode hi (fun e he => ⟨e, rfl, he⟩) h
  | «return» =>
    obtain rfl := Except.ok.inj hdraft
    simp only [Vm.Program.perform, bind_eq_ok] at h
    obtain ⟨⟨place, ram₁⟩, hleave, h⟩ := h
    split at h
    · simp at h
    · next j hj =>
      obtain rfl := Except.ok.inj h
      exact follows_return hi hleave hj

/-- The code of the next task follows the step of the stack machine. -/
theorem follows_of_step (hu : b.Unbroken) {s t : State} (h : b.program.step v s = .ok t) :
    b.Follows v s.next s.ram t := by
  unfold Vm.Program.step at h
  split at h
  · simp at h
  · next task htask =>
    obtain ⟨module, job⟩ := task
    have hm : brokenModule module = false := hu _ (List.mem_of_getElem? htask)
    cases job with
    | command command => exact follows_of_perform htask hm h
    | bootstrap entry stackBase =>
      simp only [bind_eq_ok] at h
      obtain ⟨ram₁, hstore, h⟩ := h
      obtain ⟨k, d, hdraft, hi⟩ := b.exists_draft htask
      obtain rfl := Except.ok.inj hdraft
      refine follows_callCode hi (fun e he => ?_) h
      have hnumber := (placed hi).loadsNumber (n := stackBase) (by simp [bootstrapCode, numberToD])
      rw [codeOps_append]
      refine (yields_numberToD hnumber).append fun f hf => ?_
      obtain ⟨hd, hf⟩ := hf
      rw [← hf] at he
      obtain ⟨-, hlt, hr⟩ := he.storeAt 0 rfl hstore
      simpa [Yields, Computation.usesMemory, Computation.operand?, Computation.eval, hlt, hd]
        using hr

/-- The processor follows a run of the stack machine. -/
theorem follows_of_run (hu : b.Unbroken) {n : Nat} {s t : State}
    (h : b.program.run v n s = .ok t) : b.Follows v s.next s.ram t := by
  induction n generalizing s with
  | zero =>
    obtain rfl := Except.ok.inj h
    exact .refl _ _
  | succ n ih =>
    simp only [Vm.Program.run, bind_eq_ok] at h
    obtain ⟨u, hstep, hrun⟩ := h
    exact (follows_of_step hu hstep).trans (ih hrun)

end Build

end HackToolchain.Codegen
