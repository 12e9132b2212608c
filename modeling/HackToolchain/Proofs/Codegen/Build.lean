import HackToolchain.Proofs.Codegen.Running

/-!
# Programs built from modules

A build is a list of modules, translated through one emitter and assembled, with the bootstrap in
front if it is wanted. Its program for the stack machine has the tasks of the modules, the addresses
at which their code begins, and the cells that the assembler gave to static variables.
-/

set_option autoImplicit false

namespace HackToolchain.Codegen

open Text Machine Asm Vm

/-! ## Translation and assembly -/

/-- What an emitter that starts with no lines writes for a program says what the code drafted for
the tasks says. -/
theorem readRows_of_translate {s s' : Session} {boot : Option (String × Int)}
    {units : List SourceUnit} {count : Nat} (hfresh : s.emitter.lines = #[])
    (hboot : ∀ b ∈ boot, ∀ c ∈ b.1.toList, isBreak c = false)
    (h : s.translate boot units = (.ok count, s')) :
    ∃ k, Drafts s.emitter.counters (programTasks s.emitter.module boot units)
        (draftCodes s.emitter.counters (programTasks s.emitter.module boot units)) k ∧
      readRows (rows s'.emitter.text.toList) = readCode
        (draftCodes s.emitter.counters (programTasks s.emitter.module boot units)).flatten := by
  obtain ⟨lines, codes, hl, ht, hw, hd⟩ := wrote_of_translate hboot h
  have htext : s'.emitter.text = renderLines lines := by
    rw [Emitter.text, Emitter.textFrom, List.drop_zero, hl, hfresh]
    rfl
  rw [hd.draftCodes_eq, htext, readRows_renderLines, ← readCode_withoutComments ht, hw]
  exact ⟨_, hd, rfl⟩

theorem isBreak_of_entered {units : List SourceUnit} {name : String}
    (h : ∃ module localCount, ⟨module, .command (.function name localCount)⟩ ∈ unitTasks units) :
    ∀ c ∈ name.toList, isBreak c = false := by
  obtain ⟨module, n, hmem⟩ := h
  exact fun c hc => isBreak_of_not_isBlank ((tight_of_mem_unitTasks hmem rfl).isBlank c hc)

/-! ## Builds -/

/-- Modules translated through one emitter and assembled. -/
structure Build where
  /-- The emitter before it has written anything. -/
  start : Session
  /-- The function to start with and the base of the stack, if there is a bootstrap. -/
  boot : Option (String × Int)
  /-- The modules. -/
  units : List SourceUnit
  /-- The number of commands. -/
  count : Nat
  /-- The emitter afterwards. -/
  finish : Session
  /-- What the assembler is told about the text. -/
  file : String
  base : Int
  assembly : Assembly
  fresh : start.emitter.lines = #[]
  translated : start.translate boot units = (.ok count, finish)
  assembled : assemble finish.emitter.text file base = .ok assembly
  fits : assembly.words.size ≤ 32767
  /-- The function to start with is a function of the program. -/
  entered : ∀ b ∈ boot, ∃ module localCount,
    ⟨module, .command (.function b.1 localCount)⟩ ∈ unitTasks units

/-- A module that calls a function of its own and keeps the result. -/
def callUnits : List SourceUnit :=
  [{ moduleName := "Main",
     source := .ofString ("call Main.f 0\npop static 0\nlabel END\ngoto END\n" ++
       "function Main.f 0\npush constant 7\nreturn\n") }]

def callTasks : List Task :=
  [⟨some "Main", .command (.call "Main.f" 0)⟩, ⟨some "Main", .command (.pop "static" 0)⟩,
    ⟨some "Main", .command (.label "END")⟩, ⟨some "Main", .command (.goto "END")⟩,
    ⟨some "Main", .command (.function "Main.f" 0)⟩,
    ⟨some "Main", .command (.push "constant" 7)⟩, ⟨some "Main", .command .return⟩]

namespace Build

variable (b : Build)

def tasks : List Task := programTasks b.start.emitter.module b.boot b.units

def codes : List Code := draftCodes b.start.emitter.counters b.tasks

/-- The number of instructions in code. -/
def length (c : Code) : Nat := (codeOps b.assembly c).length

/-- The address at which the code of a task begins. -/
def address (i : Nat) : Nat := b.length (b.codes.take i).flatten

/-- The cell that the assembler gave to a static variable. -/
def cell (module : Option String) (index : Int) : Option Int :=
  module.bind fun m => (Symbol.static m index).operand?.bind b.assembly.vars.find?

/-- The program for the stack machine. -/
def program : Program where
  tasks := b.tasks
  address := b.address
  cell := b.cell

/-- No name of a module is broken over rows, so that every symbol in the code is read back as it was
written. -/
def Unbroken : Prop := ∀ t ∈ b.tasks, brokenModule t.module = false

theorem isBreak_of_boot {e : String × Int} (he : e ∈ b.boot) :
    ∀ c ∈ e.1.toList, isBreak c = false := isBreak_of_entered (b.entered e he)

theorem exists_drafts : ∃ k, Drafts b.start.emitter.counters b.tasks b.codes k ∧
    IsImage b.base b.codes.flatten b.assembly := by
  obtain ⟨k, hd, hread⟩ :=
    readRows_of_translate b.fresh (fun e he => b.isBreak_of_boot he) b.translated
  obtain ⟨statements, hstatements, ha⟩ := exists_assembled b.assembled
  exact ⟨k, hd, statements, hread.symm.trans hstatements, ha⟩

theorem image : IsImage b.base b.codes.flatten b.assembly := by
  obtain ⟨_, _, h⟩ := b.exists_drafts
  exact h

theorem exists_draft {i : Nat} {t : Task} (h : b.tasks[i]? = some t) :
    ∃ k d, t.draft k = .ok d ∧ b.codes[i]? = some d.code := by
  obtain ⟨_, hd, _⟩ := b.exists_drafts
  exact hd.exists_draft h

theorem size_words_le_of_readCode {n : Nat} (hcount : (readCode b.codes.flatten).all
    (fun statements => instructionCount statements ≤ n) = true) : b.assembly.words.size ≤ n := by
  obtain ⟨statements, hread, ha⟩ := b.image
  rw [hread, Option.all_some, decide_eq_true_eq] at hcount
  rwa [ha.size_words]

/-! ## Building -/

/-- Modules that can be translated to code that can be assembled and fits in the memory are built,
with the bootstrap or without. -/
theorem exists_build {s : Session} {boot : Option (String × Int)} {units : List SourceUnit}
    {tasks : List Task} (htasks : programTasks s.emitter.module boot units = tasks)
    (hfresh : s.emitter.lines = #[]) (ht : (s.translate boot units).1.isOk = true)
    (hcode : Code.assembles (draftCodes s.emitter.counters tasks).flatten = true)
    (hfits : ((readCode (draftCodes s.emitter.counters tasks).flatten).any
      fun statements => instructionCount statements ≤ 32767) = true)
    (hentered : ∀ b ∈ boot, ∃ module localCount,
      ⟨module, .command (.function b.1 localCount)⟩ ∈ unitTasks units) :
    ∃ b : Build, b.units = units ∧ b.tasks = tasks ∧
      b.codes = draftCodes s.emitter.counters tasks ∧ b.base = 16 := by
  obtain ⟨count, finish, hok⟩ : ∃ count finish, s.translate boot units = (.ok count, finish) := by
    cases hr : s.translate boot units with
    | mk outcome finish =>
      rw [hr] at ht
      cases outcome with
      | error f => simp [Except.isOk, Except.toBool] at ht
      | ok count => exact ⟨count, finish, rfl⟩
  subst htasks
  obtain ⟨k, -, hread⟩ :=
    readRows_of_translate hfresh (fun b hb => isBreak_of_entered (hentered b hb)) hok
  obtain ⟨p, hp⟩ := exists_assemble_of_readRows hread hcode "<input>" 16
  obtain ⟨statements, hstatements, ha⟩ := exists_assembled hp
  refine ⟨⟨s, boot, units, count, finish, "<input>", 16, p, hfresh, hok, hp, ?_, hentered⟩,
    rfl, rfl, rfl, rfl⟩
  rw [← hread, hstatements, Option.any_some, decide_eq_true_eq] at hfits
  rwa [ha.size_words]

theorem exists_build_callUnits : ∃ b : Build, b.units = callUnits ∧ b.tasks = callTasks ∧
    b.base = 16 ∧ b.assembly.labels.find? "Main.0" = none ∧ b.assembly.words.size ≤ 200 := by
  obtain ⟨b, hu, ht, hcodes, hbase⟩ := @exists_build {} none callUnits callTasks rfl rfl
    (by decide +kernel) (by decide +kernel) (by decide +kernel) (fun e he => by cases he)
  obtain ⟨statements, hread, ha⟩ := b.image
  have hlabels : (readCode (draftCodes {} callTasks).flatten).map labelNames =
      some ["Main$ret.0", "Main$END", "Main.f"] := by decide +kernel
  rw [hcodes] at hread
  rw [hread, Option.map_some, Option.some.injEq] at hlabels
  refine ⟨b, hu, ht, hbase, ?_, b.size_words_le_of_readCode ?_⟩
  · rw [ha.find?_eq_none, hlabels]
    simp
  · rw [hcodes]
    decide +kernel

/-! ## Places -/

variable {b} {i : Nat} {c : Code}

@[simp] theorem length_append (c d : Code) : b.length (c ++ d) = b.length c + b.length d := by
  simp [length]

@[simp] theorem length_act (a : Action) : b.length [.act a] = 1 := by
  simp [length]

theorem flatten_codes (h : b.codes[i]? = some c) :
    b.codes.flatten = (b.codes.take i).flatten ++ c ++ (b.codes.drop (i + 1)).flatten := by
  obtain ⟨hi, rfl⟩ := List.getElem?_eq_some_iff.1 h
  have hsplit := List.take_append_drop i b.codes
  rw [List.drop_eq_getElem_cons hi] at hsplit
  have hflat := congrArg List.flatten hsplit
  simp only [List.flatten_append, List.flatten_cons] at hflat
  rw [← hflat, List.append_assoc]

theorem length_of_readCode {n : Nat} (h : (readCode c).map instructionCount = some n) :
    b.length c = n := by
  obtain ⟨statements, hread, rfl⟩ := Option.map_eq_some_iff.1 h
  exact (instructionCount_eq b.assembly hread).symm

theorem address_succ (h : b.codes[i]? = some c) :
    b.address (i + 1) = b.address i + b.length c := by
  rw [address, address, List.take_add_one, h]
  simp

theorem address_le (i : Nat) : b.address i ≤ 32767 := by
  have hsize := b.image.size_words
  have hsplit : b.codes.flatten = (b.codes.take i).flatten ++ (b.codes.drop i).flatten := by
    rw [← List.flatten_append, List.take_append_drop]
  rw [hsplit, codeOps_append, List.length_append] at hsize
  have := b.fits
  rw [address, length]
  omega

/-- The code of a task stands at the address of the task. -/
theorem placed (h : b.codes[i]? = some c) : Placed b.assembly (b.address i) c := by
  have := b.image
  rw [flatten_codes h] at this
  exact this.placed

theorem mem_codes {l : Line} (h : b.codes[i]? = some c) (hl : l ∈ c) : l ∈ b.codes.flatten := by
  rw [flatten_codes h]
  exact List.mem_append_left _ (List.mem_append_right _ hl)

theorem loadsStatic (module : Option String) (index : Int) :
    LoadsStatic b.assembly module (b.cell module index) index :=
  b.image.whole.loadsStatic module index

end Build

end HackToolchain.Codegen
