import HackToolchain.Proofs.Codegen.Running

/-!
# Code in a source, and computers that stand at it

A source may have been written by hand, and generated code may be anywhere in it: the code stands at
an address if among the statements of the source there are those of the code, behind so many
instructions (`StandsIn`). A computer with the assembled program stands at the address when it is
about to go on there (`Stands`). What the processor does from there is a run of the computer
(`Stands.runsTo`).
-/

set_option autoImplicit false

namespace HackToolchain.Codegen

open Text Machine Asm Vm

/-! ## Code in a source -/

/-- The number of instructions in code. -/
def codeSize (c : Code) : Nat := ((readCode c).map instructionCount).getD 0

/-- Code stands at an address in a source: among the statements of the source there are those of the
code, behind so many instructions. -/
def StandsIn (source : String) (address : Nat) (c : Code) : Prop :=
  ∃ before statements after : List Statement, readCode c = some statements ∧
    readRows (rows source.toList) = some (before ++ statements ++ after) ∧
      instructionCount before = address

variable {source file : String} {base : Int} {p : Assembly} {address : Nat} {c : Code}

theorem StandsIn.placed (h : StandsIn source address c)
    (ha : assemble source file base = .ok p) : Placed p address c := by
  obtain ⟨before, statements, after, hread, hsource, hcount⟩ := h
  obtain ⟨all, hall, hassembled⟩ := exists_assembled ha
  obtain rfl := Option.some.inj (hsource.symm.trans hall)
  exact ⟨base, before, statements, after, hread, hassembled, hcount⟩

theorem Placed.length_codeOps (h : Placed p address c) : (codeOps p c).length = codeSize c := by
  obtain ⟨base, before, statements, after, hread, -, -⟩ := h
  rw [codeSize, hread, Option.map_some, Option.getD_some, instructionCount_eq p hread]

/-- Code that can be assembled is assembled to no more words than it has instructions. -/
theorem exists_assemble_renderLines (limit : Nat) (h : c.assembles = true)
    (hsize : codeSize c ≤ limit) (file : String) (base : Int) :
    ∃ p, assemble (renderLines c) file base = .ok p ∧ p.words.size ≤ limit := by
  have hread := readRows_renderLines c
  obtain ⟨p, hp⟩ := exists_assemble_of_readRows hread h file base
  obtain ⟨statements, hstatements, ha⟩ := exists_assembled hp
  refine ⟨p, hp, ?_⟩
  rwa [ha.size_words, ← Option.getD_some (a := instructionCount statements),
    ← Option.map_some, ← hstatements, hread]

/-- Each piece of code that can be assembled stands in the text of the code. -/
theorem standsIn_renderLines (c₁ c₂ c₃ : Code) (h : Code.assembles (c₁ ++ c₂ ++ c₃) = true) :
    StandsIn (renderLines (c₁ ++ c₂ ++ c₃)) (codeSize c₁) c₂ := by
  obtain ⟨statements, hread, -⟩ := (Option.any_eq_true ..).1 h
  obtain ⟨_, s₃, hfront, -, rfl⟩ := readCode_append_eq_some.1 hread
  obtain ⟨s₁, s₂, h₁, h₂, rfl⟩ := readCode_append_eq_some.1 hfront
  exact ⟨s₁, s₂, s₃, h₂, by rw [readRows_renderLines, hread], by simp [codeSize, h₁]⟩

/-! ## Computers -/

/-- A computer with a program and a full memory is about to go on at an address. -/
structure Stands (c : Computer) (p : Assembly) (address : Nat) : Prop where
  unwatched : c.watch = none
  loaded : c.rom.words = p.words
  full : c.ram.size = memoryWords
  next : c.registers.pc = BitVec.ofNat 16 address

/-- A run takes a computer to an address, with a memory of which something holds. -/
def RunsTo (c : Computer) (address : Nat) (Q : Ram → Prop) : Prop :=
  ∃ (count : Nat) (c' : Computer), c.run (some count) = (.ok count, c') ∧
    c'.registers.pc = BitVec.ofNat 16 address ∧ Q c'.ram

/-- A computer with a program and a memory, about to go on at an address. -/
def computerAt (p : Assembly) (address : Nat) (ram : Ram) : Computer :=
  { ram, rom := { words := p.words }, registers := { pc := BitVec.ofNat 16 address } }

theorem stands_computerAt {ram : Ram} (h : ram.size = memoryWords) :
    Stands (computerAt p address ram) p address := ⟨rfl, rfl, h, rfl⟩

theorem RunsTo.mono {c : Computer} {Q R : Ram → Prop} (h : RunsTo c address Q)
    (hQR : ∀ ram, Q ram → R ram) : RunsTo c address R := by
  obtain ⟨count, c', hrun, hpc, hq⟩ := h
  exact ⟨count, c', hrun, hpc, hQR _ hq⟩

/-- Where the processor arrives with the memory of the stack machine, a run takes the computer. -/
theorem Stands.runsTo {c : Computer} {target : Nat} {ram : Ram} {e : Data} (h : Stands c p address)
    (hreach : Core.Reaches p.words (c.data.before address) (e.before target))
    (he : Agrees .shown ram e.ram) : RunsTo c target (· = ram) := by
  obtain ⟨count, hrun⟩ := Computer.exists_run_of_reaches h.unwatched h.loaded h.next hreach
  exact ⟨count, _, hrun, rfl, he.eq_of_shown.symm⟩

/-- Straight code takes the computer to its end. -/
theorem Stands.runsTo_of_yields {c : Computer} {code : Code} {ram : Ram} (h : Stands c p address)
    (hp : Placed p address code) (hsize : p.words.size ≤ 65536)
    (hyields : Yields (codeOps p code) c.data fun e => Agrees .shown ram e.ram) :
    RunsTo c (address + codeSize code) (· = ram) := by
  obtain ⟨e, he, hreach⟩ := Placed.reaches_of_yields [] code [] (by simpa using hp) hsize hyields
  rw [List.nil_append, hp.length_codeOps] at hreach
  exact h.runsTo hreach he

theorem Stands.endsAt {c : Computer} {sp : Nat} (h : Stands c p address)
    (hsp : (c.ram.get 0).toNat = sp) (hle : sp ≤ 32768) : EndsAt c.ram sp :=
  ⟨h.full, by rw [← hsp, BitVec.ofNat_toNat, BitVec.setWidth_eq], hle⟩

/-- Memory has a value on top of the stack, in a cell that is given, and is as it was before in all
other cells but the stack pointer. -/
structure Topped (sp : Nat) (value : Word) (ram ram₁ : Ram) : Prop where
  top : ram₁.get sp = value
  pointer : (ram₁.get 0).toNat = sp + 1
  others : ∀ a, a ≠ 0 → a ≠ sp → ram₁.get a = ram.get a

theorem Topped.of_changes {ram ram₁ : Ram} {sp : Nat} {value : Word} (h : EndsAt ram₁ (sp + 1))
    (hget : ram₁.get sp = value) (hc : Changes (fun c => c = 0 ∨ c = sp) ram ram₁) :
    Topped sp value ram ram₁ :=
  ⟨hget, h.toNat, fun a h0 ha => hc a fun h => h.elim h0 ha⟩

end HackToolchain.Codegen
