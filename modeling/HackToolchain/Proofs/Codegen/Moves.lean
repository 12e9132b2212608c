import HackToolchain.Proofs.Codegen.Standing

/-!
# Pushing and popping on the machine

The code of a push or a pop, wherever it stands in an assembled program, moves one word
(`moves_one_word`). A push reads what stands at the index of the segment and stores it on top of the
stack. A pop finds the address of the index first and then stores the topmost word there; the
address waits in cell 13 meanwhile, unless it is that of a static variable. Whether the address is
that of the popped cell or of cell 13 makes no difference.
-/

set_option autoImplicit false

namespace HackToolchain.Codegen

open Machine Asm Vm

/-- Memory after a pop into a cell of a segment, with the stack now ending below a cell. -/
structure Popped (sp : Nat) (segment : Segment) (target : Nat) (ram ram₁ : Ram) : Prop where
  moved : ram₁.get target = ram.get sp
  pointer : (ram₁.get 0).toNat = sp
  others : ∀ a, a ≠ 0 → a ≠ target → (a = 13 → segment = .static) → ram₁.get a = ram.get a

variable {source file : String} {base : Int} {p : Assembly} {address : Nat}
  {module : Option String} {segment : Segment} {index : Int} {code : Code} {c : Computer} {sp : Nat}

theorem runsTo_pushCode {x : Word} (hp : Placed p address code) (hsize : p.words.size ≤ 65536)
    (hcode : pushCode module segment index = .ok code) (hc : Stands c p address)
    (hsp : (c.ram.get 0).toNat = sp) (hlow : 0 < sp) (hhigh : sp < 32768)
    (hx : Fetches (staticCell p module index) index c.ram segment x) :
    RunsTo c (address + codeSize code) fun ram => Topped sp x c.ram ram := by
  obtain ⟨ram₁, hpush, h₁, hget, hchanges⟩ :=
    (hc.endsAt hsp (by omega)).pushFrom hlow hhigh hx
  have hyields := yields_pushCode (s := c.data) hcode (fun n hn => hp.loadsNumber hn)
    (hp.loadsStatic module index) (Agrees.refl hc.full) hpush
  refine (hc.runsTo_of_yields hp hsize hyields).mono fun ram hram => ?_
  subst hram
  exact .of_changes h₁ hget hchanges

theorem runsTo_popCode {a : Word} (hp : Placed p address code) (hsize : p.words.size ≤ 65536)
    (hcode : popCode module segment index = .ok code) (hc : Stands c p address)
    (hsp : (c.ram.get 0).toNat = sp + 1) (hlow : 13 < sp) (hhigh : sp + 1 ≤ 32768)
    (ha : addressOf .shown (staticCell p module index) segment index c.ram = .ok a)
    (h0 : a.toNat ≠ 0) (hlt : a.toNat < 32768) :
    RunsTo c (address + codeSize code) fun ram => Popped sp segment a.toNat c.ram ram := by
  obtain ⟨ram₁, hpop, h₁, hget, hchanges⟩ := (hc.endsAt hsp hhigh).popInto hlow ha h0 hlt
  have hyields := yields_popCode (s := c.data) hcode (fun n hn => hp.loadsNumber hn)
    (hp.loadsStatic module index) (Agrees.refl hc.full) hpop
  refine (hc.runsTo_of_yields hp hsize hyields).mono fun ram hram => ?_
  subst hram
  refine ⟨hget, h₁.toNat, fun b hb hba h13 => hchanges b ?_⟩
  rintro (h | h | ⟨h, hs⟩)
  · exact hb h
  · exact hba h
  · exact hs (h13 h)

/-- A push and a pop that are accepted move exactly one word. A computer that stands at the code of
a push with room on the stack stands behind it with what the index of the segment holds on top, and
has changed nothing else but the stack pointer. One that stands at the code of a pop, with an index
that is not the stack pointer itself, stands behind it with the topmost word at the address that the
index had before, and has changed nothing else but the stack pointer and, unless the segment is that
of static variables, cell 13. -/
theorem moves_one_word {kind : CommandKind} {name : String}
    (hassembly : assemble source file base = .ok p) (hsize : p.words.size ≤ 65536)
    (hcode : moveCode module kind name index = .ok code)
    (hsegment : Segment.ofName? name = some segment) (hin : StandsIn source address code)
    (hc : Stands c p address) :
    (kind = .push → ∀ sp x, (c.ram.get 0).toNat = sp → 16 ≤ sp → sp ≤ 32767 →
      Fetches (staticCell p module index) index c.ram segment x →
        RunsTo c (address + codeSize code) fun ram => Topped sp x c.ram ram) ∧
    (kind = .pop → ∀ sp a, (c.ram.get 0).toNat = sp + 1 → 17 ≤ sp + 1 → sp + 1 ≤ 32768 →
      addressOf .shown (staticCell p module index) segment index c.ram = .ok a →
        1 ≤ a.toNat → a.toNat ≤ 32767 →
          RunsTo c (address + codeSize code) fun ram => Popped sp segment a.toNat c.ram ram) := by
  have hp := hin.placed hassembly
  obtain ⟨s, hs, -, -, hkind⟩ := moveCode_eq_ok hcode
  obtain rfl := Option.some.inj (hsegment.symm.trans hs)
  constructor
  · rintro rfl sp x hsp hlow hhigh hx
    obtain ⟨-, hpush⟩ | ⟨hpop, -⟩ := hkind
    · exact runsTo_pushCode hp hsize hpush hc hsp (by omega) (by omega) hx
    · cases hpop
  · rintro rfl sp a hsp hlow hhigh ha h0 hlt
    obtain ⟨hpush, -⟩ | ⟨-, hpop⟩ := hkind
    · cases hpush
    · exact runsTo_popCode hp hsize hpop hc hsp (by omega) hhigh ha (by omega) (by omega)

/-- The code of a push from the local with index 3. -/
def pushLocalCode : Code :=
  numberToD 3 ++ [Line.load (.register .lcl), .toA (.add .m), .toD (.y .m)] ++ pushD

/-- The code of a pop into the local with index 3. -/
def popLocalCode : Code :=
  numberToD 3 ++ [Line.load (.register .lcl), .toD (.add .m)] ++ popToD

/-- With locals that begin at cell 10, the local with index 3 is the cell in which addresses wait.
It is pushed and popped into like any other. -/
theorem moves_one_word_waiting : ∃ (p : Assembly) (c d : Computer),
    assemble (renderLines (pushLocalCode ++ popLocalCode)) "<input>" 16 = .ok p ∧
      p.words.size ≤ 65536 ∧ moveCode (some "Main") .push "local" 3 = .ok pushLocalCode ∧
      moveCode (some "Main") .pop "local" 3 = .ok popLocalCode ∧
      Segment.ofName? "local" = some .locals ∧
      StandsIn (renderLines (pushLocalCode ++ popLocalCode)) 0 pushLocalCode ∧
      StandsIn (renderLines (pushLocalCode ++ popLocalCode)) 10 popLocalCode ∧
      Stands c p 0 ∧ Stands d p 10 ∧ c.ram.get 1 = 10 ∧ d.ram.get 1 = 10 ∧
      (RunsTo c 10 fun ram => ram.get 256 = c.ram.get 13 ∧ (ram.get 0).toNat = 257) ∧
      RunsTo d 22 fun ram => ram.get 13 = d.ram.get 256 ∧ (ram.get 0).toNat = 256 := by
  have hcode : (pushLocalCode ++ popLocalCode).assembles = true := by decide +kernel
  obtain ⟨p, hp, hfits⟩ := exists_assemble_renderLines 65536 hcode (by decide +kernel) "<input>" 16
  have hpush := standsIn_renderLines [] pushLocalCode popLocalCode hcode
  have hpop := standsIn_renderLines pushLocalCode popLocalCode [] (by simpa using hcode)
  rw [List.append_nil, show codeSize pushLocalCode = 10 by decide +kernel] at hpop
  have hmemory (sp : Word) : ∃ ram : Ram, ram.size = memoryWords ∧ ram.get 0 = sp ∧
      ram.get 1 = 10 := by
    refine ⟨((Ram.zeros memoryWords).set 0 sp).set 1 10, ?_, ?_, ?_⟩
    · rw [Ram.size_set, Ram.size_set, size_zeros]
    · rw [get_set_of_ne (by decide), get_set_self (size_zeros _) (by decide)]
    · rw [get_set_self ((Ram.size_set ..).trans (size_zeros _)) (by decide)]
  have haddress {ram : Ram} (hfull : ram.size = memoryWords) (hlcl : ram.get 1 = 10) :
      addressOf .shown (staticCell p (some "Main") 3) .locals 3 ram = .ok 13 := by
    simp only [addressOf, load_shown hfull (a := 1) (by decide)]
    rw [show ram.get (1 : Word).toNat = 10 from hlcl]
    rfl
  obtain ⟨ram, hfull, h0, hlcl⟩ := hmemory 256
  obtain ⟨ram', hfull', h0', hlcl'⟩ := hmemory 257
  have hc : Stands (computerAt p 0 ram) p 0 := stands_computerAt hfull
  have hd : Stands (computerAt p 10 ram') p 10 := stands_computerAt hfull'
  have hpushCode : moveCode (some "Main") .push "local" 3 = .ok pushLocalCode := rfl
  have hpopCode : moveCode (some "Main") .pop "local" 3 = .ok popLocalCode := rfl
  have hlocal : Segment.ofName? "local" = some .locals := rfl
  have hpushed := (moves_one_word hp hfits hpushCode hlocal hpush hc).1 rfl 256 _
    (congrArg _ h0) (by decide) (by decide) (.stored (haddress hfull hlcl) (by decide))
  have hpopped := (moves_one_word hp hfits hpopCode hlocal hpop hd).2 rfl 256 13
    (congrArg _ h0') (by decide) (by decide) (haddress hfull' hlcl') (by decide) (by decide)
  rw [show codeSize [] + codeSize pushLocalCode = 10 by decide +kernel] at hpushed
  rw [show 10 + codeSize popLocalCode = 22 by decide +kernel] at hpopped
  exact ⟨p, _, _, hp, hfits, hpushCode, hpopCode, hlocal, hpush, hpop, hc, hd, hlcl, hlcl',
    hpushed.mono fun _ h => ⟨h.top, h.pointer⟩, hpopped.mono fun _ h => ⟨h.moved, h.pointer⟩⟩

end HackToolchain.Codegen
