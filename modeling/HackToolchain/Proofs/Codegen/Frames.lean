import HackToolchain.Proofs.Codegen.Standing

/-!
# Frames on the machine

The code of a call, of the function that is called, and of a return, wherever they stand in an
assembled program, keep to one layout of the stack (`call_keeps_frame`). The call and the function
lead to the body, with the frame built (`runsTo_body`). From every state in which the frame is as it
was then, whatever has happened in between, a return leads behind the call, with the result in place
of the arguments and the registers of the caller as they were (`runsTo_caller`).
-/

set_option autoImplicit false

namespace HackToolchain.Codegen

open Machine Asm Vm

/-! ## Memory at the entry and at the exit of a function -/

/-- Memory at the body of a function that was called with so many arguments below the cell at which
the stack ended, and that has so many locals. -/
structure Entered (sp arguments locals returnAddress : Nat) (caller ram : Ram) : Prop where
  localBase : ram.get 1 = BitVec.ofNat 16 (sp + 5)
  argumentBase : ram.get 2 = BitVec.ofNat 16 (sp - arguments)
  pointer : ram.get 0 = BitVec.ofNat 16 (sp + 5 + locals)
  zeros : ∀ a, sp + 5 ≤ a → a < sp + 5 + locals → ram.get a = 0
  returnAddress : ram.get sp = BitVec.ofNat 16 returnAddress
  saved : ∀ r < 4, ram.get (sp + 1 + r) = caller.get (1 + r)
  others : ∀ a, 2 < a → (a < sp ∨ sp + 4 + locals < a) → ram.get a = caller.get a

/-- The bases and the frame of a function are what they were at its entry. -/
def KeepsFrame (sp : Nat) (entry ram : Ram) : Prop :=
  ∀ a, a = 1 ∨ a = 2 ∨ sp ≤ a ∧ a ≤ sp + 4 → ram.get a = entry.get a

/-- Memory behind a call, where a return came from a memory with a result on top of the stack. -/
structure Left (sp arguments top : Nat) (caller callee ram : Ram) : Prop where
  result : ram.get (sp - arguments) = callee.get (top - 1)
  pointer : ram.get 0 = BitVec.ofNat 16 (sp - arguments + 1)
  registers : ∀ r, 1 ≤ r → r ≤ 4 → ram.get r = caller.get r
  others : ∀ a, 4 < a → a ≠ 13 → a ≠ 14 → a ≠ sp - arguments → ram.get a = callee.get a

variable {source file : String} {base : Int} {p : Assembly} {i j k sp arguments locals : Nat}
  {module : Option String} {number : Int} {name : String} {c : Computer}

/-! ## Calling -/

/-- The code of a function clears its locals. -/
theorem reaches_functionCode {v : Notes} {ram ram₁ : Ram} {a : List Statement}
    (hp : Placed p j (functionCode name locals)) (hsize : p.words.size ≤ 65536)
    (hload : (Line.load (.function name)).read = some a)
    (h : clearLocals v locals ram = .ok ram₁) {d : Data} (hd : Agrees v ram d.ram) : ∃ e : Data,
      Core.Reaches p.words (d.before j)
        (e.before (j + (codeOps p (functionCode name locals)).length)) ∧ Agrees v ram₁ e.ram := by
  obtain ⟨b, hb⟩ := hp.exists_read (l := .define (.function name)) List.mem_cons_self
  have hdefine := hp.ops_define (Symbol.unbroken_of_read hb hload) List.mem_cons_self
  have hops : codeOps p (functionCode name locals) = codeOps p (zeroLocals locals) := by
    rw [functionCode, codeOps_cons, hdefine, List.nil_append, Int.toNat_natCast]
  obtain ⟨e, he, hreach⟩ := Placed.reaches_of_yields [] (functionCode name locals) []
    (by simpa using hp) hsize (hops ▸ yields_zeroLocals hd h)
  exact ⟨e, hreach, he⟩

/-- The code of a call and of the function lead to the body, with the frame built. -/
theorem runsTo_body (hcall : Placed p i (callCode module number name arguments))
    (hfunction : Placed p j (functionCode name locals)) (hsize : p.words.size ≤ 32767)
    (hc : Stands c p i) (hsp : (c.ram.get 0).toNat = sp) (hlow : 16 + arguments ≤ sp)
    (hhigh : sp + 5 + locals ≤ 32767) :
    RunsTo c (j + codeSize (functionCode name locals))
      (Entered sp arguments locals (i + codeSize (callCode module number name arguments))
        c.ram) := by
  obtain ⟨a, ha⟩ := hcall.exists_read (l := .load (.function name)) (by simp [callCode])
  have hload : (Line.load (.function name)).ops p = [.load j] :=
    Placed.ops_load_of_define hfunction ha
  have htarget : j ≤ 32767 := by
    have := hfunction.end_le
    omega
  obtain ⟨ram₁, henter, h₁, hlocals, harguments, hreturn, hsaved, hc₁⟩ :=
    (hc.endsAt hsp (by omega)).enter arguments (by omega) (by omega) (by omega)
      (BitVec.ofNat 16 (i + codeSize (callCode module number name arguments)))
  obtain ⟨ram₂, hclear, h₂, hzeros, hc₂⟩ := h₁.clearLocals locals (by omega) (by omega)
  rw [← hcall.length_codeOps] at henter
  obtain ⟨e, hreach, he⟩ := Placed.reaches_callCode [] hcall hsize hload htarget
    (fun d hd => ⟨d, rfl, hd⟩) henter (d := c.data) (Agrees.refl hc.full)
  obtain ⟨e', hreach', he'⟩ := reaches_functionCode hfunction (by omega) ha hclear he
  rw [hfunction.length_codeOps] at hreach'
  refine (hc.runsTo (hreach.trans hreach') he').mono fun ram hram => ?_
  subst hram
  exact
    { localBase := (hc₂ 1 (by omega)).trans hlocals
      argumentBase := (hc₂ 2 (by omega)).trans harguments
      pointer := h₂.pointer
      zeros := hzeros
      returnAddress := (hc₂ sp (by omega)).trans hreturn
      saved := fun r hr => (hc₂ _ (by omega)).trans (hsaved r hr)
      others := fun a h0 ha => (hc₂ a (by omega)).trans (hc₁ a (by omega)) }

/-! ## Returning -/

/-- Where the frame is as it was at the entry of the function, the code of a return leads to the
return address, with the frame torn down. -/
theorem runsTo_caller {entry caller : Ram} {d : Computer} {top place : Nat}
    (hreturn : Placed p k returnCode) (hsize : p.words.size ≤ 65536) (hplace : place ≤ 32767)
    (hlow : 16 + arguments ≤ sp) (hentry : Entered sp arguments locals place caller entry)
    (hd : Stands d p k) (hkeeps : KeepsFrame sp entry d.ram) (htop : (d.ram.get 0).toNat = top)
    (habove : sp + 5 < top) (hbelow : top ≤ 32768) :
    RunsTo d place (Left sp arguments top caller d.ram) := by
  obtain ⟨low, rfl⟩ : ∃ low, top = low + 1 := ⟨top - 1, by omega⟩
  obtain ⟨ram₁, hleave, h₁, hresult, hback, hchanges⟩ := (hd.endsAt htop hbelow).leave
    ((hkeeps 1 (by omega)).trans hentry.localBase)
    ((hkeeps 2 (by omega)).trans hentry.argumentBase) (by omega) (by omega) (by omega)
  rw [Nat.add_sub_cancel, hkeeps sp (by omega), hentry.returnAddress] at hleave
  obtain ⟨e, hreach, he⟩ := hreturn.reaches_returnCode hsize hleave (d := d.data)
    (Agrees.refl hd.full)
  rw [toNat_ofNat_of_le (by omega)] at hreach
  refine (hd.runsTo hreach he).mono fun ram hram => ?_
  subst hram
  refine ⟨hresult, h₁.pointer, fun r h1 h4 => ?_, fun a h4 h13 h14 ha => hchanges a (by omega)⟩
  obtain ⟨r, rfl⟩ := Nat.exists_eq_add_of_le h1
  rw [hback r (by omega), show sp + 5 - 4 + r = sp + 1 + r by omega, hkeeps _ (by omega),
    hentry.saved r (by omega)]

/-! ## The protocol -/

/-- Calls, functions and returns keep to one protocol, for every function. A computer that stands at
the code of a call, with room for the frame and the locals, goes to the body of the function with
the frame built. A computer that stands at the code of a return, in whatever state but with the
frame as it was at that entry and something on the stack above it, goes behind the call: the topmost
word is where the first argument was or the return address, if there are none, and is on top of the
stack; the registers of the caller are what they were; and no other cells have changed but those of
the two notes. -/
theorem call_keeps_frame (ha : assemble source file base = .ok p) (hsize : p.words.size ≤ 32767)
    (hcall : StandsIn source i (callCode module number name arguments))
    (hfunction : StandsIn source j (functionCode name locals))
    (hreturn : StandsIn source k returnCode)
    (hc : Stands c p i) (hsp : (c.ram.get 0).toNat = sp) (hlow : 16 + arguments ≤ sp)
    (hhigh : sp + 5 + locals ≤ 32767) :
    RunsTo c (j + codeSize (functionCode name locals)) fun entry =>
      Entered sp arguments locals (i + codeSize (callCode module number name arguments)) c.ram
        entry ∧
      ∀ (d : Computer) (top : Nat), Stands d p k → KeepsFrame sp entry d.ram →
        (d.ram.get 0).toNat = top → sp + 5 < top → top ≤ 32768 →
          RunsTo d (i + codeSize (callCode module number name arguments))
            (Left sp arguments top c.ram d.ram) := by
  have hcall := hcall.placed ha
  refine (runsTo_body hcall (hfunction.placed ha) hsize hc hsp hlow hhigh).mono
    fun entry hentry => ⟨hentry, fun d top hd hkeeps htop habove hbelow => ?_⟩
  have hplace := hcall.end_le
  rw [hcall.length_codeOps] at hplace
  exact runsTo_caller (hreturn.placed ha) (by omega) (by omega) hlow hentry hd hkeeps htop habove
    hbelow

/-- The code of a call with one argument. -/
def oneArgumentCall : Code := callCode (some "Main") 0 "Main.f" ((1 : Nat) : Int)

/-- The code of the function that is called, which has one local. -/
def oneLocalFunction : Code := functionCode "Main.f" ((1 : Nat) : Int)

def oneCallSource : String := renderLines (oneArgumentCall ++ oneLocalFunction ++ returnCode)

/-- Memory before the call, with the stack ending at 300. -/
def callerRam : Ram := (Ram.zeros memoryWords).set 0 300

/-- Memory before the return, with the frame of the function and a seven on top of the stack. -/
def calleeRam : Ram :=
  (((((Ram.zeros memoryWords).set 0 307).set 1 305).set 2 299).set 300 47).set 306 7

theorem size_callerRam : callerRam.size = memoryWords := by
  rw [callerRam, Ram.size_set, size_zeros]

theorem size_calleeRam : calleeRam.size = memoryWords := by
  simp only [calleeRam, Ram.size_set, size_zeros]

theorem get_calleeRam : calleeRam.get 0 = 307 ∧ calleeRam.get 1 = 305 ∧ calleeRam.get 2 = 299 ∧
    calleeRam.get 300 = 47 ∧ calleeRam.get 306 = 7 := by
  simp [calleeRam, Ram.get_set, Ram.size_set, size_zeros, memoryWords]

theorem keepsFrame_calleeRam {entry : Ram} (h : Entered 300 1 1 47 callerRam entry) :
    KeepsFrame 300 entry calleeRam := by
  obtain ⟨-, h1, h2, h300, -⟩ := get_calleeRam
  rintro a (rfl | rfl | ⟨hlow, hhigh⟩)
  · rw [h1, h.localBase]
    rfl
  · rw [h2, h.argumentBase]
    rfl
  · obtain ⟨r, rfl⟩ := Nat.exists_eq_add_of_le hlow
    cases r with
    | zero =>
      rw [Nat.add_zero, h300, h.returnAddress]
      rfl
    | succ r =>
      have hcaller : callerRam.get (1 + r) = 0 := by
        rw [callerRam, get_set_of_ne (by omega), get_zeros]
      rw [show 300 + (r + 1) = 300 + 1 + r by omega, h.saved r (by omega), hcaller, calleeRam,
        get_set_of_ne (by omega), get_set_of_ne (by omega), get_set_of_ne (by omega),
        get_set_of_ne (by omega), get_set_of_ne (by omega), get_zeros]

/-- A function that has a seven on top of the stack returns it to where its argument was. -/
theorem call_keeps_frame_seven : ∃ (p : Assembly) (c d : Computer),
    assemble oneCallSource "<input>" 16 = .ok p ∧ p.words.size ≤ 32767 ∧
      StandsIn oneCallSource 0 oneArgumentCall ∧ StandsIn oneCallSource 47 oneLocalFunction ∧
      StandsIn oneCallSource 53 returnCode ∧ Stands c p 0 ∧ (c.ram.get 0).toNat = 300 ∧
      Stands d p 53 ∧ (d.ram.get 0).toNat = 307 ∧ d.ram.get 306 = 7 ∧
      (RunsTo c 53 fun entry => entry.get 305 = 0 ∧ KeepsFrame 300 entry d.ram) ∧
      RunsTo d 47 fun ram => ram.get 299 = 7 ∧ ram.get 0 = 300 := by
  have hcode : (oneArgumentCall ++ oneLocalFunction ++ returnCode).assembles = true := by
    decide +kernel
  obtain ⟨p, hp, hfits⟩ := exists_assemble_renderLines 32767 hcode (by decide +kernel) "<input>" 16
  have hcall := standsIn_renderLines [] oneArgumentCall (oneLocalFunction ++ returnCode)
    (by simpa using hcode)
  have hfunction := standsIn_renderLines oneArgumentCall oneLocalFunction returnCode hcode
  have hreturn := standsIn_renderLines (oneArgumentCall ++ oneLocalFunction) returnCode []
    (by simpa using hcode)
  rw [List.nil_append, ← List.append_assoc, show codeSize [] = 0 from rfl] at hcall
  rw [show codeSize oneArgumentCall = 47 by decide +kernel] at hfunction
  rw [List.append_nil, show codeSize (oneArgumentCall ++ oneLocalFunction) = 53 by decide +kernel]
    at hreturn
  have hc : Stands (computerAt p 0 callerRam) p 0 := stands_computerAt size_callerRam
  have hd : Stands (computerAt p 53 calleeRam) p 53 := stands_computerAt size_calleeRam
  have hsp : (callerRam.get 0).toNat = 300 :=
    congrArg BitVec.toNat (get_set_self (size_zeros _) (by decide) _)
  obtain ⟨h0, -, -, -, h306⟩ := get_calleeRam
  have hentered := call_keeps_frame hp hfits hcall hfunction hreturn hc hsp (by decide) (by decide)
  rw [show 47 + codeSize (functionCode "Main.f" ((1 : Nat) : Int)) = 53 by decide +kernel,
    show 0 + codeSize (callCode (some "Main") 0 "Main.f" ((1 : Nat) : Int)) = 47 by
      decide +kernel] at hentered
  refine ⟨p, _, _, hp, hfits, hcall, hfunction, hreturn, hc, hsp, hd, congrArg _ h0, h306, ?_, ?_⟩
  · exact hentered.mono fun entry h =>
      ⟨h.1.zeros 305 (by omega) (by omega), keepsFrame_calleeRam h.1⟩
  · obtain ⟨_, _, _, _, hentry, hreturns⟩ := hentered
    refine (hreturns _ 307 hd (keepsFrame_calleeRam hentry) (congrArg _ h0) (by decide)
      (by decide)).mono fun ram h => ⟨h.result.trans h306, h.pointer⟩

end HackToolchain.Codegen
