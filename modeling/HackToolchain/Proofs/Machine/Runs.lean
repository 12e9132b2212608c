import HackToolchain.Proofs.Machine.Atomicity

/-!
# Runs and steps

A run does what its steps do one by one, whatever the budget is. What instructions a run completes
before it ends is told first (`Computer.runFrom_cases`); a run to an address executes instructions
up to the first arrival there (`Computer.runToFrom_of_arrives`), and where there is none it is a run
(`Computer.runToFrom_of_never`). `Computer.runs_exact` puts it all together: budgets add up, a run
to an address stops at the first arrival within its budget, and a computer that cannot go on stays
as it is.
-/

set_option autoImplicit false

namespace HackToolchain.Machine.Computer

variable {c d f : Computer} {e : Error} {address : Int} {j k : Nat}

/-! ## Completed instructions -/

theorem completes_zero : Completes 0 c d ↔ c = d := by
  constructor
  · intro h
    cases h
    rfl
  · rintro rfl
    exact .refl c

theorem completes_succ : Completes (k + 1) c f ↔ ∃ d, c.step = (.ok true, d) ∧ Completes k d f := by
  constructor
  · intro h
    cases h with
    | next first rest => exact ⟨_, first, rest⟩
  · rintro ⟨d, first, rest⟩
    exact .next first rest

/-- Among completed instructions every state but the last goes on. -/
theorem Completes.exists_step (h : Completes k c d) (h' : Completes j c f) (hk : k < j) :
    ∃ g, d.step = (.ok true, g) := by
  induction h generalizing j with
  | refl c =>
    cases h' with
    | refl => exact absurd hk (Nat.lt_irrefl 0)
    | next first _ => exact ⟨_, first⟩
  | next first _ ih =>
    cases h' with
    | refl => exact absurd hk (Nat.not_lt_zero _)
    | next first' rest' =>
      obtain rfl := (Prod.mk.inj (first.symm.trans first')).2
      exact ih rest' (by omega)

/-- Where so many instructions lead is determined. -/
theorem Completes.unique (h : Completes k c d) (h' : Completes k c f) : d = f := by
  induction h with
  | refl c => exact completes_zero.1 h'
  | next first _ ih =>
    obtain ⟨g, first', rest'⟩ := completes_succ.1 h'
    obtain rfl := (Prod.mk.inj (first.symm.trans first')).2
    exact ih rest'

/-- From where fewer instructions lead, the rest of them leads to where all of them do. -/
theorem Completes.of_le (h : Completes k c d) (h' : Completes j c f) (hk : k ≤ j) :
    Completes (j - k) d f := by
  induction h generalizing j with
  | refl c => exact h'
  | @next k c d g first _ ih =>
    obtain ⟨j, rfl⟩ : ∃ n, j = n + 1 := ⟨j - 1, by omega⟩
    obtain ⟨d', first', rest'⟩ := completes_succ.1 h'
    obtain rfl := (Prod.mk.inj (first.symm.trans first')).2
    rw [Nat.add_sub_add_right]
    exact ih rest' (by omega)

/-! ## Runs in a circle -/

/-- A computer at a jump to itself keeps its memory. -/
theorem Completes.ram_of_circles {address : Nat} (h : Completes k c d) (hw : c.watch = none)
    (hcircle : Circle c.rom.words address) (hc : c.core.Circles address) : d.ram = c.ram := by
  induction h with
  | refl c => rfl
  | @next k c d f first rest ih =>
    obtain ⟨t, hstep, hcircles, hram⟩ := hcircle.step hc
    obtain rfl := (Prod.mk.inj (first.symm.trans (step_of_core hw hstep))).2
    exact (ih hw hcircle hcircles).trans hram

/-- Wherever a run comes to a jump to itself, it has the same memory. -/
theorem Completes.ram_eq_of_circles {address : Nat} (h : Completes k c d) (h' : Completes j c f)
    (hw : c.watch = none) (hcircle : Circle c.rom.words address) (hd : d.core.Circles address)
    (hf : f.core.Circles address) : f.ram = d.ram := by
  have hframe {n : Nat} {g : Computer} (hg : Completes n c g) :
      g.watch = none ∧ Circle g.rom.words address := by
    obtain ⟨hsame, -⟩ := hg.frame hw
    exact ⟨hsame.watch.trans hw, hsame.rom ▸ hcircle⟩
  rcases Nat.le_total k j with hle | hle
  · exact (h.of_le h' hle).ram_of_circles (hframe h).1 (hframe h).2 hd
  · exact ((h'.of_le h hle).ram_of_circles (hframe h').1 (hframe h').2 hf).symm

/-! ## Runs -/

/-- A computer that cannot go on does not, and stays as it is. -/
theorem runFrom_of_stuck (h : c.step = (.ok false, c)) (budget executed : Nat) :
    runFrom budget executed c = (.ok executed, c) := by
  cases budget with
  | zero => rfl
  | succ budget => rw [runFrom, h]

theorem runFrom_of_fails (h : c.step = (.error e, c)) (budget executed : Nat) :
    runFrom (budget + 1) executed c = (.error e, c) := by
  rw [runFrom, h]

/-- Behind instructions that are completed, a run is the run of the rest of its budget. -/
theorem runFrom_of_completes (h : Completes k c d) (budget executed : Nat) :
    runFrom (k + budget) executed c = runFrom budget (executed + k) d := by
  induction h generalizing executed with
  | refl c => rw [Nat.zero_add, Nat.add_zero]
  | @next k c d f first _ ih =>
    rw [show k + 1 + budget = k + budget + 1 by omega, runFrom, first]
    refine (ih (executed + 1)).trans ?_
    rw [show executed + 1 + k = executed + (k + 1) by omega]

/-- What comes of a run: it spends its budget, or it comes to where the computer cannot go on, or to
an instruction that fails. -/
theorem runFrom_cases (budget executed : Nat) (hw : c.watch = none) :
    (∃ d, Completes budget c d ∧ runFrom budget executed c = (.ok (executed + budget), d)) ∨
    (∃ k d, k < budget ∧ Completes k c d ∧ d.step = (.ok false, d) ∧
      runFrom budget executed c = (.ok (executed + k), d)) ∨
    ∃ k d e, k < budget ∧ Completes k c d ∧ d.step = (.error e, d) ∧
      runFrom budget executed c = (.error e, d) := by
  induction budget generalizing c executed with
  | zero => exact .inl ⟨c, .refl c, rfl⟩
  | succ budget ih =>
    obtain ⟨-, hstep⟩ | ⟨-, hstep⟩ | ⟨-, s, hstep, -⟩ := step_cases hw
    · exact .inr (.inl ⟨0, c, Nat.succ_pos _, .refl c, hstep, runFrom_of_stuck hstep _ _⟩)
    · exact .inr (.inr ⟨0, c, _, Nat.succ_pos _, .refl c, hstep, runFrom_of_fails hstep _ _⟩)
    · have hrun :
          runFrom (budget + 1) executed c = runFrom budget (executed + 1) (c.advance s 1) := by
        rw [runFrom, hstep]
      have hcount (n : Nat) : executed + 1 + n = executed + (n + 1) := by omega
      rw [hrun]
      obtain ⟨d, hdone, h⟩ | ⟨k, d, hk, hdone, hstop, h⟩ | ⟨k, d, e, hk, hdone, hstop, h⟩ :=
        ih (executed + 1) ((frame_of_step hw hstep).1.watch.trans hw)
      · exact .inl ⟨d, .next hstep hdone, by rw [h, hcount]⟩
      · exact .inr (.inl ⟨k + 1, d, by omega, .next hstep hdone, hstop, by rw [h, hcount]⟩)
      · exact .inr (.inr ⟨k + 1, d, e, by omega, .next hstep hdone, hstop, h⟩)

/-- A run that does not fail completes as many instructions as it says. -/
theorem completes_of_runFrom {budget : Nat} (hw : c.watch = none)
    (h : runFrom budget 0 c = (.ok k, d)) : Completes k c d := by
  obtain ⟨f, hdone, hrun⟩ | ⟨j, f, -, hdone, -, hrun⟩ | ⟨j, f, e, -, -, -, hrun⟩ :=
    runFrom_cases budget 0 hw
  all_goals
    rw [hrun] at h
    obtain ⟨hk, rfl⟩ := Prod.mk.inj h
    cases hk
  · rwa [Nat.zero_add]
  · rwa [Nat.zero_add]

/-- What was executed before a run is added to what the run executes. -/
theorem runFrom_eq_map (budget executed : Nat) (c : Computer) :
    runFrom budget executed c =
      ((runFrom budget 0 c).1.map (executed + ·), (runFrom budget 0 c).2) := by
  induction budget generalizing c executed with
  | zero => rfl
  | succ budget ih =>
    rw [runFrom, runFrom]
    obtain ⟨_ | _ | _, d⟩ := c.step
    · rfl
    · rfl
    · simp only
      rw [ih (executed + 1) d, ih (0 + 1) d]
      cases (runFrom budget 0 d).1 with
      | error e => rfl
      | ok n => exact congrArg (fun n => (Except.ok n, _)) (by simp only; omega)

theorem run_some (c : Computer) (n : Nat) : c.run (some (n : Int)) = runFrom n 0 c := rfl

/-- A run whose budget is a sum is a run with one part of it, and from there one with the other. -/
theorem run_add (m n : Nat) (hw : c.watch = none) :
    let first := c.run (some (m : Int))
    let second := first.2.run (some (n : Int))
    let whole := c.run (some ((m + n : Nat) : Int))
    whole.2 = second.2 ∧ (∀ a b, first.1 = .ok a → second.1 = .ok b → whole.1 = .ok (a + b)) ∧
      ∀ e, whole.1 = .error e ↔ first.1 = .error e ∨ second.1 = .error e := by
  simp only [run_some]
  obtain ⟨d, hdone, h⟩ | ⟨k, d, hk, hdone, hstuck, h⟩ | ⟨k, d, e, hk, hdone, hfails, h⟩ :=
    runFrom_cases m 0 hw
  · rw [runFrom_of_completes hdone, h, runFrom_eq_map n (0 + m) d]
    rcases (runFrom n 0 d) with ⟨_ | b, f⟩
    · simp [Except.map]
    · simp only [Except.map, Except.ok.injEq, reduceCtorEq, or_self, implies_true, and_true,
        true_and]
      rintro a b rfl rfl
      rfl
  · have hwhole : runFrom (m + n) 0 c = (.ok (0 + k), d) := by
      rw [show m + n = k + (m - k + n) by omega, runFrom_of_completes hdone,
        runFrom_of_stuck hstuck]
    rw [hwhole, h, runFrom_of_stuck hstuck]
    simp
  · have hwhole : runFrom (m + n) 0 c = (.error e, d) := by
      rw [show m + n = k + (m - k + n - 1 + 1) by omega, runFrom_of_completes hdone,
        runFrom_of_fails hfails]
    rw [hwhole, h]
    cases n with
    | zero => simp [runFrom]
    | succ n =>
      rw [runFrom_of_fails hfails]
      simp

/-! ## Runs to an address -/

/-- The program counter is at an address. -/
def IsAt (c : Computer) (address : Int) : Prop := (c.registers.pc.toNat : Int) = address

/-- So many instructions are completed, and the program counter is at an address after none of them,
nor before the first. -/
structure Seeks (c : Computer) (address : Int) (k : Nat) (d : Computer) : Prop where
  completes : Completes k c d
  never : ∀ j f, j ≤ k → Completes j c f → ¬f.IsAt address

/-- So many instructions are completed until the program counter is at an address. -/
structure Arrives (c : Computer) (address : Int) (k : Nat) (d : Computer) : Prop where
  completes : Completes k c d
  isAt : d.IsAt address
  first : ∀ j f, j < k → Completes j c f → ¬f.IsAt address

theorem Arrives.refl (hc : c.IsAt address) : Arrives c address 0 c :=
  ⟨.refl c, hc, fun j _ hj => absurd hj (Nat.not_lt_zero j)⟩

theorem Arrives.next (hc : ¬c.IsAt address) (hstep : c.step = (.ok true, d))
    (h : Arrives d address k f) : Arrives c address (k + 1) f := by
  refine ⟨.next hstep h.completes, h.isAt, fun j g hj hg => ?_⟩
  cases hg with
  | refl => exact hc
  | next hstep' rest =>
    obtain rfl := (Prod.mk.inj (hstep.symm.trans hstep')).2
    exact h.first _ g (by omega) rest

/-- Among so many instructions there is a first arrival, or none arrives. -/
theorem arrives_or_never (c : Computer) (address : Int) (n : Nat) :
    (∃ k d, k ≤ n ∧ Arrives c address k d) ∨
      ∀ k d, k ≤ n → Completes k c d → ¬d.IsAt address := by
  induction n generalizing c with
  | zero =>
    by_cases hc : c.IsAt address
    · exact .inl ⟨0, c, Nat.le_refl 0, .refl hc⟩
    · refine .inr fun k d hk hd => ?_
      obtain rfl := Nat.le_zero.1 hk
      rwa [← completes_zero.1 hd]
  | succ n ih =>
    by_cases hc : c.IsAt address
    · exact .inl ⟨0, c, Nat.zero_le _, .refl hc⟩
    rcases hstep : c.step with ⟨_ | _ | _, d⟩
    case ok.true =>
      obtain ⟨k, f, hk, harrives⟩ | hnever := ih d
      · exact .inl ⟨k + 1, f, by omega, harrives.next hc hstep⟩
      · refine .inr fun k f hk hf => ?_
        cases hf with
        | refl => exact hc
        | next hstep' rest =>
          obtain rfl := (Prod.mk.inj (hstep.symm.trans hstep')).2
          exact hnever _ f (by omega) rest
    all_goals
      refine .inr fun k f _ hf => ?_
      cases hf with
      | refl => exact hc
      | next hstep' _ => simp [hstep] at hstep'

theorem runToFrom_of_isAt (h : c.IsAt address) (budget executed : Nat) :
    runToFrom address budget executed c = (.ok ⟨true, executed⟩, c) := by
  have hpc : (c.registers.pc.toNat : Int) = address := h
  cases budget with
  | zero => simp [runToFrom, hpc]
  | succ budget => rw [runToFrom, if_pos hpc]

/-- A run to an address stops where the address is first reached, if its budget goes so far. -/
theorem runToFrom_of_arrives {budget executed : Nat} (h : Arrives c address k d)
    (hk : k ≤ budget) :
    runToFrom address budget executed c = (.ok ⟨true, executed + k⟩, d) := by
  obtain ⟨hdone, hat, hfirst⟩ := h
  -- Each instruction takes one from the budget and adds one to what was executed.
  revert budget executed
  induction hdone with
  | refl c =>
    intro budget executed _
    exact runToFrom_of_isAt hat budget executed
  | @next k c d f hstep rest ih =>
    intro budget executed hk
    obtain ⟨budget, rfl⟩ : ∃ b, budget = b + 1 := ⟨budget - 1, by omega⟩
    have hpc : (c.registers.pc.toNat : Int) ≠ address := hfirst 0 c (Nat.succ_pos k) (.refl c)
    have hrest : runToFrom address budget (executed + 1) d = (.ok ⟨true, executed + 1 + k⟩, f) :=
      ih hat (fun j g hj hg => hfirst (j + 1) g (by omega) (.next hstep hg)) (by omega)
    rw [runToFrom, if_neg hpc, hstep]
    refine hrest.trans ?_
    rw [show executed + 1 + k = executed + (k + 1) by omega]

/-- Where no instruction arrives, a run to an address is a run. -/
theorem runToFrom_of_never {budget : Nat} (executed : Nat)
    (h : ∀ k d, k ≤ budget → Completes k c d → ¬d.IsAt address) :
    runToFrom address budget executed c =
      ((runFrom budget executed c).1.map (Arrival.mk false), (runFrom budget executed c).2) := by
  induction budget generalizing c executed with
  | zero =>
    have hpc : (c.registers.pc.toNat : Int) ≠ address := h 0 c (Nat.le_refl 0) (.refl c)
    simp [runToFrom, runFrom, hpc, Except.map]
  | succ budget ih =>
    have hpc : (c.registers.pc.toNat : Int) ≠ address := h 0 c (Nat.zero_le _) (.refl c)
    rw [runToFrom, if_neg hpc, runFrom]
    rcases hstep : c.step with ⟨_ | _ | _, d⟩
    · rfl
    · rfl
    · exact ih (executed + 1) fun k f hk hf => h (k + 1) f (by omega) (.next hstep hf)

theorem runTo_some (c : Computer) (address : Int) (n : Nat) :
    c.runTo address (some (n : Int)) = runToFrom address n 0 c := rfl

/-- A run to an address fails just if an instruction fails that it comes to before the address. -/
theorem runTo_eq_error_iff (hw : c.watch = none) (address : Int) (n : Nat) :
    (∃ e, (c.runTo address (some (n : Int))).1 = .error e) ↔
      ∃ k d e, k < n ∧ Seeks c address k d ∧ d.step = (.error e, d) := by
  rw [runTo_some]
  obtain ⟨i, f, hi, harrives⟩ | hnever := arrives_or_never c address n
  · rw [runToFrom_of_arrives harrives hi]
    simp only [reduceCtorEq, exists_false, false_iff]
    rintro ⟨k, d, e, -, ⟨hdone, hnot⟩, hfails⟩
    by_cases hik : i ≤ k
    · exact hnot i f hik harrives.completes harrives.isAt
    · obtain ⟨g, hstep⟩ := hdone.exists_step harrives.completes (Nat.lt_of_not_le hik)
      simp [hfails] at hstep
  · rw [runToFrom_of_never 0 hnever]
    constructor
    · rintro ⟨e, he⟩
      obtain ⟨d, -, h⟩ | ⟨k, d, -, -, -, h⟩ | ⟨k, d, e, hk, hdone, hfails, -⟩ :=
        runFrom_cases n 0 hw
      · simp [h, Except.map] at he
      · simp [h, Except.map] at he
      · exact ⟨k, d, e, hk, ⟨hdone, fun j g hj => hnever j g (by omega)⟩, hfails⟩
    · rintro ⟨k, d, e, hk, ⟨hdone, -⟩, hfails⟩
      refine ⟨e, ?_⟩
      rw [show n = k + (n - k - 1 + 1) by omega, runFrom_of_completes hdone,
        runFrom_of_fails hfails]
      rfl

/-- Where a run to an address that does not fail has come to. -/
theorem of_runTo_eq_ok (hw : c.watch = none) {n : Nat} {a : Arrival}
    (h : c.runTo address (some (n : Int)) = (.ok a, d)) :
    (a.reached = true ↔ ∃ k f, k ≤ n ∧ Completes k c f ∧ f.IsAt address) ∧
      (a.reached = true → Arrives c address a.executed d) ∧
      (a.reached = false → d = (c.run (some (n : Int))).2) ∧ Completes a.executed c d := by
  rw [runTo_some] at h
  rw [run_some]
  obtain ⟨k, f, hk, harrives⟩ | hnever := arrives_or_never c address n
  · rw [runToFrom_of_arrives harrives hk, Nat.zero_add] at h
    obtain ⟨ha, rfl⟩ := Prod.mk.inj h
    obtain rfl := Except.ok.inj ha
    exact ⟨iff_of_true rfl ⟨k, f, hk, harrives.completes, harrives.isAt⟩, fun _ => harrives, nofun,
      harrives.completes⟩
  · rw [runToFrom_of_never 0 hnever] at h
    have hnot : ¬∃ k f, k ≤ n ∧ Completes k c f ∧ f.IsAt address := by
      rintro ⟨k, f, hk, hdone, hat⟩
      exact hnever k f hk hdone hat
    rcases hrun : runFrom n 0 c with ⟨_ | k, f⟩
    · rw [hrun] at h
      cases (Prod.mk.inj h).1
    · rw [hrun] at h
      obtain ⟨ha, rfl⟩ := Prod.mk.inj h
      obtain rfl := Except.ok.inj ha
      exact ⟨iff_of_false nofun hnot, nofun, fun _ => rfl, completes_of_runFrom hw hrun⟩

/-! ## Computers that cannot go on -/

/-- A computer that cannot go on is left as it is by what would make it go on. -/
theorem carryOut_of_stuck {r : Request} (h : c.step = (.ok false, c)) (hr : r = .step ∨ r.IsRun) :
    (c.carryOut r).2 = c := by
  have hrunTo (address : Int) (maxCycles : Option Int) : (c.runTo address maxCycles).2 = c := by
    rw [runTo]
    cases c.budget maxCycles with
    | zero => rfl
    | succ budget =>
      rw [runToFrom, h]
      split <;> rfl
  cases r with
  | step => rw [carryOut, plain, h]
  | run maxCycles => rw [carryOut, plain, run, runFrom_of_stuck h]
  | runTo address maxCycles => exact hrunTo address maxCycles
  | runToLabel name maxCycles =>
    rw [carryOut, plain, runToLabel]
    cases c.labels.find? name with
    | none => rfl
    | some address => exact hrunTo address maxCycles
  | load | peek | poke | setA | setD | setPc | reset => simp [Request.IsRun] at hr

theorem carryOutAll_of_stuck {history : List Request} (h : c.step = (.ok false, c))
    (hhistory : ∀ r ∈ history, r = .step ∨ r.IsRun) : c.carryOutAll history = c := by
  induction history with
  | nil => rfl
  | cons r history ih =>
    rw [carryOutAll, List.foldl_cons, carryOut_of_stuck h (hhistory r List.mem_cons_self)]
    exact ih fun s hs => hhistory s (List.mem_cons_of_mem _ hs)

/-! ## All runs -/

/-- A computer without a watch runs as it would step. A run whose budget is a sum does what two runs
do one after the other. A run to an address fails just if an instruction fails that it comes to
before the address; otherwise it says whether the address is reached within the budget, and it stops
at the first arrival, or where a run with its budget would. The instructions that it executes are
counted. And once the computer cannot go on, stepping and running leave it as it is. -/
theorem runs_exact (hw : c.watch = none) :
    (∀ m n : Nat,
      let first := c.run (some (m : Int))
      let second := first.2.run (some (n : Int))
      let whole := c.run (some ((m + n : Nat) : Int))
      whole.2 = second.2 ∧ (∀ a b, first.1 = .ok a → second.1 = .ok b → whole.1 = .ok (a + b)) ∧
        ∀ e, whole.1 = .error e ↔ first.1 = .error e ∨ second.1 = .error e) ∧
    (∀ (address : Int) (n : Nat),
      let search := c.runTo address (some (n : Int))
      ((∃ e, search.1 = .error e) ↔
        ∃ k d e, k < n ∧ Seeks c address k d ∧ d.step = (.error e, d)) ∧
      ∀ a, search.1 = .ok a →
        (a.reached = true ↔ ∃ k d, k ≤ n ∧ Completes k c d ∧ d.IsAt address) ∧
        (a.reached = true → Arrives c address a.executed search.2) ∧
        (a.reached = false → search.2 = (c.run (some (n : Int))).2) ∧
        Completes a.executed c search.2 ∧ search.2.cycles = c.cycles + a.executed) ∧
    ∀ d, c.step = (.ok false, d) → d = c ∧
      ∀ history : List Request, (∀ r ∈ history, r = .step ∨ r.IsRun) →
        d.carryOutAll history = d := by
  refine ⟨fun m n => run_add m n hw, fun address n => ⟨runTo_eq_error_iff hw address n, ?_⟩, ?_⟩
  · intro a ha
    obtain ⟨hreached, harrives, hrun, hdone⟩ := of_runTo_eq_ok hw (Prod.ext ha rfl)
    exact ⟨hreached, harrives, hrun, hdone, (hdone.frame hw).2⟩
  · intro d hstop
    obtain ⟨-, hstep⟩ | ⟨-, hstep⟩ | ⟨-, s, hstep, -⟩ := step_cases hw
    · obtain rfl := (Prod.mk.inj (hstop.symm.trans hstep)).2
      exact ⟨rfl, fun history => carryOutAll_of_stuck hstop⟩
    · simp [hstep] at hstop
    · simp [hstep] at hstop

/-- A computer of four cells that is to store at address 9: its fourth instruction fails. -/
def storeComputer : Computer := (load { ram := .zeros 4 } storeProgram).2

theorem runs_exact_storeComputer :
    storeComputer.watch = none ∧
    (∃ e, ((storeComputer.run (some 2)).2.run (some 7)).1 = .error e ∧
      (storeComputer.run (some 9)).1 = .error e ∧
      (storeComputer.run (some 9)).2 = ((storeComputer.run (some 2)).2.run (some 7)).2) ∧
    (storeComputer.runTo 3 (some 3)).1 = .ok ⟨true, 3⟩ ∧
    Arrives storeComputer 3 3 (storeComputer.runTo 3 (some 3)).2 := by
  have hw : storeComputer.watch = none := rfl
  obtain ⟨hadd, hsearch, -⟩ := runs_exact hw
  obtain ⟨hstate, -, herror⟩ := hadd 2 7
  obtain ⟨-, hfound⟩ := hsearch 3 3
  have hfails : ((storeComputer.run (some 2)).2.run (some 7)).1.isOk = false := by decide +kernel
  have hsome : (storeComputer.runTo 3 (some 3)).1.toOption = some ⟨true, 3⟩ := by decide +kernel
  have hreached : (storeComputer.runTo 3 (some 3)).1 = .ok ⟨true, 3⟩ := by
    cases hrun : (storeComputer.runTo 3 (some 3)).1 with
    | error e =>
      rw [hrun] at hsome
      cases hsome
    | ok a =>
      rw [hrun] at hsome
      exact congrArg Except.ok (Option.some.inj hsome)
  cases hrun : ((storeComputer.run (some 2)).2.run (some 7)).1 with
  | ok n =>
    rw [hrun] at hfails
    cases hfails
  | error e =>
    exact ⟨hw, ⟨e, rfl, (herror e).2 (.inr hrun), hstate⟩, hreached, (hfound _ hreached).2.1 rfl⟩

end HackToolchain.Machine.Computer
