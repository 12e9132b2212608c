import HackToolchain.Proofs.Asm.Passes
import HackToolchain.Proofs.Machine.Execution
import Mathlib.Data.List.Perm.Subperm

/-!
# Variables of assembled programs

Every variable of an assembled program has a number of its own (`Assembled.var_inj`). There are no
more variables than words, so that in a program that fits in the memory no two variables are loaded
by the same word (`Assembled.wordOf_inj`).
-/

set_option autoImplicit false

namespace HackToolchain.Asm

open Text Machine

/-- The operand that a statement loads. -/
def Statement.operand? : Statement → Option String
  | .load operand => some operand
  | _ => none

/-- Not more operands are loaded than there are instructions. -/
theorem length_operands_le (statements : List Statement) :
    (statements.filterMap Statement.operand?).length ≤ instructionCount statements := by
  induction statements with
  | nil => exact Nat.zero_le _
  | cons s rest ih =>
    rw [instructionCount, List.countP_cons, ← instructionCount]
    cases s with
    | label name => exact ih
    | load operand => exact Nat.succ_le_succ ih
    | compute spelling action => exact Nat.le_succ_of_le ih

/-- Loads of numbers that are less than 32768 apart are the same only if the numbers are. -/
theorem encodeLoad_inj {base : Int} {i j : Nat} (hi : i < 32768) (hj : j < 32768)
    (h : encodeLoad (base + i) = encodeLoad (base + j)) : i = j := by
  have hnat := congrArg BitVec.toNat h
  rw [toNat_encodeLoad, toNat_encodeLoad] at hnat
  omega

namespace Assembled

variable {base : Int} {statements : List Statement} {p : Assembly}

theorem exists_place (h : Assembled base statements p) {name : String} {n : Int}
    (hn : p.vars.find? name = some n) :
    ∃ i < p.vars.size, n = base + i ∧ p.vars.toList[i]? = some (name, n) := by
  rw [Table.find?_eq_lookupEntry] at hn
  obtain ⟨i, hi, he⟩ := List.getElem_of_mem (mem_of_lookupEntry hn)
  have hplace : p.vars.toList[i]? = some (name, n) := he ▸ List.getElem?_eq_getElem hi
  exact ⟨i, by simpa [Table.size, Table.toList] using hi, h.numbered.addresses i _ hplace, hplace⟩

theorem var_inj (h : Assembled base statements p) {a b : String} {n : Int}
    (ha : p.vars.find? a = some n) (hb : p.vars.find? b = some n) : a = b := by
  obtain ⟨i, -, hi, hplace⟩ := h.exists_place ha
  obtain ⟨j, -, hj, hplace'⟩ := h.exists_place hb
  obtain rfl : i = j := by omega
  exact (Prod.mk.inj (Option.some.inj (hplace.symm.trans hplace'))).1

theorem size_vars_le (h : Assembled base statements p) : p.vars.size ≤ p.words.size := by
  have hsubset : entryNames p.vars.toList ⊆ statements.filterMap Statement.operand? :=
    fun name hname => List.mem_filterMap.2 ⟨_, h.loaded name hname, rfl⟩
  have hlength := (List.Nodup.subperm h.numbered.nodup hsubset).length_le
  have hsize : (entryNames p.vars.toList).length = p.vars.size := by
    simp [entryNames, Table.size, Table.toList]
  have := length_operands_le statements
  rw [h.size_words]
  omega

theorem wordOf_var (h : Assembled base statements p) {name : String} {n : Int}
    (hn : p.vars.find? name = some n) : p.wordOf (.load name) = some (encodeLoad n) := by
  rw [Assembly.wordOf, h.value?_var hn, Option.getD_some]

/-- In a program that fits in the memory, variables that are loaded by the same word are the
same. -/
theorem wordOf_inj (h : Assembled base statements p) (hfits : p.words.size ≤ memoryWords)
    {a b : String} (ha : (p.vars.find? a).isSome) (hb : (p.vars.find? b).isSome)
    (hword : p.wordOf (.load a) = p.wordOf (.load b)) : a = b := by
  obtain ⟨m, hm⟩ := Option.isSome_iff_exists.1 ha
  obtain ⟨n, hn⟩ := Option.isSome_iff_exists.1 hb
  rw [h.wordOf_var hm, h.wordOf_var hn, Option.some.injEq] at hword
  obtain ⟨i, hi, rfl, -⟩ := h.exists_place hm
  obtain ⟨j, hj, rfl, -⟩ := h.exists_place hn
  have := h.size_vars_le
  rw [memoryWords] at hfits
  obtain rfl := encodeLoad_inj (by omega) (by omega) hword
  exact h.var_inj hm hn

end Assembled

end HackToolchain.Asm
