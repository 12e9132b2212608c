import HackToolchain.Asm.Image
import HackToolchain.Proofs.Asm.Variables
import HackToolchain.Proofs.Machine.Atomicity
import HackToolchain.Proofs.Text.Plain

/-!
# Images read back

The words of an assembled program are the numbers that its statements come to when they are computed
with masks and shifts and without any bound, and all of them fit in sixteen bits
(`Assembled.numbers_eq`). So the instruction memory takes a program just if it is not too long
(`Assembly.exists_load_iff`). The image has a line of sixteen binary digits for every word, and the
lines read in base two are the words again (`Assembly.saysWords_image`).
-/

set_option autoImplicit false

namespace HackToolchain.Machine

/-- An instruction that computes is encoded with the codes of its parts, each shifted to its
place. -/
theorem toNat_encode (i : Action) :
    i.encode.toNat = 0b111 <<< 13 ||| i.computation.bits.toNat <<< 6 |||
      i.destination.bits.toNat <<< 3 ||| i.jumpBits.toNat := by
  have hword : i.encode.toNat = ((0b111 <<< 7 ||| i.computation.bits.toNat) <<< 3 |||
      i.destination.bits.toNat) <<< 3 ||| i.jumpBits.toNat := by
    rw [Action.encode]
    simp only [BitVec.toNat_append]
    rfl
  rw [hword]
  simp only [Nat.shiftLeft_or_distrib, ← Nat.shiftLeft_add]

end HackToolchain.Machine

namespace HackToolchain.Asm

open Text Machine

/-! ## Words as numbers -/

namespace Assembly

/-- The words of a program as numbers. -/
def numbers (p : Assembly) : Array Int := p.words.map fun w => (w.toNat : Int)

/-- What a statement comes to as a number, whatever the size: the low fifteen bits of what an
operand stands for, or three ones and the codes of the parts of an instruction. -/
def numberOf (p : Assembly) : Statement → Option Int
  | .label _ => none
  | .load operand => (p.value? operand).map fun n => n % 32768
  | .compute _ action =>
    some (0b111 <<< 13 ||| action.computation.bits.toNat <<< 6 |||
      action.destination.bits.toNat <<< 3 ||| action.jumpBits.toNat : Nat)

variable {p : Assembly}

theorem toList_numbers (p : Assembly) :
    p.numbers.toList = p.words.toList.map fun w => (w.toNat : Int) := by
  rw [numbers, Array.toList_map]

theorem size_numbers (p : Assembly) : p.numbers.size = p.words.size := by
  rw [numbers, Array.size_map]

theorem mem_numbers {n : Int} (h : n ∈ p.numbers) : 0 ≤ n ∧ n ≤ 65535 := by
  rw [numbers, Array.mem_map] at h
  obtain ⟨w, -, rfl⟩ := h
  have hw : w.toNat < 65536 := w.isLt
  omega

theorem loadable_numbers : Loadable p.numbers ↔ p.words.size ≤ 32768 := by
  rw [Loadable, size_numbers]
  constructor
  · intro h
    exact h.1
  · intro h
    exact ⟨h, fun n hn => mem_numbers hn⟩

/-- The instruction memory takes a program exactly if it has at most as many words, and then the
program is in it. -/
theorem exists_load_iff (p : Assembly) {r : Rom} (hc : r.capacity = 32768) :
    ((∃ r', r.load p.numbers = .ok r') ↔ p.words.size ≤ 32768) ∧
      ∀ r', r.load p.numbers = .ok r' → r'.numbers = p.numbers := by
  rw [← loadable_numbers]
  by_cases hload : Loadable p.numbers
  · obtain ⟨r₀, hr₀, -, hnumbers⟩ := Rom.load_of_loadable hc hload
    refine ⟨⟨fun _ => hload, fun _ => ⟨r₀, hr₀⟩⟩, ?_⟩
    intro r' hr'
    rw [hr₀] at hr'
    rw [← Except.ok.inj hr']
    exact hnumbers
  · obtain ⟨e, he⟩ := Rom.load_of_not_loadable hc hload
    have hnone : ∀ r', r.load p.numbers ≠ .ok r' := by
      intro r' hr'
      rw [he] at hr'
      cases hr'
    refine ⟨⟨?_, fun h => absurd h hload⟩, ?_⟩
    · rintro ⟨r', hr'⟩
      exact absurd hr' (hnone r')
    · intro r' hr'
      exact absurd hr' (hnone r')

end Assembly

/-- The words of an assembled program are what its statements come to. -/
theorem Assembled.numbers_eq {base : Int} {statements : List Statement} {p : Assembly}
    (h : Assembled base statements p) : p.numbers.toList = statements.filterMap p.numberOf := by
  rw [p.toList_numbers, h.words, List.map_filterMap]
  apply List.filterMap_congr
  intro s hs
  cases s with
  | label name => rfl
  | compute spelling action =>
    rw [Assembly.wordOf, Assembly.numberOf, Option.map_some, toNat_encode]
  | load operand =>
    -- An operand of an assembled program stands for something, so nothing is made up for it.
    obtain ⟨n, hn⟩ := Option.isSome_iff_exists.1 (h.bound operand hs)
    have hword : ((encodeLoad n).toNat : Int) = n % 32768 := by
      rw [toNat_encodeLoad]
      omega
    rw [Assembly.wordOf, Assembly.numberOf, hn, Option.getD_some, Option.map_some, Option.map_some,
      hword]

/-! ## Binary digits -/

section

variable {c : Char} {width n : Nat}

theorem length_binaryDigits (hwidth : 0 < width) (h : n < 2 ^ width) :
    (binaryDigits width n).length = width := by
  have hlength : (Nat.toDigits 2 n).length ≤ width :=
    (Nat.length_toDigits_le_iff (by omega) hwidth).2 h
  rw [binaryDigits, List.length_append, List.length_replicate]
  omega

theorem digitChar_of_lt_two (h : n < 2) : n.digitChar = '0' ∨ n.digitChar = '1' := by
  have hcases : n = 0 ∨ n = 1 := by omega
  rcases hcases with rfl | rfl
  · exact .inl rfl
  · exact .inr rfl

theorem of_mem_toDigits_two (h : c ∈ Nat.toDigits 2 n) : c = '0' ∨ c = '1' := by
  -- Over the number: the last digit is its remainder, and the others are those of its half.
  induction n using Nat.strongRecOn with
  | ind n ih =>
    rw [Nat.toDigits_eq_if (by decide)] at h
    split at h
    · next hlt =>
      rw [List.mem_singleton.1 h]
      exact digitChar_of_lt_two hlt
    · rcases List.mem_append.1 h with h | h
      · exact ih (n / 2) (by omega) h
      · rw [List.mem_singleton.1 h]
        exact digitChar_of_lt_two (Nat.mod_lt _ (by decide))

theorem of_mem_binaryDigits (h : c ∈ binaryDigits width n) : c = '0' ∨ c = '1' := by
  rw [binaryDigits, List.mem_append, List.mem_replicate] at h
  rcases h with ⟨-, h⟩ | h
  · exact .inl h
  · exact of_mem_toDigits_two h

/-- The zeros in front do not count. -/
theorem ofDigitChars_binaryDigits (width n : Nat) :
    Nat.ofDigitChars 2 (binaryDigits width n) 0 = n := by
  rw [binaryDigits, Nat.ofDigitChars_append, Nat.ofDigitChars_replicate_zero, Nat.mul_zero,
    Nat.ofDigitChars_toDigits (by decide) (by decide)]

end

/-! ## Images -/

/-- A text says numbers as words: it consists of lines of sixteen binary digits, and read in base
two the lines are the numbers, in order. -/
structure SaysWords (numbers : List Int) (text : String) : Prop where
  /-- A newline ends every line, the last one too. -/
  ended : text.toList = (rows text.toList).flatMap fun line => line ++ ['\n']
  digits : ∀ line ∈ rows text.toList, line.length = 16 ∧ ∀ c ∈ line, c = '0' ∨ c = '1'
  values : (rows text.toList).map (fun line => (Nat.ofDigitChars 2 line 0 : Int)) = numbers

namespace Assembly

theorem toList_image (p : Assembly) :
    p.image.toList = p.words.toList.flatMap fun w => binaryDigits 16 w.toNat ++ ['\n'] := by
  rw [image, imageOfInts, String.toList_join, List.map_map, List.flatMap_map]
  apply List.flatMap_congr
  intro w _
  have hsign : ¬((w.toNat : Int) < 0) := by omega
  rw [Function.comp_apply, imageLine, if_neg hsign, String.toList_ofList, Int.natAbs_natCast]

theorem rows_image (p : Assembly) :
    rows p.image.toList = p.words.toList.map fun w => binaryDigits 16 w.toNat := by
  rw [p.toList_image, rows_flatMap, ← List.flatMap_pure_eq_map]
  apply List.flatMap_congr
  intro w _
  apply rowsOf_of_no_break
  intro c hc
  rcases of_mem_binaryDigits hc with rfl | rfl
  · decide
  · decide

/-- The image of a program says its words. -/
theorem saysWords_image (p : Assembly) : SaysWords p.numbers.toList p.image where
  ended := by
    rw [p.rows_image, List.flatMap_map]
    exact p.toList_image
  digits := by
    rw [p.rows_image]
    intro line hline
    obtain ⟨w, -, rfl⟩ := List.mem_map.1 hline
    exact ⟨length_binaryDigits (by decide) w.isLt, fun c hc => of_mem_binaryDigits hc⟩
  values := by
    rw [p.rows_image, List.map_map, p.toList_numbers]
    apply List.map_congr_left
    intro w _
    rw [Function.comp_apply, ofDigitChars_binaryDigits]

theorem isPlain_image (p : Assembly) : IsPlain p.image.toList := by
  rw [p.toList_image]
  apply isPlain_flatMap
  intro w _
  apply IsPlain.append
  · intro c hc
    rcases of_mem_binaryDigits hc with rfl | rfl
    · decide
    · decide
  · decide

end Assembly

end HackToolchain.Asm
