import HackToolchain.Text.Decimal
import HackToolchain.Text.Blank
import Mathlib.Algebra.Group.Nat.Defs

/-!
# Written numbers

The decimal text of a natural number is a numeral that denotes it, different numbers have different
texts, and no character of a text is a blank or starts a comment.
-/

set_option autoImplicit false

namespace HackToolchain.Text.Decimal

/-! ## Digits -/

theorem isDigit_eq (c : Char) : isDigit c = c.isDigit := rfl

theorem isDigit_of_mem_toDigits {c : Char} {n : Nat} (h : c ∈ Nat.toDigits 10 n) :
    isDigit c = true :=
  (isDigit_eq c).trans (Nat.isDigit_of_mem_toDigits (by decide) (by decide) h)

theorem value_toDigits (n : Nat) : value (Nat.toDigits 10 n) = n := by
  have h := @Nat.ofDigitChars_ten_toDigits n
  rw [Nat.ofDigitChars_eq_foldl] at h
  simpa [value, digitValue, Nat.mul_comm] using h

theorem isNumeral_toDigits (n : Nat) : isNumeral (Nat.toDigits 10 n) = true := by
  have hne : (Nat.toDigits 10 n).isEmpty = false := by simp [Nat.toDigits_ne_nil]
  have hall : (Nat.toDigits 10 n).all isDigit = true :=
    List.all_eq_true.2 fun _ h => isDigit_of_mem_toDigits h
  rw [isNumeral, hne, hall, Bool.not_false, Bool.and_true]

theorem toNat_of_isDigit {c : Char} (h : isDigit c = true) : 48 ≤ c.toNat ∧ c.toNat ≤ 57 := by
  rw [isDigit, Bool.and_eq_true, decide_eq_true_eq, decide_eq_true_eq] at h
  exact ⟨h.1, h.2⟩

/-- Reading on from a number adds at most as many digits as are read. -/
theorem foldl_value_lt {s : List Char} (h : ∀ c ∈ s, isDigit c = true) (n : Nat) :
    s.foldl (fun n c => n * 10 + digitValue c) n < (n + 1) * 10 ^ s.length := by
  induction s generalizing n with
  | nil => simp
  | cons c s ih =>
    have hc : digitValue c ≤ 9 := by
      have hcode := toNat_of_isDigit (h c List.mem_cons_self)
      have hzero : '0'.toNat = 48 := rfl
      rw [digitValue, hzero]
      omega
    have hrest := ih (fun d hd => h d (List.mem_cons_of_mem _ hd)) (n * 10 + digitValue c)
    calc (c :: s).foldl (fun n c => n * 10 + digitValue c) n
        < (n * 10 + digitValue c + 1) * 10 ^ s.length := hrest
      _ ≤ (n + 1) * 10 * 10 ^ s.length := Nat.mul_le_mul_right _ (by omega)
      _ = (n + 1) * 10 ^ (c :: s).length := by
        rw [List.length_cons, Nat.pow_succ, Nat.mul_assoc, Nat.mul_comm 10]

/-- A numeral denotes a number with at most as many digits. -/
theorem value_lt {s : List Char} (h : isNumeral s = true) : value s < 10 ^ s.length := by
  rw [isNumeral, Bool.and_eq_true, List.all_eq_true] at h
  have := foldl_value_lt h.2 0
  rwa [Nat.zero_add, Nat.one_mul] at this

/-! ## Texts of numbers -/

theorem toList_render_natCast (n : Nat) : (render n).toList = Nat.toDigits 10 n := by
  have h : render n = n.repr := rfl
  rw [h, Nat.toList_repr]

theorem toList_render_negSucc (n : Nat) :
    (render (.negSucc n)).toList = '-' :: Nat.toDigits 10 (n + 1) := by
  have h : render (.negSucc n) = "-" ++ (n + 1).repr := rfl
  rw [h, String.toList_append, Nat.toList_repr]
  rfl

/-- The text of a natural number is a numeral, and denotes the number. -/
theorem value_render (n : Nat) :
    isNumeral (render n).toList = true ∧ value (render n).toList = n := by
  rw [toList_render_natCast]
  exact ⟨isNumeral_toDigits n, value_toDigits n⟩

theorem tooLarge_eq : tooLarge = 10 ^ maxDigits := by
  have hpow (b n : Nat) : Nat.pow b n = b ^ n := rfl
  delta tooLarge
  rw [hpow]

/-- The natural numbers that may be written are those whose digits may be read. -/
theorem fits_iff_length_render_le {n : Nat} :
    fits n = true ↔ (render n).toList.length ≤ maxDigits := by
  rw [fits, decide_eq_true_eq, tooLarge_eq, Int.natAbs_natCast, toList_render_natCast,
    Nat.length_toDigits_le_iff (by decide) (by decide)]

/-- The text of a negative number is no numeral: it starts with the sign. -/
theorem isNumeral_render_negSucc (n : Nat) : isNumeral (render (.negSucc n)).toList = false := by
  rw [toList_render_negSucc, isNumeral, List.all_cons]
  have h : isDigit '-' = false := by decide
  simp [h]

/-- The number that a text denotes: a numeral, or a numeral after the sign of negative numbers. -/
def signedValue? : List Char → Option Int
  | '-' :: digits => if isNumeral digits then some (-(value digits : Int)) else none
  | digits => if isNumeral digits then some (value digits : Int) else none

/-- The text of a number denotes the number. -/
theorem signedValue?_render (n : Int) : signedValue? (render n).toList = some n := by
  cases n with
  | ofNat n =>
    obtain ⟨hnumeral, hvalue⟩ := value_render n
    rw [Int.ofNat_eq_natCast]
    unfold signedValue?
    split
    · next digits hdigits =>
      -- The sign is no digit, so no numeral starts with it.
      have hsign : isNumeral ('-' :: digits) = false := rfl
      rw [hdigits, hsign] at hnumeral
      cases hnumeral
    · rw [hnumeral, if_pos rfl, hvalue]
  | negSucc n =>
    rw [toList_render_negSucc, signedValue?, isNumeral_toDigits, if_pos rfl, value_toDigits,
      Int.negSucc_eq]
    rfl

theorem toDigits_injective {m n : Nat} (h : Nat.toDigits 10 m = Nat.toDigits 10 n) : m = n := by
  rw [← value_toDigits m, h, value_toDigits]

/-- Numbers with the same text are the same. -/
theorem render_injective {m n : Int} (h : render m = render n) : m = n := by
  have hl := congrArg String.toList h
  cases m with
  | ofNat m =>
    cases n with
    | ofNat n =>
      rw [Int.ofNat_eq_natCast, Int.ofNat_eq_natCast, toList_render_natCast,
        toList_render_natCast] at hl
      rw [toDigits_injective hl]
    | negSucc n =>
      have hm := (value_render m).1
      rw [Int.ofNat_eq_natCast] at hl
      rw [hl, isNumeral_render_negSucc] at hm
      exact absurd hm (by decide)
  | negSucc m =>
    cases n with
    | ofNat n =>
      have hn := (value_render n).1
      rw [Int.ofNat_eq_natCast] at hl
      rw [← hl, isNumeral_render_negSucc] at hn
      exact absurd hn (by decide)
    | negSucc n =>
      rw [toList_render_negSucc, toList_render_negSucc, List.cons.injEq] at hl
      have := toDigits_injective hl.2
      rw [show m = n by omega]

theorem eq_or_isDigit_of_mem_render {n : Int} {c : Char} (h : c ∈ (render n).toList) :
    c = '-' ∨ isDigit c = true := by
  cases n with
  | ofNat n =>
    rw [Int.ofNat_eq_natCast, toList_render_natCast] at h
    exact .inr (isDigit_of_mem_toDigits h)
  | negSucc n =>
    rw [toList_render_negSucc, List.mem_cons] at h
    exact h.imp_right isDigit_of_mem_toDigits

theorem toNat_lt_of_mem_render {n : Int} {c : Char} (h : c ∈ (render n).toList) :
    c.toNat < 128 := by
  rcases eq_or_isDigit_of_mem_render h with rfl | hd
  · decide
  · have := toNat_of_isDigit hd
    omega

theorem isBlank_of_mem_render {n : Int} {c : Char} (h : c ∈ (render n).toList) :
    isBlank c = false := by
  rcases eq_or_isDigit_of_mem_render h with rfl | hd
  · decide
  · have hc := toNat_of_isDigit hd
    simp only [isBlank, Bool.or_eq_false_iff, Bool.and_eq_false_iff, decide_eq_false_iff_not,
      beq_eq_false_iff_ne]
    omega

theorem ne_slash_of_mem_render {n : Int} {c : Char} (h : c ∈ (render n).toList) : c ≠ '/' := by
  rcases eq_or_isDigit_of_mem_render h with rfl | hd
  · decide
  · rintro rfl
    exact absurd hd (by decide)

end HackToolchain.Text.Decimal
