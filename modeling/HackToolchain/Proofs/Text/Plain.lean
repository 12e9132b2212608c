import HackToolchain.Text.Utf8

/-!
# Plain texts in files

A text of ASCII characters is written as one byte for every character (`Utf8.toList_toUTF8`), and
the bytes are decoded to the same text (`Utf8.decode_toUTF8`). If there is no carriage return in it
either, it is read back from a file as it is, line ends included (`Utf8.readText_toUTF8`).
-/

set_option autoImplicit false

namespace HackToolchain.Text

/-- A text whose characters are all ASCII, none of them a carriage return. -/
def IsPlain (s : List Char) : Prop := ∀ c ∈ s, c.toNat < 128 ∧ c ≠ '\r'

instance (s : List Char) : Decidable (IsPlain s) :=
  inferInstanceAs (Decidable (∀ c ∈ s, c.toNat < 128 ∧ c ≠ '\r'))

theorem IsPlain.append {s t : List Char} (hs : IsPlain s) (ht : IsPlain t) : IsPlain (s ++ t) := by
  intro c hc
  rcases List.mem_append.1 hc with hc | hc
  · exact hs c hc
  · exact ht c hc

theorem isPlain_flatMap {α : Type} {xs : List α} {f : α → List Char} (h : ∀ x ∈ xs, IsPlain (f x)) :
    IsPlain (xs.flatMap f) := by
  intro c hc
  obtain ⟨x, hx, hc⟩ := List.mem_flatMap.1 hc
  exact h x hx c hc

/-- Without carriage returns there is nothing to unify. -/
theorem unifyBreaks_eq_self {s : List Char} (h : ∀ c ∈ s, c ≠ '\r') : unifyBreaks s = s := by
  have hfold : s.foldr unifyStep ([], none) = (s, s.head?) := by
    induction s with
    | nil => rfl
    | cons c s ih =>
      have hc : c ≠ '\r' := h c List.mem_cons_self
      rw [List.foldr_cons, ih fun d hd => h d (List.mem_cons_of_mem c hd), unifyStep, if_neg hc]
      rfl
  rw [unifyBreaks, hfold]

namespace Utf8

/-! ## Bytes of ASCII characters -/

section

variable {c : Char} {s : List Char}

/-- The byte of an ASCII character is the whole character. -/
theorem head_cons_of_lt (h : c.toNat < 128) (rest : List UInt8) :
    head (c.toUInt8 :: rest) = .char c 1 := by
  have hbyte : c.toUInt8.toNat = c.toNat := by
    change c.toNat % 256 = c.toNat
    exact Nat.mod_eq_of_lt (by omega)
  have hlt : c.toUInt8 < 0x80 := by
    rw [UInt8.lt_iff_toNat_lt, hbyte]
    exact h
  have hread : head (c.toUInt8 :: rest) = .char (Char.ofNat c.toUInt8.toNat) 1 := if_pos hlt
  rw [hread, hbyte, Char.ofNat_toNat]

theorem flatMap_utf8EncodeChar (h : ∀ c ∈ s, c.toNat < 128) :
    s.flatMap String.utf8EncodeChar = s.map Char.toUInt8 := by
  induction s with
  | nil => rfl
  | cons c s ih =>
    have hsize : c.utf8Size = 1 := by
      rw [Char.utf8Size_eq_one_iff, UInt32.le_iff_toNat_le]
      exact Nat.le_of_lt_succ (h c List.mem_cons_self)
    rw [List.flatMap_cons, String.utf8EncodeChar_eq_singleton hsize, List.map_cons,
      ih fun d hd => h d (List.mem_cons_of_mem c hd)]
    rfl

/-- The bytes of ASCII characters are decoded to them. -/
theorem decodeFrom_map (h : ∀ c ∈ s, c.toNat < 128) (out : List Char) (position : Nat) :
    decodeFrom false s.length out position (s.map Char.toUInt8) = .ok ⟨out.reverse ++ s, []⟩ := by
  induction s generalizing out position with
  | nil => rw [List.append_nil, List.length_nil, List.map_nil, decodeFrom]
  | cons c s ih =>
    have hhead := head_cons_of_lt (h c List.mem_cons_self) (s.map Char.toUInt8)
    rw [List.length_cons, List.map_cons, decodeFrom, nextHead, Bool.false_and, if_neg (by decide),
      hhead]
    simp only [List.drop_succ_cons, List.drop_zero]
    rw [ih fun d hd => h d (List.mem_cons_of_mem c hd), List.reverse_cons, List.append_assoc,
      List.singleton_append]

end

/-! ## Files -/

section

variable {text : String}

theorem toList_toUTF8 (h : ∀ c ∈ text.toList, c.toNat < 128) :
    text.toUTF8.data.toList = text.toList.map Char.toUInt8 := by
  have hbytes : text.toUTF8 = (text.toList.flatMap String.utf8EncodeChar).toByteArray := by
    rw [String.toUTF8_eq_toByteArray]
    exact (congrArg String.toByteArray String.ofList_toList).symm
  rw [hbytes, List.toList_data_toByteArray, flatMap_utf8EncodeChar h]

theorem decode_toUTF8 (h : ∀ c ∈ text.toList, c.toNat < 128) :
    decode text.toUTF8.data.toList = .ok text.toList := by
  rw [toList_toUTF8 h, decode, List.length_map, decodeFrom_map h]
  rfl

/-- A plain text is read back from its file unchanged. -/
theorem readText_toUTF8 (h : IsPlain text.toList) :
    readText text.toUTF8.data.toList = .ok text := by
  have hascii : ∀ c ∈ text.toList, c.toNat < 128 := fun c hc => (h c hc).1
  have hreturn : ∀ c ∈ text.toList, c ≠ '\r' := fun c hc => (h c hc).2
  simp only [readText, decode_toUTF8 hascii, unifyBreaks_eq_self hreturn, String.ofList_toList]

end

end Utf8

end HackToolchain.Text
