import HackToolchain.Diagnostic.Report
import HackToolchain.Proofs.Text.Contents

/-!
# What stands above a caret

A report that shows a line puts a caret below it, in the column of its place. If that is the column
in which the line shown starts, the caret stands below the first character that is no blank
(`Report.aboveCaret?_of_startsAt`). Line ends that are left out do not matter, but if the words of
the line are shown instead of the line, then they start in the first column.
-/

set_option autoImplicit false

namespace HackToolchain

open Text

namespace Text

/-- The first character of a line that is no blank. -/
def firstVisible? (line : List Char) : Option Char := line.find? fun c => !isBlank c

theorem firstVisible?_append {before : List Char} (h : AllBlank before) {c : Char}
    (hc : isBlank c = false) (after : List Char) :
    firstVisible? (before ++ c :: after) = some c := by
  have hbefore : before.find? (fun c => !isBlank c) = none := by
    rw [List.find?_eq_none]
    intro d hd
    simp [h d hd]
  rw [firstVisible?, List.find?_append, hbefore, Option.none_or,
    List.find?_cons_of_pos (by simp [hc])]

theorem StartsAt.pos {line : List Char} {column : Int} (h : StartsAt line column) : 0 < column := by
  obtain ⟨before, -, -, -, -, -, rfl⟩ := h
  omega

/-- The column in which a line starts is that of the first character that is no blank. -/
theorem StartsAt.getElem?_eq {row : List Char} {column : Int} (h : StartsAt row column) :
    row[(column - 1).toNat]? = firstVisible? row := by
  obtain ⟨before, c, after, rfl, hbefore, hc, rfl⟩ := h
  rw [firstVisible?_append hbefore hc, Int.add_sub_cancel, Int.toNat_natCast,
    List.getElem?_append_right (Nat.le_refl _), Nat.sub_self]
  rfl

/-! ## Line ends -/

theorem chomp_append_cons {c : Char} (h : isBlank c = false) (before after : List Char) :
    chomp (before ++ c :: after) = before ++ c :: chomp after := by
  have hc : (c == '\r' || c == '\n') = false := by
    rw [Bool.or_eq_false_iff, beq_eq_false_iff_ne, beq_eq_false_iff_ne]
    constructor
    · rintro rfl
      exact absurd h (by decide)
    · rintro rfl
      exact absurd h (by decide)
  rw [chomp, List.reverse_append, List.reverse_cons, List.append_assoc, List.dropWhile_append]
  split
  · next hempty =>
    rw [List.isEmpty_iff] at hempty
    rw [chomp, hempty]
    simp [hc]
  · simp [chomp]

/-- A line starts where it does without its line ends. -/
theorem StartsAt.chomp {line : List Char} {column : Int} (h : StartsAt line column) :
    StartsAt (chomp line) column := by
  obtain ⟨before, c, after, rfl, hbefore, hc, rfl⟩ := h
  exact ⟨before, c, Text.chomp after, chomp_append_cons hc before after, hbefore, hc, rfl⟩

theorem StartsAt.firstVisible?_chomp {line : List Char} {column : Int} (h : StartsAt line column) :
    firstVisible? (Text.chomp line) = firstVisible? line := by
  obtain ⟨before, c, after, rfl, hbefore, hc, rfl⟩ := h
  rw [chomp_append_cons hc, firstVisible?_append hbefore hc, firstVisible?_append hbefore hc]

/-! ## Words -/

/-- The words of a line that says something begin with its first character that is no blank. -/
theorem head?_intercalate_words {line : List Char} (h : content line ≠ []) :
    (" ".intercalate ((words (content line)).map String.ofList)).toList.head? =
      firstVisible? line := by
  obtain ⟨comment, hline⟩ := exists_uncomment line
  obtain ⟨before, hbefore, hleft⟩ := exists_trimLeft (uncomment line)
  cases ht : trimLeft (uncomment line) with
  | nil => exact absurd (by rw [content, trim, ht]; rfl) h
  | cons c text =>
    have hc := isBlank_of_trimLeft ht
    obtain ⟨w, ws, hwords⟩ := exists_words_cons hc text
    have hfirst : firstVisible? line = some c := by
      rw [hline, hleft, ht, List.append_assoc, List.cons_append, firstVisible?_append hbefore hc]
    rw [words_content, hleft, ht, words_append_left hbefore, hwords, hfirst]
    cases ws with
    | nil => simp
    | cons w' ws => simp [String.toList_intercalate, List.intercalate]

end Text

namespace Report

/-- The character that stands directly above the caret of a report, if there is one. -/
def aboveCaret? (r : Report) : Option Char :=
  match r.excerpt with
  | [shown, mark] => shown.toList[mark.toList.idxOf '^']?
  | _ => none

/-- The caret stands below the character that its column has in the line shown. -/
theorem aboveCaret?_eq (r : Report) {l : Location} {line : String} (hplace : r.location = some l)
    (hline : r.sourceLine = some line) (hcolumn : 0 < l.column) :
    r.aboveCaret? = line.toList[(l.column - 1).toNat]? := by
  have hindex : margin + l.column.toNat - 1 = margin + (l.column - 1).toNat := by omega
  have hcaret : '^' ∉ List.replicate (margin + (l.column - 1).toNat) ' ' := by simp
  have hmark : (List.replicate (margin + (l.column - 1).toNat) ' ' ++ ['^']).idxOf '^' =
      margin + (l.column - 1).toNat := by
    rw [List.idxOf_append_of_notMem hcaret, List.length_replicate]
    rfl
  simp only [aboveCaret?, excerpt, hplace, hline, caret, if_pos hcolumn, hindex,
    String.toList_append, String.toList_ofList, hmark]
  rw [List.getElem?_append_right (by simp), List.length_replicate, Nat.add_sub_cancel_left]

/-- The caret stands below the first character of the line shown that is no blank, if that is where
the place of the report is. -/
theorem aboveCaret?_of_startsAt (r : Report) {l : Location} {line : List Char}
    (hplace : r.location = some l) (hline : r.sourceLine = some (String.ofList line))
    (h : StartsAt line l.column) : r.aboveCaret? = firstVisible? line := by
  rw [aboveCaret?_eq r hplace hline h.pos, String.toList_ofList, h.getElem?_eq]

end Report

end HackToolchain
