import HackToolchain.Text.Lines

/-!
# The lines of a text

Texts that are put together have the lines of both, if the first ends with a newline
(`lines_append`), and the first lines of a text, put together, fall into the same lines again
(`lines_flatten_of_prefix`). A text has at most as many lines as characters.
-/

set_option autoImplicit false

namespace HackToolchain.Text

theorem lines_cons (c : Char) (s : List Char) : lines (c :: s) = linesStep c (lines s) := rfl

theorem linesStep_append (c : Char) {ls : List (List Char)} (h : ls ≠ []) (ms : List (List Char)) :
    linesStep c (ls ++ ms) = linesStep c ls ++ ms := by
  unfold linesStep
  split
  · rfl
  · cases ls with
    | nil => exact absurd rfl h
    | cons l ls => rfl

theorem linesStep_ne_nil (c : Char) (ls : List (List Char)) : linesStep c ls ≠ [] := by
  unfold linesStep
  split
  · exact List.cons_ne_nil _ _
  · split <;> exact List.cons_ne_nil _ _

theorem lines_newline_append (x y : List Char) :
    lines (x ++ '\n' :: y) = lines (x ++ ['\n']) ++ lines y ∧ lines (x ++ ['\n']) ≠ [] := by
  induction x with
  | nil => exact ⟨rfl, List.cons_ne_nil _ _⟩
  | cons c x ih =>
    obtain ⟨happend, hne⟩ := ih
    rw [List.cons_append, List.cons_append, lines_cons, lines_cons, happend, linesStep_append c hne]
    exact ⟨rfl, linesStep_ne_nil c _⟩

/-- A text that is empty or ends with a newline keeps its lines in front of another text. -/
theorem lines_append {x : List Char} (h : x = [] ∨ x.getLast? = some '\n') (y : List Char) :
    lines (x ++ y) = lines x ++ lines y := by
  rcases h with rfl | h
  · rfl
  · obtain ⟨x, rfl⟩ := List.getLast?_eq_some_iff.1 h
    rw [List.append_assoc]
    exact (lines_newline_append x y).1

/-- The first lines of a text fall into the same lines again. -/
theorem lines_flatten_of_prefix {s : List Char} {ls : List (List Char)} (h : ls <+: lines s) :
    lines ls.flatten = ls := by
  induction s generalizing ls with
  | nil =>
    rw [List.prefix_nil.1 h]
    rfl
  | cons c s ih =>
    rw [lines_cons] at h
    unfold linesStep at h
    -- The first line of the whole is the first character, or it goes on with the first line of
    -- the rest.
    cases ls with
    | nil => rfl
    | cons l ls =>
      split at h
      · next hc =>
        obtain ⟨rfl, hrest⟩ := List.cons_prefix_cons.1 h
        rw [List.flatten_cons, List.singleton_append, lines_cons, ih hrest]
        simp [linesStep, hc]
      · next hc =>
        split at h
        · obtain ⟨rfl, hrest⟩ := List.cons_prefix_cons.1 h
          rw [List.prefix_nil.1 hrest]
          simp [lines, linesStep, hc]
        · next first rest hlines =>
          obtain ⟨rfl, hrest⟩ := List.cons_prefix_cons.1 h
          have hfirst : first :: ls <+: lines s := by
            rw [hlines]
            exact List.cons_prefix_cons.2 ⟨rfl, hrest⟩
          have := ih hfirst
          rw [List.flatten_cons] at this
          rw [List.flatten_cons, List.cons_append, lines_cons, this, linesStep, if_neg hc]

/-- A text without newlines is one line. -/
theorem lines_of_no_newline {s : List Char} (h : '\n' ∉ s) (hne : s ≠ []) : lines s = [s] := by
  induction s with
  | nil => exact absurd rfl hne
  | cons c s ih =>
    obtain ⟨hc, hs⟩ := not_or.1 (mt List.mem_cons.2 h)
    cases s with
    | nil => exact if_neg (Ne.symm hc)
    | cons d s =>
      rw [lines_cons, ih hs (List.cons_ne_nil d s)]
      exact if_neg (Ne.symm hc)

theorem length_lines_le (s : List Char) : (lines s).length ≤ s.length := by
  induction s with
  | nil => exact Nat.le_refl 0
  | cons c s ih =>
    have hstep : (linesStep c (lines s)).length ≤ (lines s).length + 1 := by
      unfold linesStep
      split
      · simp
      · split <;> simp_all
    calc (lines (c :: s)).length = (linesStep c (lines s)).length := rfl
      _ ≤ (lines s).length + 1 := hstep
      _ ≤ (c :: s).length := Nat.succ_le_succ ih

end HackToolchain.Text
