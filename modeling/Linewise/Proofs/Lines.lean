import Mathlib.Data.List.Basic
import Linewise.Text.Line

namespace Linewise.Text

variable {a line text : List Char}

theorem pieces_cons (c : Char) (text : List Char) : pieces (c :: text) = addInFront c (pieces text) :=
  rfl

theorem pieces_append_newline (h : '\n' ∉ a) (b : List Char) :
    pieces (a ++ '\n' :: b) = (a ++ ['\n']) :: pieces b := by
  induction a with
  | nil => rfl
  | cons c a ih =>
    obtain ⟨hc, ha⟩ := not_or.1 (mt List.mem_cons.2 h)
    rw [List.cons_append, pieces_cons, ih ha, addInFront, if_neg (Ne.symm hc)]
    rfl

theorem pieces_of_no_newline (h : '\n' ∉ a) (hne : a ≠ []) : pieces a = [a] := by
  induction a with
  | nil => exact absurd rfl hne
  | cons c a ih =>
    obtain ⟨hc, ha⟩ := not_or.1 (mt List.mem_cons.2 h)
    rw [pieces_cons]
    cases a with
    | nil => exact if_neg (Ne.symm hc)
    | cons d a =>
      rw [ih ha (by simp)]
      exact if_neg (Ne.symm hc)

theorem dropTerminator_append_newline (a : List Char) :
    dropTerminator (a ++ ['\n']) = if a.getLast? = some '\r' then a.dropLast else a := by
  simp only [dropTerminator, List.getLast?_concat, List.dropLast_concat, if_true]

theorem dropTerminator_of_no_newline (h : '\n' ∉ a) : dropTerminator a = a := by
  rw [dropTerminator, if_neg]
  exact fun hl ↦ h (List.mem_of_getLast? hl)

theorem length_dropTerminator_le (line : List Char) : (dropTerminator line).length ≤ line.length := by
  unfold dropTerminator
  dsimp only
  split
  · split <;> simp only [List.length_dropLast] <;> omega
  · exact Nat.le_refl _

theorem lines_append_newline (h : '\n' ∉ a) (hr : a.getLast? ≠ some '\r') (b : List Char) :
    lines (a ++ '\n' :: b) = a :: lines b := by
  rw [lines, pieces_append_newline h, List.map_cons, dropTerminator_append_newline, if_neg hr, lines]

theorem lines_of_no_newline (h : '\n' ∉ a) (hne : a ≠ []) : lines a = [a] := by
  rw [lines, pieces_of_no_newline h hne, List.map_singleton, dropTerminator_of_no_newline h]

theorem length_le_of_mem_lines (h : line ∈ lines text) : line.length ≤ text.length := by
  obtain ⟨piece, hp, rfl⟩ := List.mem_map.1 h
  have hpiece : piece.length ≤ text.length := by
    conv => rhs; rw [← pieces_flatten text]
    exact (List.sublist_flatten_of_mem hp).length_le
  exact Nat.le_trans (length_dropTerminator_le piece) hpiece

theorem eq_of_mem_lines (h : line ∈ lines text) (hlen : text.length ≤ line.length) :
    line = text ∧ '\n' ∉ text := by
  by_cases hn : '\n' ∈ text
  · obtain ⟨a, b, rfl, ha⟩ := List.eq_append_cons_of_mem hn
    rw [lines, pieces_append_newline ha, List.map_cons] at h
    rw [List.length_append, List.length_cons] at hlen
    rcases List.mem_cons.1 h with rfl | h
    · have hdrop : (dropTerminator (a ++ ['\n'])).length ≤ a.length := by
        rw [dropTerminator_append_newline]
        split <;> simp
      omega
    · have := length_le_of_mem_lines h
      omega
  · refine ⟨?_, hn⟩
    by_cases hne : text = []
    · subst hne
      cases h
    · rw [lines_of_no_newline hn hne] at h
      exact List.mem_singleton.1 h

end Linewise.Text
