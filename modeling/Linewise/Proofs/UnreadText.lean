import Linewise.Proofs.Places

namespace Linewise

namespace Text

def inkCount (text : List Char) : Nat := text.countP fun c ↦ !isBlank c

theorem inkCount_append (a b : List Char) : inkCount (a ++ b) = inkCount a + inkCount b := List.countP_append

theorem inkCount_pos {text : List Char} (h : ∃ c ∈ text, isBlank c = false) : 0 < inkCount text := by
  obtain ⟨c, hc, hblank⟩ := h
  exact List.countP_pos_iff.2 ⟨c, hc, by rw [hblank]; rfl⟩

theorem dropTerminator_sublist (line : List Char) : (dropTerminator line).Sublist line := by
  unfold dropTerminator
  split
  · dsimp only
    split
    · exact (List.dropLast_sublist _).trans (List.dropLast_sublist _)
    · exact List.dropLast_sublist _
  · exact .refl _

theorem lines_flatten_sublist (text : List Char) : (lines text).flatten.Sublist text := by
  have hlines (ps : List (List Char)) : (ps.map dropTerminator).flatten.Sublist ps.flatten := by
    induction ps with
    | nil => exact .refl _
    | cons p ps ih => exact (dropTerminator_sublist p).append ih
  have h := hlines (pieces text)
  rwa [pieces_flatten] at h

end Text

namespace Lexer

open Text

variable {s t u : Lexer} {token : Token} {acrossLines : Bool}

def unreadText (s : Lexer) : List Char := s.cursor.rest ++ s.pending.flatten

def ReadsInk (s t : Lexer) : Prop :=
  ∃ passed, s.unreadText = passed ++ t.unreadText ∧ ∃ c ∈ passed, isBlank c = false

theorem ReadsInk.of_suffix (h : t.ReadsInk u) (hs : t.unreadText <:+ s.unreadText) : s.ReadsInk u := by
  obtain ⟨front, hfront⟩ := hs
  obtain ⟨passed, hpassed, c, hc, hblank⟩ := h
  refine ⟨front ++ passed, ?_, c, List.mem_append_right _ hc, hblank⟩
  rw [← hfront, hpassed, List.append_assoc]

theorem ReadsInk.inkCount_lt (h : s.ReadsInk t) : inkCount t.unreadText < inkCount s.unreadText := by
  obtain ⟨passed, hpassed, hink⟩ := h
  have := inkCount_pos hink
  rw [hpassed, inkCount_append]
  omega

theorem inkCount_le_of_suffix (h : t.unreadText <:+ s.unreadText) : inkCount t.unreadText ≤ inkCount s.unreadText :=
  h.sublist.countP_le

theorem Reaches.unreadText_suffix (h : s.Reaches t) : t.unreadText <:+ s.unreadText := by
  cases h with
  | sameLine w rest _ _ pending =>
    refine ⟨w, ?_⟩
    rw [unreadText, unreadText, rest, pending, List.append_assoc]
  | laterLine skipped w pending =>
    refine ⟨s.cursor.rest ++ skipped.flatten ++ w, ?_⟩
    simp only [unreadText, pending, List.flatten_append, List.flatten_cons, List.append_assoc]

theorem readsInk_of_nextChar? {x : Char} {c : Cursor} (h : nextChar? true s.cursor = (some x, c)) :
    s.ReadsInk { s with cursor := c } := by
  refine ⟨s.cursor.rest.takeWhile isBlank ++ [x], ?_, x, List.mem_append_right _ (List.mem_singleton_self x),
    isBlank_of_nextChar? h⟩
  rw [unreadText, unreadText, ← List.append_assoc, ← (rest_of_nextChar? h).1]

theorem readsInk_of_find (h : s.find = .token token t) : s.ReadsInk t := by
  obtain ⟨x, c, hc, hs⟩ := scan_of_find_token h
  obtain ⟨-, hcolumn⟩ := dropWhile_of_nextChar? hc
  have hpasses := scan_passes hs (by simp only [hcolumn]; omega)
  obtain ⟨passed, hpassed, c', hc', hblank⟩ := readsInk_of_nextChar? hc
  obtain ⟨more, hmore⟩ := hpasses.reaches.unreadText_suffix
  exact ⟨passed ++ more, by rw [hpassed, ← hmore, List.append_assoc], c', List.mem_append_left _ hc', hblank⟩

/-- A reader goes on behind a comment or on a later line. -/
theorem unreadText_of_again (h : attempt acrossLines s = .again t) : t.unreadText <:+ s.unreadText := by
  rcases find_of_again h with hf | ⟨u, hf, ha⟩
  · exact (reaches_of_comment hf).unreadText_suffix
  · exact (reaches_of_advanceLine hf ha).unreadText_suffix

theorem readsInk_of_done (h : attempt acrossLines s = .done (.ok true t)) : s.ReadsInk t := by
  rcases find_of_done h with ⟨u, -, h | ⟨v, -, h⟩⟩ | ⟨e, u, -, h⟩ | ⟨token, u, hf, h⟩
  · cases h
  · cases h
  · cases h
  · cases h
    have hink : s.ReadsInk u := readsInk_of_find hf
    exact hink

theorem readsInk_of_pull (h : pull acrossLines s = .ok true t) : s.ReadsInk t := by
  fun_induction pull acrossLines s with
  | case1 s result hd => exact readsInk_of_done (h ▸ hd)
  | case2 s u hd ih => exact (ih h).of_suffix (unreadText_of_again hd)

/-- A token that was not given back before takes a character off the text that is not blank. -/
theorem readsInk_of_readToken (hheld : s.held = none) (h : s.readToken acrossLines = .ok true t) : s.ReadsInk t := by
  rw [readToken, hheld] at h
  exact readsInk_of_pull h

/-- After so many tokens the lexer finds no more. -/
inductive EndsAfter : Nat → Lexer → Prop
  | stop {s : Lexer} : (∀ t, s.readToken true ≠ .ok true t) → EndsAfter 0 s
  | token {n : Nat} {s t : Lexer} : s.readToken true = .ok true t → EndsAfter n t → EndsAfter (n + 1) s

theorem exists_endsAfter (s : Lexer) (hheld : s.held = none) : ∃ n ≤ inkCount s.unreadText, EndsAfter n s := by
  by_cases h : ∃ t, s.readToken true = .ok true t
  · obtain ⟨t, ht⟩ := h
    have hlt := (readsInk_of_readToken hheld ht).inkCount_lt
    have hheld' : t.held = none := by
      rw [readToken, hheld] at ht
      rw [held_of_pull ht, hheld]
    obtain ⟨n, hn, hends⟩ := exists_endsAfter t hheld'
    exact ⟨n + 1, Nat.lt_of_le_of_lt hn hlt, .token ht hends⟩
  · exact ⟨0, Nat.zero_le _, .stop (not_exists.1 h)⟩
termination_by inkCount s.unreadText
decreasing_by exact hlt

theorem inkCount_pos_of_failure {e : LexicalError} (h : s.find = .failure e t) : 0 < inkCount s.unreadText := by
  obtain ⟨x, c, hc, -⟩ := scan_of_failure h
  exact Nat.zero_lt_of_lt (readsInk_of_nextChar? hc).inkCount_lt

/-- There are no more tokens to come than characters that are not blank. -/
theorem length_ahead_le_inkCount (later : Bool) (s : Lexer) : (ahead later s).length ≤ inkCount s.unreadText := by
  fun_induction ahead later s with
  | case1 later s t h u ha ih =>
    exact ih.trans (inkCount_le_of_suffix (reaches_of_advanceLine h ha).unreadText_suffix)
  | case2 later s t h u ha => exact Nat.zero_le _
  | case3 later s e t h => exact inkCount_pos_of_failure h
  | case4 later s t h ih => exact ih.trans (inkCount_le_of_suffix (reaches_of_comment h).unreadText_suffix)
  | case5 later s token t h ih => exact Nat.lt_of_le_of_lt ih (readsInk_of_find h).inkCount_lt

theorem inkCount_ofText_le (source : List Char) (keepComments : Bool) :
    inkCount (ofText source keepComments).unreadText ≤ inkCount source :=
  (lines_flatten_sublist source).countP_le

end Lexer

end Linewise
