import Linewise.Proofs.Blanking
import Linewise.Proofs.LineBreaks

namespace Linewise

open Text

theorem Cursor.forward_add (m n : Nat) (c : Cursor) :
    c.forward (m + n) = (c.forward m).forward n := by
  induction m generalizing c with
  | zero => rw [Nat.zero_add, forward]
  | succ m ih =>
    rw [Nat.add_right_comm, forward, forward]
    cases h : c.next? with
    | none => cases n <;> simp only [forward, h]
    | some a => exact ih a.2

namespace Lexer

def contents (s : Lexer) : List (Except LexicalError Token) := (s.ahead false).map (·.content)

theorem map_content_ahead (later : Bool) (s : Lexer) :
    (ahead later s).map (·.content) = s.contents := by
  rw [contents]
  fun_induction ahead later s with
  | case1 later s t h u ha =>
    rw [ahead_eq false s, h]
    simp only [ha]
  | case2 later s t h u ha =>
    rw [ahead_eq false s, h]
    simp only [ha, List.map_nil]
  | case3 later s e t h =>
    rw [ahead_eq false s, h]
    rfl
  | case4 later s t h ih =>
    rw [ahead_eq false s, h]
    exact ih
  | case5 later s token t h =>
    rw [ahead_eq false s, h]
    rfl

variable {s : Lexer} {blanks rest line : List Char} {skipped pending : List (List Char)}

theorem nextChar?_forward {c : Cursor} (hr : c.rest = blanks ++ rest)
    (hb : blanks.all isBlank = true) :
    nextChar? true (c.forward blanks.length) = nextChar? true c := by
  have hrest : (c.forward blanks.length).rest = rest := by
    rw [Cursor.forward_rest, hr, List.drop_left]
  have htake : c.rest.takeWhile isBlank = blanks ++ rest.takeWhile isBlank := by
    rw [hr, List.takeWhile_append_of_pos (List.all_eq_true.1 hb)]
  simp only [nextChar?, if_true, hrest, htake, List.length_append, Cursor.forward_add]

theorem ahead_forward (later : Bool) (hr : s.cursor.rest = blanks ++ rest)
    (hb : blanks.all isBlank = true) :
    ahead later { s with cursor := s.cursor.forward blanks.length } = ahead later s := by
  have hf : find { s with cursor := s.cursor.forward blanks.length } = find s := by
    simp only [find, nextChar?_forward hr hb]
  rw [ahead_eq, hf, ← ahead_eq]

theorem find_of_blank (hr : s.cursor.rest.all isBlank = true) :
    ∃ c, s.find = .lineEnd { s with cursor := c } ∧ c.rest = [] := by
  obtain ⟨c, hc⟩ := nextChar?_of_blank (List.dropWhile_eq_nil_iff.2 (List.all_eq_true.1 hr))
  exact ⟨c, by simp only [find, hc], nextChar?_none hc⟩

theorem ahead_of_blank (later : Bool) (hr : s.cursor.rest.all isBlank = true) :
    ahead later s = match s.pending.dropWhile (·.all isBlank) with
      | [] => []
      | line :: pending => ahead true { s with
          pending, cursor := .ofLine line,
          lineNumber := s.lineNumber + (s.pending.length - pending.length) } := by
  obtain ⟨c, hf, hc⟩ := find_of_blank hr
  rw [ahead_eq, hf]
  simp only [advanceLine, hc, List.isEmpty_nil, Bool.not_true, Bool.and_false, Bool.false_eq_true,
    if_false]
  cases s.pending.dropWhile (·.all isBlank) <;> rfl

theorem ahead_skip (later : Bool) (hr : s.cursor.rest.all isBlank = true)
    (hp : s.pending = skipped ++ line :: pending) (hs : ∀ l ∈ skipped, l.all isBlank = true) :
    ahead later s = ahead true { s with
      pending, cursor := .ofLine line, lineNumber := s.lineNumber + skipped.length + 1 } := by
  have hdrop : s.pending.dropWhile (·.all isBlank) = (line :: pending).dropWhile (·.all isBlank) := by
    rw [hp, List.dropWhile_append_of_pos hs]
  rw [ahead_of_blank later hr, hdrop, hp, List.length_append, List.length_cons]
  by_cases hl : line.all isBlank = true
  · have hcons : (line :: pending).dropWhile (·.all isBlank) = pending.dropWhile (·.all isBlank) :=
      List.dropWhile_cons_of_pos hl
    rw [ahead_of_blank true hl, hcons]
    cases hd : pending.dropWhile (·.all isBlank) with
    | nil => rfl
    | cons l more =>
      have hle := (List.dropWhile_suffix (l := pending) (·.all isBlank)).length_le
      rw [hd, List.length_cons] at hle
      have hnumber : s.lineNumber + (skipped.length + (pending.length + 1) - more.length) =
          s.lineNumber + skipped.length + 1 + (pending.length - more.length) := by omega
      simp only [hnumber]
  · have hcons : (line :: pending).dropWhile (·.all isBlank) = line :: pending :=
      List.dropWhile_cons_of_neg hl
    have hnumber : s.lineNumber + (skipped.length + (pending.length + 1) - pending.length) =
        s.lineNumber + skipped.length + 1 := by omega
    simp only [hcons, hnumber]

section

variable {hidden : Position → Bool}

/-- The state `t` stands at the same place of the blanked text as `s` in the text itself. -/
structure Blanks (hidden : Position → Bool) (s t : Lexer) : Prop where
  keepComments : t.keepComments = true
  at_place : t.At s.lineNumber s.cursor.column (blankFrom hidden s.place s.cursor.rest)
    (blankLines hidden (s.lineNumber + 1) s.pending)

theorem Blanks.sameLine {s t u : Lexer} (h : Blanks hidden s u) {w : List Char}
    (rest : s.cursor.rest = w ++ t.cursor.rest) (line : t.lineNumber = s.lineNumber)
    (column : t.cursor.column = s.cursor.column + w.length) (pending : t.pending = s.pending)
    (hw : (blankFrom hidden s.place w).all isBlank = true) :
    ∃ v, Blanks hidden t v ∧ u.contents = v.contents := by
  obtain ⟨hkeep, hline, hcolumn, hrest, hpending⟩ := h
  have hplace : (⟨s.place.line, s.place.column + w.length⟩ : Position) = t.place := by
    simp only [place, line, column]
  rw [rest, blankFrom_append, hplace] at hrest
  refine ⟨{ u with cursor := u.cursor.forward (blankFrom hidden s.place w).length },
    ⟨hkeep, hline.trans line.symm, ?_, ?_, ?_⟩, ?_⟩
  · rw [Cursor.forward_column, length_blankFrom, hcolumn, column]
    rw [hrest, List.length_append]
    omega
  · rw [Cursor.forward_rest, hrest, List.drop_left]
  · rw [hpending, line, pending]
  · rw [contents, contents, ahead_forward false hrest hw]

theorem Blanks.laterLine {s t u : Lexer} (h : Blanks hidden s u) {skipped : List (List Char)}
    {w : List Char} (pending : s.pending = skipped ++ (w ++ t.cursor.rest) :: t.pending)
    (line : t.lineNumber = s.lineNumber + skipped.length + 1) (column : t.cursor.column = w.length)
    (hrest : (blankFrom hidden s.place s.cursor.rest).all isBlank = true)
    (hskipped : ∀ l ∈ blankLines hidden (s.lineNumber + 1) skipped, l.all isBlank = true)
    (hw : (blankFrom hidden ⟨t.lineNumber, 0⟩ w).all isBlank = true) :
    ∃ v, Blanks hidden t v ∧ u.contents = v.contents := by
  obtain ⟨hkeep, hline, -, hr, hpending⟩ := h
  have hnumber : s.lineNumber + 1 + skipped.length = t.lineNumber := by omega
  rw [pending, blankLines_append, hnumber, blankLines] at hpending
  let v : Lexer := { u with
    pending := blankLines hidden (t.lineNumber + 1) t.pending
    cursor := .ofLine (blankFrom hidden ⟨t.lineNumber, 0⟩ (w ++ t.cursor.rest))
    lineNumber := u.lineNumber + (blankLines hidden (s.lineNumber + 1) skipped).length + 1 }
  let start : Lexer := { t with cursor := .ofLine (w ++ t.cursor.rest) }
  have hstart : Blanks hidden start v :=
    ⟨hkeep, by simp only [v, start, length_blankLines, hline, line], rfl, rfl, rfl⟩
  have hskip : u.contents = v.contents := by
    rw [contents, ahead_skip false (by rw [hr]; exact hrest) hpending hskipped, map_content_ahead]
  obtain ⟨v', hv, hcontents⟩ := hstart.sameLine (t := t) rfl rfl
    (by rw [column]; exact (Nat.zero_add _).symm) rfl hw
  exact ⟨v', hv, hskip.trans hcontents⟩

/-- From some place on, the hidden places are those of the comments among the tokens. -/
def HidesComments (hidden : Position → Bool) (p : Position) (tokens : List Token) : Prop :=
  ∀ q, p ≤ q → hidden q = inComment tokens q

variable {token : Token} {more : List Token} {start : Position} {s t u : Lexer}

theorem HidesComments.tail (h : HidesComments hidden s.place (token :: more))
    (hp : s.Passes start token t) : HidesComments hidden t.place more := by
  intro q hq
  have hnot : token.span.covers q = false := by
    rw [Span.covers, Bool.and_eq_false_iff]
    right
    rw [decide_eq_false_iff_not, hp.stop, Position.le_def]
    rw [Position.le_def, place] at hq
    have := hp.pos
    simp only at hq ⊢
    omega
  rw [h q (Position.le_trans hp.reaches.place_le hq), inComment, inComment, List.any_cons, hnot,
    Bool.and_false, Bool.false_or]

theorem HidesComments.hidden_of_comment (h : HidesComments hidden s.place (token :: more))
    (hk : token.kind.isComment = true) {q : Position} (hplace : s.place ≤ q)
    (hstart : token.span.start ≤ q) (hstop : q ≤ token.span.stop) : hidden q = true := by
  rw [h q hplace, inComment, List.any_cons, hk, Span.covers, decide_eq_true hstart,
    decide_eq_true hstop]
  rfl

theorem HidesComments.not_hidden (h : HidesComments hidden s.place (token :: more))
    (hk : token.kind.isComment = false) (hmore : ∀ t' ∈ more, t.place ≤ t'.span.start)
    {q : Position} (hplace : s.place ≤ q) (hq : ¬ t.place ≤ q) : hidden q = false := by
  rw [h q hplace, inComment, List.any_cons, hk, Bool.false_and, Bool.false_or, List.any_eq_false]
  intro t' ht' hc
  rw [Bool.and_eq_true, Span.covers, Bool.and_eq_true, decide_eq_true_eq] at hc
  exact hq (Position.le_trans (hmore t' ht') hc.2.1)

theorem isBlank_getElem {cs : List Char} {i : Nat} (hi : i < cs.length)
    (h : i < (cs.takeWhile isBlank).length) : isBlank cs[i] = true := by
  rw [← (List.takeWhile_prefix isBlank).getElem h]
  exact List.mem_takeWhile_imp (List.getElem_mem h)

/-- A comment is passed over in the text, and blanks are in the blanked text. -/
theorem Blanks.comment (h : Blanks hidden s u)
    (hh : HidesComments hidden s.place (token :: more)) (hf : s.find = .token token t)
    (hk : token.kind.isComment = true) : ∃ v, Blanks hidden t v ∧ u.contents = v.contents := by
  have hp := find_passes hf
  have hstart := hp.start
  have hstop := hp.stop
  have hidden_of {line column : Nat} (hs : s.place ≤ ⟨line, column⟩)
      (hle : token.span.start ≤ ⟨line, column⟩) (ht : ¬ t.place ≤ ⟨line, column⟩) :
      hidden ⟨line, column⟩ = true := by
    refine hh.hidden_of_comment hk hs hle ?_
    rw [hstop, Position.le_def]
    rw [Position.le_def, place] at ht
    have := hp.pos
    simp only at ht ⊢
    omega
  have first_line {i : Nat} (hi : i < s.cursor.rest.length)
      (ht : ¬ t.place ≤ ⟨s.lineNumber, s.cursor.column + i⟩) :
      isBlank s.cursor.rest[i] = true ∨ hidden ⟨s.lineNumber, s.cursor.column + i⟩ = true := by
    by_cases hb : i < (s.cursor.rest.takeWhile isBlank).length
    · exact .inl (isBlank_getElem hi hb)
    · refine .inr (hidden_of (.inr ⟨rfl, Nat.le_add_right _ _⟩) ?_ ht)
      rw [hstart]
      exact .inr ⟨rfl, by simp only; omega⟩
  cases hp.reaches with
  | sameLine w rest line column pending =>
    refine h.sameLine rest line column pending (all_isBlank_blankFrom fun i hi ↦ ?_)
    have hlt : i < s.cursor.rest.length := by
      rw [rest, List.length_append]
      omega
    have hget : s.cursor.rest[i] = w[i] := by
      simp only [rest, List.getElem_append_left hi]
    rw [← hget]
    refine first_line hlt ?_
    rw [Position.le_def, place]
    simp only
    omega
  | laterLine skipped w pending line column =>
    refine h.laterLine pending line column (all_isBlank_blankFrom fun i hi ↦ first_line hi ?_)
      (fun l hl ↦ ?_) (all_isBlank_blankFrom fun i hi ↦ .inr (hidden_of ?_ ?_ ?_))
    case refine_2 =>
      obtain ⟨n, l', hn, hlt, -, rfl⟩ := mem_blankLines hl
      refine all_isBlank_blankFrom fun i hi ↦ .inr (hidden_of ?_ ?_ ?_)
      all_goals
        simp only [Position.le_def, place, hstart]
        omega
    all_goals
      simp only [Position.le_def, place, hstart]
      omega

theorem Blanks.lineEnd {s t u v : Lexer} (h : Blanks hidden s v) (hf : s.find = .lineEnd t)
    (ha : advanceLine false t = (true, u)) : ∃ w, Blanks hidden u w ∧ v.contents = w.contents := by
  obtain ⟨skipped, hblank, hpending, hline, hcolumn⟩ := pending_of_advanceLine hf ha
  refine h.laterLine (w := []) hpending hline hcolumn
    (all_isBlank_blankFrom_of_all (all_isBlank_of_lineEnd hf)) ?_ rfl
  intro l hl
  obtain ⟨n, l', -, -, hl', rfl⟩ := mem_blankLines hl
  exact all_isBlank_blankFrom_of_all (hblank l' hl')

theorem Blanks.next_token (h : Blanks hidden s u)
    (hh : HidesComments hidden s.place (token :: more)) (hf : s.find = .token token t)
    (hmore : ∀ t' ∈ more, t.place ≤ t'.span.start) (hk : token.kind.isComment = false) :
    ∃ v, Blanks hidden t v ∧ u.find = .token token v := by
  obtain ⟨hkeep, hline, hcolumn, hrest, hpending⟩ := h
  obtain ⟨blanks, x, w, post, hr, hb, hspelled⟩ := spelled_of_find hf hk
  obtain ⟨t', ht', hat, -⟩ := hspelled.find hr hb (.refl post)
  rw [hf] at ht'
  obtain ⟨htoken, rfl⟩ := Finding.token.inj ht'
  have hplace : (⟨s.place.line, s.place.column + (blanks ++ x :: w).length⟩ : Position) = t.place := by
    simp only [place, hat.line, hat.column, List.length_append, List.length_cons, Position.mk.injEq,
      true_and]
    omega
  have hself : blankFrom hidden s.place (blanks ++ x :: w) = blanks ++ x :: w := by
    refine blankFrom_eq_self fun i hi ↦ hh.not_hidden hk hmore (.inr ⟨rfl, Nat.le_add_right _ _⟩) ?_
    rw [← hplace, Position.le_def]
    simp only
    omega
  have hrest' : u.cursor.rest = blanks ++ x :: (w ++ blankFrom hidden t.place post) := by
    rw [hrest, hr, ← List.cons_append, ← List.append_assoc, blankFrom_append, hself, hplace,
      List.append_assoc, List.cons_append]
  have hcut : Cut post (blankFrom hidden t.place post) := by
    cases post with
    | nil => exact .refl []
    | cons y post =>
      rw [blankFrom]
      split
      · exact .inr (.inr rfl)
      · exact .inl rfl
  obtain ⟨v, hv, hatv, hsame⟩ := hspelled.find hrest' hb hcut
  refine ⟨v, ⟨hsame.keepComments.trans hkeep, ?_⟩, ?_⟩
  · rw [hat.rest, hat.line, hat.column, hat.pending, ← hpending, ← hline, ← hcolumn]
    exact hatv
  · rw [hv, htoken, hline, hcolumn]

/-- The tokens of the blanked text are those of the text itself that are no comments. -/
theorem Blanks.contents {later : Bool} {tokens : List Token} (hs : s.keepComments = true)
    (h : Blanks hidden s u) (hh : HidesComments hidden s.place tokens)
    (ht : (ahead later s).map (·.content) = tokens.map .ok) :
    u.contents = (withoutComments tokens).map .ok := by
  -- The induction follows the text itself. Where a comment is passed over there, the blanked text has blanks,
  -- and what is still to come of it stays the same.
  fun_induction ahead later s generalizing u tokens with
  | case1 later s t hf v ha ih =>
    have hv := (sameTokens_of_advanceLine ha).keepComments.trans (sameTokens_of_lineEnd hf).keepComments
    have hle := (reaches_of_advanceLine hf ha).place_le
    obtain ⟨w, hw, hcontents⟩ := h.lineEnd hf ha
    rw [hcontents]
    exact ih (hv.trans hs) hw (fun q hq ↦ hh q (Position.le_trans hle hq)) ht
  | case2 later s t hf v ha =>
    obtain rfl := List.map_eq_nil_iff.1 ht.symm
    have hrest : u.cursor.rest.all isBlank = true := by
      rw [h.at_place.rest]
      exact all_isBlank_blankFrom_of_all (all_isBlank_of_lineEnd hf)
    have hpending : u.pending.dropWhile (·.all isBlank) = [] := by
      rw [List.dropWhile_eq_nil_iff, h.at_place.pending]
      intro l hl
      obtain ⟨n, l', -, -, hl', rfl⟩ := mem_blankLines hl
      exact all_isBlank_blankFrom_of_all (pending_of_no_line hf ha l' hl')
    rw [Lexer.contents, ahead_of_blank false hrest, hpending]
    rfl
  | case3 later s e t hf =>
    cases tokens with
    | nil => cases ht
    | cons t' more => cases (List.cons.inj ht).1
  | case4 later s t hf =>
    rw [keepComments_of_comment hf] at hs
    cases hs
  | case5 later s token t hf ih =>
    cases tokens with
    | nil => cases ht
    | cons t' more =>
      obtain ⟨htoken, hmore⟩ := List.cons.inj ht
      cases htoken
      have hkeep := (sameTokens_of_find (.inr ⟨token, hf⟩)).keepComments.trans hs
      have hafter : ∀ t' ∈ more, t.place ≤ t'.span.start := by
        intro t' ht'
        obtain ⟨i, hi, hit⟩ := List.mem_map.1 (hmore ▸ List.mem_map_of_mem ht')
        exact place_le_of_mem_ahead hi hit
      have htail := hh.tail (find_passes hf)
      rw [withoutComments, List.filter_cons]
      cases hk : token.kind.isComment with
      | true =>
        obtain ⟨v, hv, hcontents⟩ := h.comment hh hf hk
        rw [hcontents]
        exact ih hkeep hv htail hmore
      | false =>
        obtain ⟨v, hv, hfound⟩ := h.next_token hh hf hafter hk
        rw [Lexer.contents, ahead_eq, hfound]
        exact congrArg (.ok token :: ·) (ih hkeep hv htail hmore)

end

end Lexer

/-- The blanked text has the same tokens at the same places, without the comments. -/
theorem readAll_blankComments {source : String} {tokens : Array Token}
    (h : (Lexer.ofSource source true).readAll = .ok tokens) :
    (Lexer.ofSource (blankComments source) true).readAll =
      .ok (withoutComments tokens.toList).toArray := by
  have hblanks : Lexer.Blanks (inComment tokens.toList) (.ofSource source true)
      (.ofSource (blankComments source) true) := by
    refine ⟨rfl, rfl, rfl, rfl, ?_⟩
    simp only [Lexer.ofSource, Lexer.ofText, blankComments] at h ⊢
    simp only [h, String.toList_ofList, lines_blankText]
  have hall : ((Lexer.ofSource source true).ahead false).map (·.content) = tokens.toList.map .ok :=
    Lexer.readAll_eq_ok.1 h
  exact Lexer.readAll_eq_ok.2 (hblanks.contents rfl (fun _ _ ↦ rfl) hall)

/-- In the blanked text every end of a line between two tokens is seen. -/
theorem upcoming_blankComments {source : String} {tokens : Array Token}
    (h : (Lexer.ofSource source true).readAll = .ok tokens) :
    (Lexer.ofSource (blankComments source) false).upcoming =
      marked (lineBreaks 0 (withoutComments tokens.toList)) (withoutComments tokens.toList) := by
  have hu := Lexer.upcoming_of_readAll (readAll_blankComments h)
  rw [openBreaks_withoutComments, withoutComments_withoutComments] at hu
  exact hu

end Linewise
