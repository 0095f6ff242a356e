import Linewise.Proofs.Joining
import Linewise.Proofs.Lines
import Linewise.Proofs.Spelling
import Linewise.Span.Bytes

namespace Linewise

open Text

namespace Text

variable {a b l text piece : List Char}

theorem exists_of_mem_pieces (h : piece ∈ pieces text) :
    ∃ a, '\n' ∉ a ∧ (piece = a ∨ piece = a ++ ['\n']) := by
  induction text generalizing piece with
  | nil => cases h
  | cons c text ih =>
    rw [pieces_cons, addInFront.eq_def] at h
    by_cases hc : c = '\n'
    · subst hc
      rw [if_pos rfl] at h
      rcases List.mem_cons.1 h with rfl | h
      · exact ⟨[], List.not_mem_nil, .inr rfl⟩
      · exact ih h
    rw [if_neg hc] at h
    cases hp : pieces text with
    | nil =>
      rw [hp] at h
      obtain rfl := List.mem_singleton.1 h
      exact ⟨[c], by simpa using Ne.symm hc, .inl rfl⟩
    | cons first more =>
      rw [hp] at h
      rcases List.mem_cons.1 h with rfl | h
      · obtain ⟨a, ha, hfirst⟩ := ih (by rw [hp]; exact List.mem_cons_self)
        refine ⟨c :: a, ?_, hfirst.imp (congrArg _) (congrArg _)⟩
        exact fun hmem ↦ (List.mem_cons.1 hmem).elim (Ne.symm hc) ha
      · exact ih (by rw [hp]; exact List.mem_cons_of_mem _ h)

theorem dropTerminator_append_of_mem (h : piece ∈ pieces text) :
    '\n' ∉ dropTerminator piece ∧ ∃ t, piece = dropTerminator piece ++ t := by
  obtain ⟨a, ha, rfl | rfl⟩ := exists_of_mem_pieces h
  · rw [dropTerminator_of_no_newline ha]
    exact ⟨ha, [], (List.append_nil _).symm⟩
  · rw [dropTerminator_append_newline]
    split
    · next hr =>
      obtain ⟨body, rfl⟩ := List.getLast?_eq_some_iff.1 hr
      rw [List.dropLast_concat]
      exact ⟨fun hb ↦ ha (List.mem_append_left _ hb), ['\r', '\n'], List.append_assoc _ _ _⟩
    · exact ⟨ha, ['\n'], rfl⟩

theorem trimTerminators_append {y : Char} (hy : isTerminator y = false) :
    trimTerminators (a ++ y :: b) = a ++ y :: trimTerminators b := by
  have hhead : ∀ x ∈ (y :: a.reverse).head?, isTerminator x = false := by
    intro x hx
    cases hx
    exact hy
  have hreverse : (a ++ y :: b).reverse = b.reverse ++ y :: a.reverse := by simp
  rw [trimTerminators, hreverse, dropWhile_append hhead]
  simp [trimTerminators]

theorem eq_flatten_of_getElem?_pieces {text piece : List Char} {n : Nat} (h : (pieces text)[n]? = some piece) :
    text = ((pieces text).take n).flatten ++ (piece ++ ((pieces text).drop (n + 1)).flatten) := by
  obtain ⟨hlt, rfl⟩ := List.getElem?_eq_some_iff.1 h
  rw [← List.flatten_cons, ← List.drop_eq_getElem_cons hlt, ← List.flatten_append, List.take_append_drop,
    pieces_flatten]

theorem newline_not_mem_line {text line : List Char} (h : line ∈ lines text) : '\n' ∉ line := by
  obtain ⟨piece, hpiece, rfl⟩ := List.mem_map.1 h
  exact (dropTerminator_append_of_mem hpiece).1

end Text

def ByteRange.Holds (r : ByteRange) (text w : List Char) : Prop :=
  ∃ before after, text = before ++ w ++ after ∧ r.offset = byteLength before ∧ r.length = byteLength w

/-- The token consists of the characters `w`, with `before` and `after` around them on their line. -/
structure Token.Occurs (source : List Char) (token : Token) (before w after : List Char) : Prop where
  number : 0 < token.span.start.line
  sameLine : token.span.stop.line = token.span.start.line
  line : (lines source)[token.span.start.line - 1]? = some (before ++ w ++ after)
  start : token.span.start.column = before.length
  stop : token.span.stop.column + 1 = before.length + w.length

/-- The bytes of the columns of one line, which is found between its terminator and the lines before it. -/
theorem toBytes_onLine {source before v after t : List Char} {y : Char} {n : Nat}
    (hp : (pieces source)[n]? = some (before ++ v ++ y :: (after ++ t))) (hy : isTerminator y = false) :
    (Span.onLine (n + 1) before.length (before.length + v.length)).toBytes source =
      ⟨byteLength (((pieces source).take n).flatten ++ before), byteLength (v ++ [y])⟩ := by
  have hline (column : Nat) : (Position.mk (n + 1) column).lineOf source =
      some (before ++ v ++ y :: trimTerminators (after ++ t)) := by
    rw [Position.lineOf, if_neg (Nat.succ_ne_zero n), Nat.add_sub_cancel, hp, Option.map_some,
      trimTerminators_append hy]
  have hstart : (Position.mk (n + 1) before.length).byteStart source =
      byteLength (((pieces source).take n).flatten ++ before) := by
    simp only [Position.byteStart, Position.textBefore, hline, List.append_assoc, List.take_left,
      Nat.add_sub_cancel]
  have hstop : (Position.mk (n + 1) (before.length + v.length)).byteStop source =
      byteLength (((pieces source).take n).flatten ++ before) + byteLength (v ++ [y]) := by
    have hchar : (before ++ v ++ y :: trimTerminators (after ++ t))[before.length + v.length]? = some y := by
      rw [← List.length_append, List.getElem?_append_right (Nat.le_refl _), Nat.sub_self,
        List.getElem?_cons_zero]
    have htake : (before ++ v ++ y :: trimTerminators (after ++ t)).take (before.length + v.length) =
        before ++ v := by
      rw [← List.length_append, List.take_left]
    simp only [Position.byteStop, Position.charAt, Position.byteStart, Position.textBefore, hline, htake,
      Nat.add_sub_cancel, Option.bind_eq_bind, Option.bind_some, hchar, Option.map_some, Option.getD_some,
      byteLength_append, byteLength]
    omega
  simp only [Span.toBytes, Span.onLine, hstart, hstop]
  congr 1
  omega

/-- The columns of a span on one line and its bytes are the same characters. -/
theorem Token.Occurs.holds {source before w after : List Char} {token : Token}
    (h : token.Occurs source before w after) {v : List Char} {y : Char} (hw : w = v ++ [y])
    (hy : y ≠ '\r') : (token.span.toBytes source).Holds source w := by
  subst hw
  obtain ⟨n, hn⟩ := Nat.exists_eq_add_of_lt h.number
  rw [Nat.zero_add] at hn
  have hline := h.line
  rw [hn, Nat.add_sub_cancel, lines, List.getElem?_map, Option.map_eq_some_iff] at hline
  obtain ⟨piece, hpiece, hdrop⟩ := hline
  obtain ⟨hnewline, t, ht⟩ := dropTerminator_append_of_mem (List.mem_of_getElem? hpiece)
  rw [hdrop] at hnewline ht
  have hend : isTerminator y = false := by
    have : y ≠ '\n' := by
      rintro rfl
      exact hnewline (by simp)
    simp [isTerminator, this, hy]
  obtain rfl : piece = before ++ v ++ y :: (after ++ t) := by simp [ht]
  have hspan : token.span = .onLine (n + 1) before.length (before.length + v.length) := by
    have hstop := h.stop
    have hsame := h.sameLine
    have hstart := h.start
    rw [List.length_append, List.length_singleton, ← Nat.add_assoc, Nat.add_right_cancel_iff] at hstop
    rw [hn] at hsame
    obtain ⟨kind, ⟨⟨number, start⟩, ⟨number', stop⟩⟩⟩ := token
    simp only at hn hsame hstart hstop
    rw [hn, hsame, hstart, hstop]
    rfl
  refine ⟨((pieces source).take n).flatten ++ before, after ++ t ++ ((pieces source).drop (n + 1)).flatten,
    ?_, ?_, ?_⟩
  · conv => lhs; rw [eq_flatten_of_getElem?_pieces hpiece]
    simp only [List.append_assoc, List.cons_append, List.nil_append]
  · rw [hspan, toBytes_onLine hpiece hend]
  · rw [hspan, toBytes_onLine hpiece hend]

namespace Lexer

variable {s t : Lexer} {x : Char} {token : Token}

structure Takes (s : Lexer) (x : Char) (w post : List Char) (token : Token) : Prop where
  rest : s.cursor.rest = w ++ post
  last : '\r' ∉ w.getLast?
  right : ReadsRight token.kind (x :: w) post
  span : token.span = .onLine s.lineNumber (s.cursor.column - 1) (s.cursor.column - 1 + w.length)

theorem takes_of_lexeme (h : lexeme x s = .ok token t) (hk : token.kind.isComment = false)
    (hc : 0 < s.cursor.column) : ∃ w post, s.Takes x w post token := by
  obtain ⟨hok, hcursor, -⟩ := read_of_lexeme h
  obtain ⟨w, post, hw, hlast, hfinds⟩ := finds_of_lexeme h hk
  obtain ⟨t', ht, hat, -⟩ := hfinds s post hw (.refl post) hc
  obtain ⟨w', hw', hright⟩ := Lexeme.read_right hok (ne_hash_of_lexeme h hk)
  rw [h] at ht
  obtain ⟨htoken, rfl⟩ := EStateM.Result.ok.inj ht
  rw [show (Lexeme.read x s.cursor).cursor = t.cursor by rw [hcursor], hat.rest] at hw' hright
  obtain rfl : w' = w := List.append_cancel_right (hw'.symm.trans hw)
  exact ⟨w', post, hw, hlast, hright, by rw [htoken]⟩

theorem takes_of_scan (h : scan x s = .ok token t) (hk : token.kind.isComment = false)
    (hc : 0 < s.cursor.column) : ∃ w post, s.Takes x w post token := by
  obtain ⟨c, hscan, hcr, hcc⟩ := scan_of_ne_star (ne_star_of_scan h hk)
  rw [hscan] at h
  obtain ⟨w, post, hrest, hlast, hright, hspan⟩ := takes_of_lexeme h hk (by simpa only [hcc] using hc)
  simp only [hcc] at hspan
  exact ⟨w, post, hcr.symm.trans hrest, hlast, hright, hspan⟩

theorem takes_of_find (h : s.find = .token token t) (hk : token.kind.isComment = false) :
    ∃ blanks x w post, s.cursor.rest = blanks ++ x :: w ++ post ∧ '\r' ∉ (x :: w).getLast? ∧
      ReadsRight token.kind (x :: w) post ∧ token.span = .onLine s.lineNumber
        (s.cursor.column + blanks.length) (s.cursor.column + blanks.length + w.length) := by
  obtain ⟨x, c, hc, hs⟩ := scan_of_find_token h
  obtain ⟨hdrop, hcolumn⟩ := dropWhile_of_nextChar? hc
  obtain ⟨w, post, hrest, hlast, hright, hspan⟩ := takes_of_scan hs hk (by simp only [hcolumn]; omega)
  simp only [hcolumn, Nat.add_sub_cancel] at hspan
  refine ⟨s.cursor.rest.takeWhile isBlank, x, w, post, ?_, ?_, hright, hspan⟩
  · rw [List.append_assoc, List.cons_append, ← hrest, ← hdrop, List.takeWhile_append_dropWhile]
  · have hx : x ≠ '\r' := by
      rintro rfl
      cases isBlank_of_nextChar? hc
    rw [List.getLast?_cons]
    cases hw : w.getLast? with
    | none => simpa using hx
    | some y => simpa [hw] using hlast

def Inside (ls : List (List Char)) (s : Lexer) : Prop :=
  ∃ front w, [] :: ls = front ++ (w ++ s.cursor.rest) :: s.pending ∧ s.lineNumber = front.length ∧
    s.cursor.column = w.length

theorem inside_ofText (source : List Char) (keepComments : Bool) :
    Inside (lines source) (ofText source keepComments) := ⟨[], [], rfl, rfl, rfl⟩

theorem Inside.of_reaches {ls : List (List Char)} (h : Inside ls s) (hr : s.Reaches t) : Inside ls t := by
  obtain ⟨front, w, hls, hnumber, hcolumn⟩ := h
  cases hr with
  | sameLine v rest line column pending =>
    refine ⟨front, w ++ v, ?_, line.trans hnumber, ?_⟩
    · rw [hls, rest, pending, List.append_assoc]
    · rw [column, hcolumn, List.length_append]
  | laterLine skipped v pending line column =>
    refine ⟨front ++ (w ++ s.cursor.rest) :: skipped, v, ?_, ?_, column⟩
    · rw [hls, pending, List.append_assoc, List.cons_append]
    · rw [line, hnumber, List.length_append, List.length_cons, Nat.add_assoc]

/-- What lies ahead after a token is what lies ahead of the state in which it was found. -/
theorem Inside.exists_find {ls : List (List Char)} (h : Inside ls s) {later flag : Bool} {xs ys : List Upcoming}
    (hs : ahead later s = xs ++ ⟨flag, .ok token⟩ :: ys) : ∃ u v, Inside ls u ∧
      u.keepComments = s.keepComments ∧ u.find = .token token v ∧ ahead false v = ys := by
  fun_induction ahead later s generalizing xs with
  | case1 later s t hf u ha ih =>
    obtain ⟨v, w, hv, hkeep, hw⟩ := ih (h.of_reaches (reaches_of_advanceLine hf ha)) hs
    refine ⟨v, w, hv, ?_, hw⟩
    rw [hkeep, (sameTokens_of_advanceLine ha).keepComments, (sameTokens_of_lineEnd hf).keepComments]
  | case2 => simp at hs
  | case3 later s e t hf =>
    cases xs with
    | nil => cases hs
    | cons x xs => simp at hs
  | case4 later s t hf ih =>
    obtain ⟨v, w, hv, hkeep, hw⟩ := ih (h.of_reaches (reaches_of_comment hf)) hs
    exact ⟨v, w, hv, hkeep.trans (sameTokens_of_find (.inl hf)).keepComments, hw⟩
  | case5 later s token' t hf ih =>
    cases xs with
    | nil =>
      cases hs
      exact ⟨s, t, h, rfl, hf, rfl⟩
    | cons x xs =>
      obtain ⟨v, w, hv, hkeep, hw⟩ := ih (h.of_reaches (find_passes hf).reaches) (List.cons.inj hs).2
      exact ⟨v, w, hv, hkeep.trans (sameTokens_of_find (.inr ⟨token', hf⟩)).keepComments, hw⟩

/-- Every token that lies ahead is found from a place in the text. -/
theorem Inside.find_of_mem_ahead {ls : List (List Char)} {later : Bool} {i : Upcoming} (h : Inside ls s)
    (hi : i ∈ ahead later s) (ht : i.content = .ok token) :
    ∃ u v, Inside ls u ∧ u.keepComments = s.keepComments ∧ u.find = .token token v := by
  obtain ⟨xs, ys, hs⟩ := List.append_of_mem hi
  obtain ⟨flag, content⟩ := i
  obtain rfl : content = .ok token := ht
  obtain ⟨u, v, hu, hkeep, hf, -⟩ := h.exists_find hs
  exact ⟨u, v, hu, hkeep, hf⟩

theorem Inside.exists_before {ls : List (List Char)} (h : Inside ls s) (hrest : s.cursor.rest ≠ []) :
    0 < s.lineNumber ∧ ∃ before, before.length = s.cursor.column ∧
      ls[s.lineNumber - 1]? = some (before ++ s.cursor.rest) := by
  obtain ⟨front, w, hls, hline, hcolumn⟩ := h
  -- the empty line in front of the first one has no characters to be found
  cases front with
  | nil => exact absurd (List.append_eq_nil_iff.1 (List.cons.inj hls).1.symm).2 hrest
  | cons first front =>
    have hlines : ls = front ++ (w ++ s.cursor.rest) :: s.pending := (List.cons.inj hls).2
    rw [hline, hlines, List.length_cons, Nat.add_sub_cancel, List.getElem?_append_right (Nat.le_refl _),
      Nat.sub_self, List.getElem?_cons_zero]
    exact ⟨Nat.succ_pos _, w, hcolumn.symm, rfl⟩

/-- A token that is found on a line of the text consists of characters of that line. -/
theorem Inside.occurs {source : List Char} (h : Inside (lines source) s) (hf : s.find = .token token t)
    (hk : token.kind.isComment = false) : ∃ before v y after, y ≠ '\r' ∧
      token.Occurs source before (v ++ [y]) after ∧ ReadsRight token.kind (v ++ [y]) after := by
  obtain ⟨blanks, x, w, post, hrest, hlast, hright, hspan⟩ := takes_of_find hf hk
  obtain ⟨hpos, before, hbefore, hline⟩ := h.exists_before (by rw [hrest]; simp)
  have hlen : (x :: w).length = w.length + 1 := rfl
  obtain ⟨v, y, hw⟩ : ∃ v y, x :: w = v ++ [y] := by
    rcases List.eq_nil_or_concat (x :: w) with hnil | ⟨v, y, hw⟩
    · cases hnil
    · exact ⟨v, y, hw.trans List.concat_eq_append⟩
  rw [hw] at hrest hlast hright hlen
  have hy : y ≠ '\r' := by
    rw [List.getLast?_concat] at hlast
    simpa using hlast
  have hnumber : token.span.start.line = s.lineNumber := by
    rw [hspan]
    rfl
  refine ⟨before ++ blanks, v, y, post, hy, ⟨?_, ?_, ?_, ?_, ?_⟩, hright⟩
  · rw [hnumber]
    exact hpos
  · rw [hspan]
    rfl
  · rw [hnumber, hline, hrest]
    simp only [List.append_assoc]
  · rw [hspan, List.length_append, hbefore]
    rfl
  · rw [hspan, List.length_append, hbefore, hlen]
    rfl

end Lexer

/-- The text of every token: its bytes are the characters of its columns, they are spelled like its kind
alone, and no longer token can be read in their place. -/
theorem token_text {source : String} {tokens : Array Token} (h : tokenize source = .ok tokens)
    {token : Token} (ht : token ∈ tokens) : ∃ before w after,
      token.Occurs source.toList before w after ∧ (token.span.toBytes source.toList).Holds source.toList w ∧
        (∀ kind, Spelling w kind ↔ kind = token.kind) ∧ Longest token.kind w after := by
  have hcontents := tokenize_eq_ok.1 h
  rw [Lexer.upcoming_of_not_held rfl] at hcontents
  have hmem : Except.ok token ∈ tokens.toList.map (Except.ok : Token → Except LexicalError Token) :=
    List.mem_map_of_mem (Array.mem_toList_iff.2 ht)
  rw [← hcontents] at hmem
  obtain ⟨i, hi, hcontent⟩ := List.mem_map.1 hmem
  obtain ⟨s, t, hinside, hkeep, hfind⟩ :=
    (Lexer.inside_ofText source.toList false).find_of_mem_ahead hi hcontent
  obtain ⟨before, v, y, after, hy, hoccurs, hright⟩ :=
    hinside.occurs hfind (Lexer.isComment_of_find hfind hkeep)
  refine ⟨before, v ++ [y], after, hoccurs, hoccurs.holds rfl hy, fun kind ↦ ⟨fun hs ↦ ?_, ?_⟩,
    hright.longest⟩
  · exact hs.unique hright.spelling
  · rintro rfl
    exact hright.spelling

theorem token_text_compound : ∃ (source : String) (tokens : Array Token) (token : Token),
    source = "é = 1.5\r\n\tß **='\\t' # ü\r\n" ∧ tokenize source = .ok tokens ∧ token ∈ tokens ∧
      token.kind = .compoundAssignment .exponent ∧ token.span.toBytes source.toList = ⟨14, 3⟩ ∧
      ∃ before w after, token.Occurs source.toList before w after ∧
        (token.span.toBytes source.toList).Holds source.toList w ∧
        (∀ kind, Spelling w kind ↔ kind = token.kind) ∧ Longest token.kind w after := by
  have htokens : (tokenize "é = 1.5\r\n\tß **='\\t' # ü\r\n").toOption.bind (·[4]?) =
      some ⟨.compoundAssignment .exponent, .onLine 2 3 5⟩ := by decide +kernel
  cases h : tokenize "é = 1.5\r\n\tß **='\\t' # ü\r\n" with
  | error e =>
    rw [h] at htokens
    cases htokens
  | ok tokens =>
    rw [h] at htokens
    have hmem := Array.mem_of_getElem? htokens
    exact ⟨_, tokens, _, rfl, h, hmem, rfl, by decide +kernel, token_text h hmem⟩

end Linewise
