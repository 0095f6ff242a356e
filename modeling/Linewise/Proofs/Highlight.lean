import Mathlib.Data.List.DropRight
import Mathlib.Data.List.Infix
import Linewise.Proofs.Bookmark
import Linewise.Proofs.ErrorPlaces
import Linewise.Proofs.Interleaving

namespace Linewise

open Text

namespace Text

variable {a b t line text piece : List Char}

theorem byteLength_lt_of_isPrefix (h : a <+: b) (hlt : a.length < b.length) : byteLength a < byteLength b := by
  obtain ⟨u, rfl⟩ := h
  cases u with
  | nil => simp at hlt
  | cons c u =>
    rw [byteLength_append, byteLength]
    have := c.utf8Size_pos
    omega

theorem isPrefix_trimTerminators (line : List Char) : trimTerminators line <+: line :=
  List.rdropWhile_prefix _ _

theorem trimTerminators_append_terminators (ht : ∀ c ∈ t, isTerminator c = true) :
    trimTerminators (a ++ t) = trimTerminators a := by
  rw [trimTerminators, List.reverse_append, List.dropWhile_append_of_pos fun c hc ↦ ht c (List.mem_reverse.1 hc),
    trimTerminators]

theorem trimTerminators_dropTerminator (h : piece ∈ pieces text) :
    trimTerminators piece = trimTerminators (dropTerminator piece) := by
  obtain ⟨a, ha, rfl | rfl⟩ := exists_of_mem_pieces h
  · rw [dropTerminator_of_no_newline ha]
  rw [trimTerminators_append_terminators (by simp [isTerminator]), dropTerminator_append_newline]
  split
  · next hreturn =>
    obtain ⟨body, rfl⟩ := List.getLast?_eq_some_iff.1 hreturn
    rw [List.dropLast_concat, trimTerminators_append_terminators (by simp [isTerminator])]
  · rfl

end Text

namespace Position

variable {source piece : List Char} {n column : Nat}

theorem lineOf_eq (hp : (pieces source)[n]? = some piece) :
    (Position.mk (n + 1) column).lineOf source = some (trimTerminators piece) := by
  rw [lineOf, if_neg (Nat.succ_ne_zero n), Nat.add_sub_cancel, hp, Option.map_some]

theorem byteStart_eq (hp : (pieces source)[n]? = some piece) :
    (Position.mk (n + 1) column).byteStart source =
      byteLength (((pieces source).take n).flatten ++ (trimTerminators piece).take column) := by
  simp only [byteStart, textBefore, lineOf_eq hp, Nat.add_sub_cancel]

/-- The byte after a place is the one in front of the next place, also past the end of the line. -/
theorem byteStop_eq (hp : (pieces source)[n]? = some piece) :
    (Position.mk (n + 1) column).byteStop source =
      byteLength (((pieces source).take n).flatten ++ (trimTerminators piece).take (column + 1)) := by
  rw [byteStop, byteStart_eq hp, charAt, lineOf_eq hp, List.take_add_one]
  simp only [Option.bind_eq_bind, Option.bind_some, byteLength_append]
  cases (trimTerminators piece)[column]? <;> simp [byteLength, Nat.add_assoc]

end Position

namespace Span

variable {source line piece : List Char} {s : Span} {n : Nat}

def columnsOf (s : Span) (line : List Char) : List Char :=
  (line.take (s.stop.column + 1)).drop s.start.column

/-- The bytes of columns of a line are the characters in them that are left after trimming. -/
theorem holds_toBytes (hp : (pieces source)[n]? = some piece) (hstart : s.start.line = n + 1)
    (hstop : s.stop.line = n + 1) (hordered : s.start.column ≤ s.stop.column) :
    (s.toBytes source).Holds source (s.columnsOf (trimTerminators piece)) := by
  obtain ⟨⟨startLine, i⟩, ⟨stopLine, j⟩⟩ := s
  obtain rfl : startLine = n + 1 := hstart
  obtain rfl : stopLine = n + 1 := hstop
  obtain ⟨t, ht⟩ := isPrefix_trimTerminators piece
  generalize hcut : trimTerminators piece = cut at ht
  have htake : cut.take (j + 1) = cut.take i ++ (cut.take (j + 1)).drop i := by
    conv => lhs; rw [← List.take_append_drop i (cut.take (j + 1))]
    rw [List.take_take, Nat.min_eq_left (Nat.le_succ_of_le hordered)]
  refine ⟨((pieces source).take n).flatten ++ cut.take i,
    cut.drop (j + 1) ++ t ++ ((pieces source).drop (n + 1)).flatten, ?_, ?_, ?_⟩
  · conv => lhs; rw [eq_flatten_of_getElem?_pieces hp, ← ht, ← List.take_append_drop (j + 1) cut, htake]
    simp only [columnsOf, List.append_assoc]
  · simp only [toBytes, Position.byteStart_eq hp, hcut]
  · have hlength := congrArg byteLength htake
    rw [byteLength_append] at hlength
    simp only [toBytes, columnsOf, Position.byteStart_eq hp, Position.byteStop_eq hp, hcut, byteLength_append]
    omega

/-- The characters in the columns are all there if and only if the last one is left after trimming. -/
theorem holds_columnsOf_iff {text : List Char} {r : ByteRange} {cut : List Char} (hcut : cut <+: line)
    (h : r.Holds text (s.columnsOf cut)) (hordered : s.start.column ≤ s.stop.column)
    (hstop : s.stop.column < line.length) : r.Holds text (s.columnsOf line) ↔ s.stop.column < cut.length := by
  constructor
  · rintro ⟨_, _, -, -, hline⟩
    obtain ⟨_, _, -, -, htrim⟩ := h
    by_contra hle
    have hlt := byteLength_lt_of_isPrefix ((hcut.take (s.stop.column + 1)).drop s.start.column) ?_
    · exact absurd (htrim.symm.trans hline) (Nat.ne_of_lt hlt)
    · simp only [List.length_drop, List.length_take]
      omega
  · intro hlt
    obtain ⟨u, rfl⟩ := hcut
    rwa [columnsOf, List.take_append_of_le_length hlt]

theorem LiesIn.exists_line {ls : List (List Char)} (h : s.LiesIn ls) (hone : s.isMultiLine = false) :
    ∃ n line, s.start.line = n + 1 ∧ s.stop.line = n + 1 ∧ ls[n]? = some line ∧
      s.start.column ≤ s.stop.column ∧ s.stop.column < line.length := by
  obtain ⟨⟨startLine, i⟩, ⟨stopLine, j⟩⟩ := s
  obtain rfl : startLine = stopLine := by simpa [isMultiLine] using hone
  obtain ⟨c, hc⟩ := Option.isSome_iff_exists.1 h.stop
  obtain ⟨line, hline, hcolumn⟩ := Option.bind_eq_some_iff.1 hc
  cases startLine with
  | zero =>
    obtain rfl : line = [] := (Option.some.inj hline).symm
    cases hcolumn
  | succ n =>
    refine ⟨n, line, rfl, rfl, hline, ?_, (List.getElem?_eq_some_iff.1 hcolumn).1⟩
    rcases h.ordered with hlt | ⟨-, hle⟩
    · exact absurd hlt (Nat.lt_irrefl _)
    · exact hle

end Span

namespace Lexer

variable {s t : Lexer} {e : LexicalError} {i : Upcoming}

theorem isMultiLine_onLine (line first last : Nat) : (Span.onLine line first last).isMultiLine = false := by
  simp [Span.isMultiLine, Span.onLine]

theorem isMultiLine_of_lexeme {x : Char} (h : lexeme x s = .error e t) : e.span.isMultiLine = false := by
  rw [(read_of_lexeme_error h).2.2]
  exact isMultiLine_onLine _ _ _

/-- An open comment is reported at its opening, however many lines it was looked through. -/
theorem isMultiLine_of_blockComment {start : Nat} (h : blockComment start s = .error e t) :
    e.span.isMultiLine = false := by
  obtain ⟨-, -, rfl, -⟩ := eq_of_blockComment_error h
  exact isMultiLine_onLine _ _ _

theorem isMultiLine_of_failure (h : s.find = .failure e t) : e.span.isMultiLine = false := by
  obtain ⟨x, c, -, hs⟩ := scan_of_failure h
  unfold scan at hs
  split at hs
  · split at hs
    · exact isMultiLine_of_blockComment hs
    · exact isMultiLine_of_lexeme hs
  · exact isMultiLine_of_lexeme hs

theorem isMultiLine_of_mem_ahead {later : Bool} (hi : i ∈ ahead later s) (he : i.content = .error e) :
    e.span.isMultiLine = false := by
  fun_induction ahead later s with
  | case1 later s t hf u ha ih => exact ih hi
  | case2 => cases hi
  | case3 later s e' t hf =>
    obtain rfl := List.mem_singleton.1 hi
    cases he
    exact isMultiLine_of_failure hf
  | case4 later s t hf ih => exact ih hi
  | case5 later s token t hf ih =>
    rcases List.mem_cons.1 hi with rfl | hi
    · cases he
    · exact ih hi

end Lexer

theorem exists_of_tokenize_error {source : String} {e : LexicalError} (h : tokenize source = .error e) :
    ∃ i ∈ (Lexer.ofSource source false).upcoming, i.content = .error e := by
  obtain ⟨tokens, found, hcontents⟩ := Lexer.exists_contents (.ofSource source false)
  cases found with
  | none =>
    have hok := tokenize_eq_ok.2 (hcontents.trans (List.append_nil _))
    rw [h] at hok
    cases hok
  | some e' =>
    have herror : tokenize source = .error e' := Lexer.readAll_eq_error hcontents
    obtain rfl := Except.error.inj (h.symm.trans herror)
    have hmem : Except.error e ∈ (Lexer.ofSource source false).upcoming.map (·.content) := by
      rw [hcontents]
      simp
    exact List.mem_map.1 hmem

theorem exists_of_mem_stream {source : String} {keepComments : Bool} {token : Token}
    (h : token ∈ (Lexer.ofSource source keepComments).stream.1) :
    ∃ i ∈ (Lexer.ofSource source keepComments).upcoming, i.content = .ok token := by
  obtain ⟨tokens, found, hcontents⟩ := Lexer.exists_contents (.ofSource source keepComments)
  rw [Lexer.stream_eq hcontents] at h
  have hmem : Except.ok token ∈ (Lexer.ofSource source keepComments).upcoming.map (·.content) := by
    rw [hcontents]
    simpa [Lexer.ofSource, Lexer.ofText] using h
  exact List.mem_map.1 hmem

/-- What a comment on one line or a lexical error is shown by: the characters of its columns, less the
carriage returns at the end of the line. They are all the characters of its columns if and only if the last
of them is no such carriage return. -/
theorem highlighted_text {source : String} {span : Span}
    (h : (∃ token ∈ (Lexer.ofSource source true).stream.1, token.kind.isComment = true ∧
        token.span.isMultiLine = false ∧ token.span = span) ∨
      ∃ e, tokenize source = .error e ∧ e.span = span) :
    ∃ line, (lines source.toList)[span.start.line - 1]? = some line ∧ span.stop.line = span.start.line ∧
      span.start.column ≤ span.stop.column ∧ span.stop.column < line.length ∧
      (span.toBytes source.toList).Holds source.toList (span.columnsOf (trimTerminators line)) ∧
      ((span.toBytes source.toList).Holds source.toList (span.columnsOf line) ↔
        span.stop.column < (trimTerminators line).length) := by
  have hlies : span.LiesIn (lines source.toList) ∧ span.isMultiLine = false := by
    rcases h with ⟨token, hmem, -, hone, rfl⟩ | ⟨e, he, rfl⟩
    · obtain ⟨i, hi, hcontent⟩ := exists_of_mem_stream hmem
      have hlies := Upcoming.lieIn_ofText source.toList true i hi
      rw [Upcoming.LiesIn, hcontent] at hlies
      exact ⟨hlies, hone⟩
    · obtain ⟨i, hi, hcontent⟩ := exists_of_tokenize_error he
      have hlies := Upcoming.lieIn_ofText source.toList false i hi
      rw [Upcoming.LiesIn, hcontent] at hlies
      rw [Lexer.upcoming_of_not_held rfl] at hi
      exact ⟨hlies, Lexer.isMultiLine_of_mem_ahead hi hcontent⟩
  obtain ⟨n, line, hstart, hstop, hline, hordered, hlast⟩ := hlies.1.exists_line hlies.2
  have hpiece := hline
  rw [lines, List.getElem?_map, Option.map_eq_some_iff] at hpiece
  obtain ⟨piece, hpiece, rfl⟩ := hpiece
  have hholds := Span.holds_toBytes hpiece hstart hstop hordered
  rw [trimTerminators_dropTerminator (List.mem_of_getElem? hpiece)] at hholds
  refine ⟨_, ?_, hstop.trans hstart.symm, hordered, hlast, hholds,
    Span.holds_columnsOf_iff (isPrefix_trimTerminators _) hholds hordered hlast⟩
  rw [hstart]
  exact hline

/-- The pair of a backslash and a carriage return that ends the text is shown by the backslash alone. -/
example : (tokenize "\"\\\r").mapError (fun e ↦ (e.span, e.span.toBytes "\"\\\r".toList)) =
    .error (.onLine 1 1 2, ⟨1, 1⟩) := by
  decide +kernel

end Linewise
