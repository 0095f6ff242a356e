import Linewise.Proofs.Stepwise.Tokens
import Linewise.Proofs.WellFormed

namespace Linewise

open Text

namespace Lexer

variable {source : String} {keepComments : Bool} {ls : List (List Char)} {s t : Lexer} {p : Position}
  {x : Char} {w post : List Char} {kind : TokenKind} {cause : LexicalCause}

/-- The states that any calls lead to, also calls that fail, and those in which a line end or a comment was
passed over on the way to a token. -/
inductive Visits (source : String) (keepComments : Bool) : Lexer → Prop
  | new : Visits source keepComments (.ofSource source keepComments)
  | reply {s : Lexer} (visits : Visits source keepComments s) (call : Call) :
      Visits source keepComments (s.reply call).2
  | again {acrossLines : Bool} {s t : Lexer} (visits : Visits source keepComments s)
      (passed : s.attempt acrossLines = .again t) : Visits source keepComments t

theorem Visits.wellFormed (h : Visits source keepComments s) : WellFormed (lines source.toList) s := by
  induction h with
  | new => exact .ofText source.toList keepComments
  | reply _ call ih => exact ih.reply call
  | again _ passed ih => exact (WellFormed.persistent _).again ih passed

structure StandsAt (ls : List (List Char)) (p : Position) (s : Lexer) : Prop where
  inside : Inside ls s
  place : s.place = p

namespace StandsAt

theorem lineNumber (h : StandsAt ls p s) : s.lineNumber = p.line := congrArg Position.line h.place

theorem column (h : StandsAt ls p s) : s.cursor.column = p.column := congrArg Position.column h.place

theorem of_at {column : Nat} (h : StandsAt ls p s) (hw : s.cursor.rest = w ++ post)
    (ht : t.At p.line column post s.pending) (hcolumn : column = p.column + w.length) :
    StandsAt ls ⟨p.line, p.column + w.length⟩ t := by
  refine ⟨h.inside.of_reaches (.sameLine w ?_ ?_ ?_ ht.pending), ?_⟩
  · rw [ht.rest, hw]
  · rw [ht.line, h.lineNumber]
  · rw [ht.column, h.column, hcolumn]
  · rw [Lexer.place, ht.line, ht.column, hcolumn]

theorem charAt?_rest (h : StandsAt ls p s) (i : Nat) :
    charAt? ls ⟨p.line, p.column + i⟩ = s.cursor.rest[i]? := by
  obtain ⟨front, w, hls, hline, hcolumn⟩ := h.inside
  rw [charAt?, hls, ← h.lineNumber, ← h.column, hline, hcolumn,
    List.getElem?_append_right (Nat.le_refl _), Nat.sub_self, List.getElem?_cons_zero, Option.bind_some,
    List.getElem?_append_right (Nat.le_add_right _ _), Nat.add_sub_cancel_left]

theorem charAt?_pending (h : StandsAt ls p s) (i column : Nat) :
    charAt? ls ⟨p.line + i + 1, column⟩ = s.pending[i]?.bind (·[column]?) := by
  obtain ⟨front, w, hls, hline, -⟩ := h.inside
  rw [charAt?, hls, ← h.lineNumber, hline, Nat.add_assoc,
    List.getElem?_append_right (Nat.le_add_right _ _), Nat.add_sub_cancel_left, List.getElem?_cons_succ]

end StandsAt

/-- A token starts at the place: its first character, not a blank, has just been read. -/
structure Starts (source : String) (p : Position) (x : Char) (t : Lexer) : Prop where
  found : ∃ keepComments s, Visits source keepComments s ∧ s.readChar true = (true, t)
  current : t.cursor.current = some x
  place : t.place = ⟨p.line, p.column + 1⟩

namespace Starts

/-- The token was looked for on the line of its first character, with only blanks in front of it. -/
theorem exists_blanks (h : Starts source p x t) : ∃ s blanks, Inside (lines source.toList) s ∧
    s.cursor.rest = blanks ++ x :: t.cursor.rest ∧ s.lineNumber = p.line ∧
      s.cursor.column + blanks.length = p.column ∧ s.pending = t.pending := by
  obtain ⟨keepComments, s, hvisits, hread⟩ := h.found
  obtain ⟨y, hy, hnext, ht⟩ := Step.exists_current hread
  obtain rfl : y = x := Option.some.inj (hy.symm.trans h.current)
  obtain ⟨hdrop, hcolumn⟩ := dropWhile_of_nextChar? hnext
  have hrest : s.cursor.rest = s.cursor.rest.takeWhile isBlank ++ y :: t.cursor.rest := by
    rw [← hdrop, List.takeWhile_append_dropWhile]
  have hplace : t.cursor.column = p.column + 1 := congrArg Position.column h.place
  refine ⟨s, _, hvisits.wellFormed.inside ?_, hrest, ?_, ?_, ?_⟩
  · rw [hrest]
    simp
  · rw [← congrArg Position.line h.place, ht]
    rfl
  · exact Nat.add_right_cancel (hcolumn.symm.trans hplace)
  · rw [ht]

theorem standsAt (h : Starts source p x t) :
    StandsAt (lines source.toList) ⟨p.line, p.column + 1⟩ t := by
  obtain ⟨s, blanks, hinside, hrest, hline, hcolumn, hpending⟩ := h.exists_blanks
  refine ⟨hinside.of_reaches (.sameLine (blanks ++ [x]) ?_ ?_ ?_ hpending.symm), h.place⟩
  · rw [List.append_assoc, List.singleton_append, hrest]
  · rw [hline]
    exact congrArg Position.line h.place
  · rw [List.length_append, List.length_singleton, ← Nat.add_assoc, hcolumn]
    exact congrArg Position.column h.place

/-- The first character and what comes after it are the rest of the line, from the place on. -/
theorem drop_eq (h : Starts source p x t) {line : List Char}
    (hline : (lines source.toList)[p.line - 1]? = some line) :
    line.drop p.column = x :: t.cursor.rest := by
  obtain ⟨s, blanks, hinside, hrest, hnumber, hcolumn, -⟩ := h.exists_blanks
  obtain ⟨-, before, hlength, hget⟩ := hinside.exists_before (by rw [hrest]; simp)
  rw [hnumber, hline] at hget
  obtain rfl := Option.some.inj hget
  rw [hrest, ← List.append_assoc]
  exact List.drop_left' (by rw [List.length_append, hlength, hcolumn])

theorem drop_succ_eq (h : Starts source p x t) {line : List Char}
    (hline : (lines source.toList)[p.line - 1]? = some line) :
    line.drop (p.column + 1) = t.cursor.rest := by
  rw [← List.drop_drop, h.drop_eq hline]
  rfl

/-- A token that goes on with the characters `w` ends with them, and reading resumes after it. -/
theorem scan_eq_ok (h : Starts source p x t) (hx : x ≠ '/') (hw : t.cursor.rest = w ++ post)
    (htakes : (Lexeme.read x t.cursor).Takes kind t.cursor w post) :
    ∃ u, scan x t = .ok ⟨kind, .onLine p.line p.column (p.column + w.length)⟩ u ∧
      StandsAt (lines source.toList) ⟨p.line, p.column + 1 + w.length⟩ u := by
  have hcolumn := h.standsAt.column
  obtain ⟨u, hu, hat, -⟩ := scans_of_takes htakes (by rw [hcolumn]; exact Nat.succ_pos _)
  rw [h.standsAt.lineNumber, hcolumn] at hu hat
  exact ⟨u, by rw [scan, if_neg hx]; exact hu, h.standsAt.of_at hw hat rfl⟩

theorem scan_eq_error (h : Starts source p x t) (hx : x ≠ '/')
    (hcause : (Lexeme.read x t.cursor).outcome = .error cause) :
    ∃ u, scan x t = .error
      ⟨cause, .onLine p.line (Lexeme.read x t.cursor).first (Lexeme.read x t.cursor).last⟩ u := by
  refine ⟨{ t with cursor := (Lexeme.read x t.cursor).cursor }, ?_⟩
  rw [scan, if_neg hx, lexeme]
  simp only [hcause, h.standsAt.lineNumber]

end Starts

end Lexer

end Linewise
