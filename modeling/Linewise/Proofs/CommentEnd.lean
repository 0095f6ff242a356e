import Linewise.Proofs.TokenStart

namespace Linewise

open Text

/-- A star stands at the place, with a slash next to it on the same line. -/
def ClosesComment (ls : List (List Char)) (p : Position) : Prop :=
  charAt? ls p = some '*' ∧ charAt? ls ⟨p.line, p.column + 1⟩ = some '/'

/-- From the first place on, a comment is first closed at the second one. -/
structure FirstCloser (ls : List (List Char)) (p q : Position) : Prop where
  le : p ≤ q
  closes : ClosesComment ls q
  first : ∀ r, p ≤ r → ClosesComment ls r → q ≤ r

theorem Position.cases_of_le {p r : Position} (h : p ≤ r) :
    (∃ i, r = ⟨p.line, p.column + i⟩) ∨ ∃ i column, r = ⟨p.line + i + 1, column⟩ := by
  obtain ⟨line, column⟩ := r
  rcases h with hlt | ⟨heq, hle⟩
  · obtain ⟨i, rfl⟩ := Nat.exists_eq_add_of_lt hlt
    exact .inr ⟨i, column, rfl⟩
  · obtain rfl : p.line = line := heq
    obtain ⟨i, rfl⟩ := Nat.exists_eq_add_of_le hle
    exact .inl ⟨i, rfl⟩

namespace Lexeme

variable {w : List Char} {n i : Nat}

def Closes (w : List Char) (i : Nat) : Prop := w[i]? = some '*' ∧ w[i + 1]? = some '/'

theorem closes_cons_succ {c : Char} : Closes (c :: w) (i + 1) ↔ Closes w i := by
  simp only [Closes, List.getElem?_cons_succ]

/-- The scan remembers the last character only as far as it may be the star of a closer. -/
theorem commentLength?_cons (c : Char) (w : List Char) : match commentLength? (c == '*') w with
    | some n => ∃ i, n = i + 1 ∧ Closes (c :: w) i ∧ ∀ j, Closes (c :: w) j → i ≤ j
    | none => ∀ j, ¬ Closes (c :: w) j := by
  induction w generalizing c with
  | nil =>
    intro j hj
    cases hj.2
  | cons d w ih =>
    rw [commentLength?]
    by_cases hclose : (c == '*' && d == '/') = true
    · rw [if_pos hclose]
      rw [Bool.and_eq_true, beq_iff_eq, beq_iff_eq] at hclose
      obtain ⟨rfl, rfl⟩ := hclose
      exact ⟨0, rfl, ⟨rfl, rfl⟩, fun j _ ↦ Nat.zero_le j⟩
    rw [if_neg hclose]
    have hzero : ¬ Closes (c :: d :: w) 0 := by
      rintro ⟨hc, hd⟩
      cases hc
      cases hd
      exact hclose rfl
    have hrest := ih d
    cases hn : commentLength? (d == '*') w with
    | none =>
      rw [hn] at hrest
      intro j hj
      cases j with
      | zero => exact hzero hj
      | succ j => exact hrest j (closes_cons_succ.1 hj)
    | some n =>
      rw [hn] at hrest
      obtain ⟨i, rfl, hi, hfirst⟩ := hrest
      refine ⟨i + 1, rfl, closes_cons_succ.2 hi, fun j hj ↦ ?_⟩
      cases j with
      | zero => exact absurd hj hzero
      | succ j => exact Nat.succ_le_succ (hfirst j (closes_cons_succ.1 hj))

theorem not_closes_space : ¬ Closes (' ' :: w) 0 := by
  rintro ⟨hc, -⟩
  cases hc

theorem closes_of_commentLength? (h : commentLength? false w = some n) :
    ∃ i, n = i + 2 ∧ Closes w i ∧ ∀ j, Closes w j → i ≤ j := by
  -- right behind the opening the scan is as if a space had come last: its star is not one of a closer
  have hcons := commentLength?_cons ' ' w
  rw [show (' ' == '*') = false from rfl, h] at hcons
  obtain ⟨i, rfl, hi, hfirst⟩ := hcons
  cases i with
  | zero => exact absurd hi not_closes_space
  | succ i =>
    exact ⟨i, rfl, closes_cons_succ.1 hi, fun j hj ↦ Nat.succ_le_succ_iff.1 (hfirst _ (closes_cons_succ.2 hj))⟩

theorem not_closes_of_commentLength? (h : commentLength? false w = none) (i : Nat) : ¬ Closes w i := by
  have hcons := commentLength?_cons ' ' w
  rw [show (' ' == '*') = false from rfl, h] at hcons
  exact fun hi ↦ hcons _ (closes_cons_succ.2 hi)

theorem commentLength?_of_skipped {ls : List (List Char)} {e : CommentEnd} (h : commentEnd? ls = some e)
    (hi : i < e.skipped) : ∃ row, ls[i]? = some row ∧ commentLength? false row = none := by
  induction ls generalizing e i with
  | nil => cases h
  | cons line ls ih =>
    rw [commentEnd?] at h
    split at h
    · cases h
      exact absurd hi (Nat.not_lt_zero i)
    next hline =>
    obtain ⟨e, he, rfl⟩ := Option.map_eq_some_iff.1 h
    cases i with
    | zero => exact ⟨line, rfl, hline⟩
    | succ i => exact ih he (Nat.lt_of_succ_lt_succ hi)

theorem commentLength?_of_commentEnd? {ls : List (List Char)} (h : commentEnd? ls = none)
    {row : List Char} (hrow : row ∈ ls) : commentLength? false row = none := by
  induction ls with
  | nil => cases hrow
  | cons line ls ih =>
    rw [commentEnd?] at h
    split at h
    · cases h
    next hline =>
    rcases List.mem_cons.1 hrow with rfl | hrow
    · exact hline
    · exact ih (Option.map_eq_none_iff.1 h) hrow

end Lexeme

namespace Lexer

variable {source : String} {ls : List (List Char)} {s t : Lexer} {p : Position}

namespace StandsAt

variable (h : StandsAt ls p s)
include h

theorem closesComment_rest (i : Nat) :
    ClosesComment ls ⟨p.line, p.column + i⟩ ↔ Lexeme.Closes s.cursor.rest i := by
  simp only [ClosesComment, Lexeme.Closes, Nat.add_assoc, h.charAt?_rest]

theorem closesComment_pending (i column : Nat) : ClosesComment ls ⟨p.line + i + 1, column⟩ ↔
    ∃ row, s.pending[i]? = some row ∧ Lexeme.Closes row column := by
  simp only [ClosesComment, Lexeme.Closes, h.charAt?_pending]
  cases s.pending[i]? <;> simp

theorem firstCloser_rest {n : Nat} (hn : Lexeme.commentLength? false s.cursor.rest = some n) :
    ∃ i, n = i + 2 ∧ FirstCloser ls p ⟨p.line, p.column + i⟩ := by
  obtain ⟨i, rfl, hcloses, hfirst⟩ := Lexeme.closes_of_commentLength? hn
  refine ⟨i, rfl, .inr ⟨rfl, Nat.le_add_right _ _⟩, (h.closesComment_rest i).2 hcloses, fun r hr hrcloses ↦ ?_⟩
  rcases Position.cases_of_le hr with ⟨j, rfl⟩ | ⟨j, column, rfl⟩
  · exact .inr ⟨rfl, Nat.add_le_add_left (hfirst j ((h.closesComment_rest j).1 hrcloses)) _⟩
  · exact .inl (by simp only; omega)

/-- A comment that is not closed on its first line is closed where the later lines say. -/
theorem firstCloser_pending {e : Lexeme.CommentEnd}
    (hrest : Lexeme.commentLength? false s.cursor.rest = none) (he : Lexeme.commentEnd? s.pending = some e) :
    ∃ i, e.length = i + 2 ∧ FirstCloser ls p ⟨p.line + e.skipped + 1, i⟩ := by
  obtain ⟨skipped, hpending, hskipped, hlength⟩ := Lexeme.commentEnd?_eq he
  obtain ⟨i, hi, hcloses, hfirst⟩ := Lexeme.closes_of_commentLength? hlength
  have hrow : s.pending[e.skipped]? = some e.line := by
    rw [hpending, ← hskipped, List.getElem?_append_right (Nat.le_refl _), Nat.sub_self,
      List.getElem?_cons_zero]
  refine ⟨i, hi, .inl (by simp only; omega), (h.closesComment_pending _ _).2 ⟨_, hrow, hcloses⟩,
    fun r hr hrcloses ↦ ?_⟩
  rcases Position.cases_of_le hr with ⟨j, rfl⟩ | ⟨j, column, rfl⟩
  · exact absurd ((h.closesComment_rest j).1 hrcloses) (Lexeme.not_closes_of_commentLength? hrest j)
  obtain ⟨row, hj, hrowcloses⟩ := (h.closesComment_pending j column).1 hrcloses
  rcases Nat.lt_trichotomy j e.skipped with hlt | rfl | hgt
  · obtain ⟨row', hrow', hnone⟩ := Lexeme.commentLength?_of_skipped he hlt
    obtain rfl := Option.some.inj (hj.symm.trans hrow')
    exact absurd hrowcloses (Lexeme.not_closes_of_commentLength? hnone column)
  · obtain rfl := Option.some.inj (hj.symm.trans hrow)
    exact .inr ⟨rfl, hfirst column hrowcloses⟩
  · exact .inl (by simp only; omega)

theorem not_closesComment (hrest : Lexeme.commentLength? false s.cursor.rest = none)
    (he : Lexeme.commentEnd? s.pending = none) (r : Position) (hr : p ≤ r) : ¬ ClosesComment ls r := by
  intro hcloses
  rcases Position.cases_of_le hr with ⟨j, rfl⟩ | ⟨j, column, rfl⟩
  · exact Lexeme.not_closes_of_commentLength? hrest j ((h.closesComment_rest j).1 hcloses)
  · obtain ⟨row, hj, hrow⟩ := (h.closesComment_pending j column).1 hcloses
    have hnone := Lexeme.commentLength?_of_commentEnd? he (List.mem_of_getElem? hj)
    exact Lexeme.not_closes_of_commentLength? hnone column hrow

/-- A comment that ends takes the star and the slash of the first closer, and no more. -/
theorem firstCloser_of_ok {start : Nat} {token : Token} (hs : blockComment start s = .ok token t) :
    ∃ q, FirstCloser ls p q ∧ t.place = ⟨q.line, q.column + 2⟩ := by
  cases (endsComment_of_blockComment hs).1 with
  | sameLine hn =>
    obtain ⟨i, rfl, hfirst⟩ := h.firstCloser_rest hn
    refine ⟨_, hfirst, ?_⟩
    simp only [Lexer.place, Cursor.forward_column (Lexeme.commentLength?_le hn).2, h.lineNumber, h.column,
      Nat.add_assoc]
  | @laterLine e hn he =>
    obtain ⟨i, hi, hfirst⟩ := h.firstCloser_pending hn he
    obtain ⟨-, -, -, hlength⟩ := Lexeme.commentEnd?_eq he
    refine ⟨_, hfirst, ?_⟩
    have hcolumn : ((Cursor.ofLine e.line).forward e.length).column = i + 2 := by
      rw [Cursor.forward_column (Lexeme.commentLength?_le hlength).2, hi]
      exact Nat.zero_add _
    simp only [Lexer.place, hcolumn, h.lineNumber]

theorem eq_of_blockComment {start : Nat} {token : Token} (hs : blockComment start s = .ok token t)
    (hstart : start < p.column) : ∃ q, FirstCloser ls p q ∧
      token = ⟨.blockComment, ⟨⟨p.line, start⟩, ⟨q.line, q.column + 1⟩⟩⟩ ∧
        StandsAt ls ⟨q.line, q.column + 2⟩ t := by
  obtain ⟨q, hfirst, hplace⟩ := h.firstCloser_of_ok hs
  have hpasses := blockComment_passes hs (by rwa [h.column])
  have ht : StandsAt ls ⟨q.line, q.column + 2⟩ t := ⟨h.inside.of_reaches hpasses.reaches, hplace⟩
  obtain ⟨kind, start', stop⟩ := token
  obtain rfl : kind = .blockComment := kind_of_blockComment hs
  obtain rfl : start' = ⟨p.line, start⟩ := by rw [← h.lineNumber]; exact hpasses.start
  obtain rfl : stop = ⟨q.line, q.column + 1⟩ := by
    have hstop : stop = ⟨t.lineNumber, t.cursor.column - 1⟩ := hpasses.stop
    rw [hstop, ht.lineNumber, ht.column]
    rfl
  exact ⟨q, hfirst, rfl, ht⟩

theorem not_closesComment_of_error {start : Nat} {e : LexicalError} (hs : blockComment start s = .error e t) :
    (∀ r, p ≤ r → ¬ ClosesComment ls r) ∧
      e = ⟨.unterminatedComment, .onLine p.line start (start + 1)⟩ := by
  obtain ⟨hn, he, rfl, -⟩ := eq_of_blockComment_error hs
  exact ⟨h.not_closesComment hn he, by rw [h.lineNumber]⟩

end StandsAt

/-- A slash that a star follows opens a comment, which is then read from behind the star on. -/
theorem Starts.scan_slash (h : Starts source p '/' t)
    (hstar : charAt? (lines source.toList) ⟨p.line, p.column + 1⟩ = some '*') :
    ∃ u, scan '/' t = blockComment p.column u ∧
      StandsAt (lines source.toList) ⟨p.line, p.column + 2⟩ u := by
  have hhead := h.standsAt.charAt?_rest 0
  rw [Nat.add_zero, hstar, ← List.head?_eq_getElem?] at hhead
  obtain ⟨rest, hrest⟩ := List.head?_eq_some_iff.1 hhead.symm
  obtain ⟨d, hd, hdr, hdc⟩ := Cursor.nextIs_of_cons hrest
  refine ⟨{ t with cursor := d }, ?_, ?_⟩
  · rw [scan, if_pos rfl, hd, Cursor.position, h.standsAt.column]
    rfl
  · have hat : At { t with cursor := d } p.line (p.column + 2) rest t.pending :=
      ⟨h.standsAt.lineNumber, hdc.trans (congrArg (· + 1) h.standsAt.column), hdr, rfl⟩
    exact h.standsAt.of_at (w := ['*']) hrest hat rfl

/-- A block comment ends at the first closer behind its opening, and reading resumes after it. Where there
is none, the opening is reported. -/
theorem Starts.comment_firstCloser (h : Starts source p '/' t)
    (hstar : charAt? (lines source.toList) ⟨p.line, p.column + 1⟩ = some '*') :
    ((∃ r, ⟨p.line, p.column + 2⟩ ≤ r ∧ ClosesComment (lines source.toList) r) →
      ∃ q u, FirstCloser (lines source.toList) ⟨p.line, p.column + 2⟩ q ∧
        scan '/' t = .ok ⟨.blockComment, ⟨p, ⟨q.line, q.column + 1⟩⟩⟩ u ∧
          StandsAt (lines source.toList) ⟨q.line, q.column + 2⟩ u) ∧
    ((∀ r, ⟨p.line, p.column + 2⟩ ≤ r → ¬ ClosesComment (lines source.toList) r) →
      ∃ u, scan '/' t = .error ⟨.unterminatedComment, .onLine p.line p.column (p.column + 1)⟩ u) := by
  obtain ⟨v, hscan, hv⟩ := h.scan_slash hstar
  rw [hscan]
  cases hs : blockComment p.column v with
  | ok token u =>
    have hstart : p.column < p.column + 2 := Nat.lt_add_of_pos_right Nat.two_pos
    obtain ⟨q, hfirst, rfl, hu⟩ := hv.eq_of_blockComment hs hstart
    exact ⟨fun _ ↦ ⟨q, u, hfirst, rfl, hu⟩, fun hnone ↦ absurd hfirst.closes (hnone q hfirst.le)⟩
  | error e u =>
    obtain ⟨hnone, rfl⟩ := hv.not_closesComment_of_error hs
    exact ⟨fun ⟨r, hr, hcloses⟩ ↦ absurd hcloses (hnone r hr), fun _ ↦ ⟨u, rfl⟩⟩

theorem comment_firstCloser_lines : ∃ t q u,
    Starts "a /*/ *\n\n/ **/ b" ⟨1, 2⟩ '/' t ∧
    charAt? (lines "a /*/ *\n\n/ **/ b".toList) ⟨1, 3⟩ = some '*' ∧
    ClosesComment (lines "a /*/ *\n\n/ **/ b".toList) ⟨3, 3⟩ ∧
    FirstCloser (lines "a /*/ *\n\n/ **/ b".toList) ⟨1, 4⟩ q ∧ q = ⟨3, 3⟩ ∧
    scan '/' t = .ok ⟨.blockComment, ⟨⟨1, 2⟩, ⟨q.line, q.column + 1⟩⟩⟩ u ∧
    StandsAt (lines "a /*/ *\n\n/ **/ b".toList) ⟨q.line, q.column + 2⟩ u := by
  have hstarts : Starts "a /*/ *\n\n/ **/ b" ⟨1, 2⟩ '/' _ :=
    ⟨⟨false, _, .reply .new (.readToken true), Prod.ext (by decide +kernel) rfl⟩, by decide +kernel,
      by decide +kernel⟩
  have hstar : charAt? (lines "a /*/ *\n\n/ **/ b".toList) ⟨1, 3⟩ = some '*' := by decide +kernel
  have hcloses : ClosesComment (lines "a /*/ *\n\n/ **/ b".toList) ⟨3, 3⟩ :=
    ⟨by decide +kernel, by decide +kernel⟩
  obtain ⟨q, u, hfirst, hscan, hu⟩ := (hstarts.comment_firstCloser hstar).1 ⟨⟨3, 3⟩, .inl (by decide), hcloses⟩
  have hplace : (⟨3, 5⟩ : Position) = ⟨q.line, q.column + 2⟩ :=
    Eq.trans (by decide +kernel) ((congrArg (fun r ↦ (finalState r).place) hscan).trans hu.place)
  have hq : q = ⟨3, 3⟩ := by
    obtain ⟨line, column⟩ := q
    cases hplace
    rfl
  exact ⟨_, q, u, hstarts, hstar, hcloses, hfirst, hq, hscan, hu⟩

end Lexer

end Linewise
