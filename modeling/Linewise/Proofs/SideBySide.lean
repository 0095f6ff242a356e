import Linewise.Lexer

namespace Linewise

namespace Cursor

theorem stepBack?_of_next {c c' : Cursor} {x : Char} (h : c.next? = some (x, c')) :
    c'.stepBack? = some ⟨c.read, c.rest, c.current, c.current, true⟩ := by
  unfold next? at h
  split at h <;> cases h
  next hr =>
  rw [hr]
  rfl

/-- Related cursors have the same text in front of them in the same column, and stay related when both
read a character, and when both take it back. -/
structure Parallel (R : Cursor → Cursor → Prop) : Prop where
  rest {c d : Cursor} : R c d → c.rest = d.rest
  column {c d : Cursor} : R c d → c.column = d.column
  next {c d c' d' : Cursor} {x y : Char} :
    R c d → c.next? = some (x, c') → d.next? = some (y, d') → R c' d'
  back {c d c' d' : Cursor} {x y : Char} :
    R c d → c.next? = some (x, c') → d.next? = some (y, d') →
      R (c'.stepBack?.getD c) (d'.stepBack?.getD d)

structure Found {α : Type} (R : Cursor → Cursor → Prop) (r r' : α × Cursor) : Prop where
  eq : r.1 = r'.1
  cursor : R r.2 r'.2

namespace Parallel

variable {R : Cursor → Cursor → Prop} {c d : Cursor} (hR : Parallel R)
include hR

/-- Either both lines are read to the end, or both go on with the same character. -/
theorem next?_cases (h : R c d) : (c.next? = none ∧ d.next? = none) ∨
    ∃ x c' d', c.next? = some (x, c') ∧ d.next? = some (x, d') ∧ R c' d' ∧
      R (c'.stepBack?.getD c) (d'.stepBack?.getD d) := by
  have hrest := hR.rest h
  cases hc : c.next? with
  | none =>
    rw [next?_eq_none_iff.1 hc] at hrest
    exact .inl ⟨rfl, next?_eq_none_iff.2 hrest.symm⟩
  | some r =>
    obtain ⟨x, c'⟩ := r
    cases hd : d.next? with
    | none =>
      rw [rest_of_next? hc, next?_eq_none_iff.1 hd] at hrest
      cases hrest
    | some r =>
      obtain ⟨y, d'⟩ := r
      rw [rest_of_next? hc, rest_of_next? hd] at hrest
      obtain rfl := (List.cons.inj hrest).1
      exact .inr ⟨x, c', d', rfl, rfl, hR.next h hc hd, hR.back h hc hd⟩

theorem position (h : R c d) : c.position = d.position := by
  rw [Cursor.position, Cursor.position, hR.column h]

theorem forward (h : R c d) (n : Nat) : R (c.forward n) (d.forward n) := by
  induction n generalizing c d with
  | zero => exact h
  | succ n ih =>
    rcases hR.next?_cases h with ⟨hc, hd⟩ | ⟨x, c', d', hc, hd, hnext, -⟩
    · simpa only [Cursor.forward, hc, hd] using h
    · simpa only [Cursor.forward, hc, hd] using ih hnext

theorem peek (h : R c d) : R c.peek d.peek := by
  rcases hR.next?_cases h with ⟨hc, hd⟩ | ⟨x, c', d', hc, hd, -, hback⟩
  · simpa only [Cursor.peek, hc, hd] using h
  · simpa only [Cursor.peek, hc, hd] using hback

theorem nextIs (h : R c d) (expected : Char) : Found R (c.nextIs expected) (d.nextIs expected) := by
  rcases hR.next?_cases h with ⟨hc, hd⟩ | ⟨x, c', d', hc, hd, hnext, hback⟩
  · simp only [Cursor.nextIs, hc, hd]
    exact ⟨rfl, h⟩
  · simp only [Cursor.nextIs, hc, hd]
    split
    · exact ⟨rfl, hnext⟩
    · exact ⟨rfl, hback⟩

theorem firstOf (h : R c d) (options : List (Char × TokenKind)) :
    Found R (c.firstOf options) (d.firstOf options) := by
  induction options generalizing c d with
  | nil => exact ⟨rfl, h⟩
  | cons o options ih =>
    obtain ⟨heq, hcursor⟩ := hR.nextIs h o.1
    simp only [Cursor.firstOf]
    generalize c.nextIs o.1 = r at heq hcursor
    generalize d.nextIs o.1 = r' at heq hcursor
    obtain ⟨b, c'⟩ := r
    obtain ⟨b', d'⟩ := r'
    obtain rfl : b = b' := heq
    cases b with
    | true => exact ⟨rfl, hcursor⟩
    | false => exact ih hcursor

theorem grow (h : R c d) (kind : TokenKind) : Found R (c.grow kind) (d.grow kind) := by
  obtain ⟨heq, hcursor⟩ := hR.firstOf h kind.extensions
  simp only [Cursor.grow]
  generalize c.firstOf kind.extensions = r at heq hcursor
  generalize d.firstOf kind.extensions = r' at heq hcursor
  obtain ⟨longer, c'⟩ := r
  obtain ⟨longer', d'⟩ := r'
  obtain rfl : longer = longer' := heq
  cases longer with
  | none => exact ⟨rfl, hcursor⟩
  | some longer => exact ⟨rfl, hcursor⟩

theorem nextChar? (h : R c d) (skipBlanks : Bool) :
    Found R (Lexer.nextChar? skipBlanks c) (Lexer.nextChar? skipBlanks d) := by
  have hskip : R (if skipBlanks then c.forward (c.rest.takeWhile Text.isBlank).length else c)
      (if skipBlanks then d.forward (d.rest.takeWhile Text.isBlank).length else d) := by
    rw [hR.rest h]
    cases skipBlanks with
    | true => exact hR.forward h _
    | false => exact h
  unfold Lexer.nextChar?
  rcases hR.next?_cases hskip with ⟨hc, hd⟩ | ⟨x, c', d', hc, hd, hnext, -⟩
  · simp only [hc, hd]
    exact ⟨rfl, hskip⟩
  · simp only [hc, hd]
    exact ⟨rfl, hnext⟩

end Parallel

end Cursor

namespace Lexeme

structure Alike (R : Cursor → Cursor → Prop) (l l' : Lexeme) : Prop where
  outcome : l.outcome = l'.outcome
  first : l.first = l'.first
  last : l.last = l'.last
  cursor : R l.cursor l'.cursor

end Lexeme

namespace Cursor.Parallel

open Lexeme

variable {R : Cursor → Cursor → Prop} {c d : Cursor} (hR : Parallel R)
include hR

theorem token {c' d' : Cursor} (h : R c d) (h' : R c' d') (kind : TokenKind) :
    Lexeme.Alike R (token kind c.position c') (token kind d.position d') :=
  ⟨rfl, hR.position h, hR.position h', h'⟩

theorem ofOperator (h : R c d) (kind : TokenKind) : Lexeme.Alike R (ofOperator kind c) (ofOperator kind d) := by
  have hfirst := hR.grow h kind
  simp only [Lexeme.ofOperator, hfirst.eq]
  have hsecond := hR.grow hfirst.cursor (d.grow kind).1
  simp only [hsecond.eq]
  exact hR.token h hsecond.cursor _

theorem ofQuoted (h : R c d) (quote : Char) : Lexeme.Alike R (ofQuoted quote c) (ofQuoted quote d) := by
  have hstart := hR.position h
  unfold Lexeme.ofQuoted
  rw [hR.rest h]
  obtain ⟨ending, n⟩ := quoted quote d.rest
  have hcursor := hR.forward h n
  have hlast := hR.position hcursor
  cases ending with
  | closed value => exact ⟨rfl, hstart, hlast, hcursor⟩
  | badEscape x => exact ⟨rfl, congrArg (· - 1) hlast, hlast, hcursor⟩
  | unclosed => exact ⟨rfl, hstart, hstart, hcursor⟩

theorem ofNumeral (h : R c d) (x : Char) : Lexeme.Alike R (ofNumeral x c) (ofNumeral x d) := by
  unfold Lexeme.ofNumeral
  rw [hR.rest h]
  rcases numeral x d.rest with ⟨cause | kind, n⟩
  · have hcursor := hR.forward h n
    exact ⟨rfl, hR.position hcursor, hR.position hcursor, hcursor⟩
  · exact hR.token h (hR.peek (hR.forward h n)) kind

theorem ofWord (h : R c d) (x : Char) : Lexeme.Alike R (ofWord x c) (ofWord x d) := by
  unfold Lexeme.ofWord
  rw [hR.rest h]
  exact hR.token h (hR.peek (hR.forward h _)) _

theorem ofLineComment (h : R c d) : Lexeme.Alike R (ofLineComment c) (ofLineComment d) := by
  unfold Lexeme.ofLineComment
  rw [hR.rest h]
  exact hR.token h (hR.forward h _) _

theorem read (h : R c d) (x : Char) : Lexeme.Alike R (Lexeme.read x c) (Lexeme.read x d) := by
  unfold Lexeme.read
  cases TokenKind.ofDelimiter? x with
  | some kind => exact hR.token h h kind
  | none =>
    cases TokenKind.ofOperator? x with
    | some kind => exact hR.ofOperator h kind
    | none =>
      dsimp only
      split
      · exact hR.ofLineComment h
      split
      · exact hR.ofQuoted h x
      split
      · exact hR.ofNumeral h x
      split
      · exact hR.ofWord h x
      · exact ⟨rfl, hR.position h, hR.position h, h⟩

end Cursor.Parallel

namespace Cursor

structure Lasting (P : Cursor → Prop) : Prop where
  next {c d : Cursor} {x : Char} : P c → c.next? = some (x, d) → P d
  back {c d : Cursor} {x : Char} : P c → c.next? = some (x, d) → P (d.stepBack?.getD c)

/-- A cursor with the property, beside itself. -/
theorem Lasting.parallel {P : Cursor → Prop} (hP : Lasting P) : Parallel fun c d ↦ c = d ∧ P c where
  rest h := congrArg Cursor.rest h.1
  column h := congrArg Cursor.column h.1
  next h hc hd := by
    obtain ⟨rfl, h⟩ := h
    obtain ⟨rfl, rfl⟩ := Prod.mk.inj (Option.some.inj (hc.symm.trans hd))
    exact ⟨rfl, hP.next h hc⟩
  back h hc hd := by
    obtain ⟨rfl, h⟩ := h
    obtain ⟨rfl, rfl⟩ := Prod.mk.inj (Option.some.inj (hc.symm.trans hd))
    exact ⟨rfl, hP.back h hc⟩

end Cursor

end Linewise
