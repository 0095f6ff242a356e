import Linewise.Lexeme
import Linewise.Lexeme.Comment
import Linewise.Lexer.Basic

namespace Linewise.Lexer

def blockComment (start : Nat) (s : Lexer) : EStateM.Result LexicalError Lexer Token :=
  let token (stop : Lexer) : EStateM.Result LexicalError Lexer Token :=
    .ok ⟨.blockComment, ⟨⟨s.lineNumber, start⟩, ⟨stop.lineNumber, stop.cursor.position⟩⟩⟩ stop
  match Lexeme.commentLength? false s.cursor.rest with
  | some n => token { s with cursor := s.cursor.forward n }
  | none => match Lexeme.commentEnd? s.pending with
    | some e =>
      token { s with
        pending := e.pending, cursor := (Cursor.ofLine e.line).forward e.length,
        lineNumber := s.lineNumber + e.skipped + 1 }
    | none =>
      .error ⟨.unterminatedComment, .onLine s.lineNumber start (start + 1)⟩
        { s with
          pending := [], cursor := s.cursor.withoutLine,
          lineNumber := s.lineNumber + s.pending.length }

def lexeme (first : Char) (s : Lexer) : EStateM.Result LexicalError Lexer Token :=
  let l := Lexeme.read first s.cursor
  let span := Span.onLine s.lineNumber l.first l.last
  match l.outcome with
  | .ok kind => .ok ⟨kind, span⟩ { s with cursor := l.cursor }
  | .error cause => .error ⟨cause, span⟩ { s with cursor := l.cursor }

def scan (first : Char) (s : Lexer) : EStateM.Result LexicalError Lexer Token :=
  if first = '/' then
    match s.cursor.nextIs '*' with
    | (true, cursor) => blockComment s.cursor.position { s with cursor }
    | (false, cursor) => lexeme first { s with cursor }
  else lexeme first s

theorem commentEnd?_size {ls : List (List Char)} {e : Lexeme.CommentEnd}
    (h : Lexeme.commentEnd? ls = some e) :
    e.line.length + linesSize e.pending ≤ linesSize ls := by
  induction ls generalizing e with
  | nil => cases h
  | cons l ls ih =>
    rw [Lexeme.commentEnd?] at h
    split at h
    · cases h
      simp only [linesSize]
      omega
    · obtain ⟨e, he, rfl⟩ := Option.map_eq_some_iff.1 h
      have := ih he
      simp only [linesSize]
      omega

/-- A comment that has begun ends on its line or on a later one. -/
inductive EndsComment (s : Lexer) : Lexer → Prop
  | sameLine {n : Nat} : Lexeme.commentLength? false s.cursor.rest = some n →
      EndsComment s { s with cursor := s.cursor.forward n }
  | laterLine {e : Lexeme.CommentEnd} : Lexeme.commentLength? false s.cursor.rest = none →
      Lexeme.commentEnd? s.pending = some e → EndsComment s { s with
        pending := e.pending, cursor := (Cursor.ofLine e.line).forward e.length,
        lineNumber := s.lineNumber + e.skipped + 1 }

theorem endsComment_of_blockComment {start : Nat} {s t : Lexer} {token : Token}
    (h : blockComment start s = .ok token t) : EndsComment s t ∧
      token = ⟨.blockComment, ⟨⟨s.lineNumber, start⟩, ⟨t.lineNumber, t.cursor.position⟩⟩⟩ := by
  unfold blockComment at h
  dsimp only at h
  split at h
  · next hn =>
    cases h
    exact ⟨.sameLine hn, rfl⟩
  · next hn =>
    split at h
    · next he =>
      cases h
      exact ⟨.laterLine hn he, rfl⟩
    · cases h

theorem eq_of_blockComment_error {start : Nat} {s t : Lexer} {e : LexicalError}
    (h : blockComment start s = .error e t) :
    Lexeme.commentLength? false s.cursor.rest = none ∧ Lexeme.commentEnd? s.pending = none ∧
      e = ⟨.unterminatedComment, .onLine s.lineNumber start (start + 1)⟩ ∧
      t = { s with
        pending := [], cursor := s.cursor.withoutLine, lineNumber := s.lineNumber + s.pending.length } := by
  unfold blockComment at h
  dsimp only at h
  split at h
  · cases h
  · next hn =>
    split at h
    · cases h
    · next he =>
      cases h
      exact ⟨hn, he, rfl, rfl⟩

theorem unreadSize_of_blockComment {start : Nat} {s t : Lexer} {token : Token}
    (h : blockComment start s = .ok token t) : t.unreadSize ≤ s.unreadSize := by
  cases (endsComment_of_blockComment h).1 with
  | sameLine => simp [unreadSize, Cursor.forward_rest]
  | laterLine _ he =>
    have := commentEnd?_size he
    simp only [unreadSize, Cursor.forward_rest, Cursor.ofLine, List.length_drop]
    omega

theorem read_of_lexeme {x : Char} {s t : Lexer} {token : Token} (h : lexeme x s = .ok token t) :
    (Lexeme.read x s.cursor).outcome = .ok token.kind ∧
      t = { s with cursor := (Lexeme.read x s.cursor).cursor } ∧
      token.span = .onLine s.lineNumber (Lexeme.read x s.cursor).first (Lexeme.read x s.cursor).last := by
  unfold lexeme at h
  dsimp only at h
  split at h
  · next hok =>
    cases h
    exact ⟨hok, rfl, rfl⟩
  · cases h

theorem read_of_lexeme_error {x : Char} {s t : Lexer} {e : LexicalError} (h : lexeme x s = .error e t) :
    (Lexeme.read x s.cursor).outcome = .error e.cause ∧
      t = { s with cursor := (Lexeme.read x s.cursor).cursor } ∧
      e.span = .onLine s.lineNumber (Lexeme.read x s.cursor).first (Lexeme.read x s.cursor).last := by
  unfold lexeme at h
  dsimp only at h
  split at h
  · cases h
  · next herror =>
    cases h
    exact ⟨herror, rfl, rfl⟩

theorem unreadSize_of_lexeme {c : Char} {s t : Lexer} {token : Token}
    (h : lexeme c s = .ok token t) : t.unreadSize ≤ s.unreadSize := by
  have := Lexeme.read_rest_length_le c s.cursor
  obtain ⟨-, rfl, -⟩ := read_of_lexeme h
  simp only [unreadSize]
  omega

/-- Reading a token never leaves more to read than there was. -/
theorem unreadSize_of_scan {c : Char} {s t : Lexer} {token : Token}
    (h : scan c s = .ok token t) : t.unreadSize ≤ s.unreadSize := by
  unfold scan at h
  have step : Lexer.unreadSize { s with cursor := (s.cursor.nextIs '*').2 } ≤ s.unreadSize :=
    Nat.add_le_add_right (Cursor.nextIs_rest_length_le '*' s.cursor) _
  split at h
  · split at h
    · next hn => exact Nat.le_trans (unreadSize_of_blockComment h) (by rwa [hn] at step)
    · next hn => exact Nat.le_trans (unreadSize_of_lexeme h) (by rwa [hn] at step)
  · exact unreadSize_of_lexeme h

theorem sameTokens_of_blockComment {start : Nat} {s t : Lexer} {token : Token}
    (h : blockComment start s = .ok token t) : SameTokens s t := by
  cases (endsComment_of_blockComment h).1 <;> exact ⟨rfl, rfl, rfl⟩

theorem sameTokens_of_lexeme {c : Char} {s t : Lexer} {token : Token}
    (h : lexeme c s = .ok token t) : SameTokens s t := by
  obtain ⟨-, rfl, -⟩ := read_of_lexeme h
  exact ⟨rfl, rfl, rfl⟩

theorem sameTokens_of_scan {c : Char} {s t : Lexer} {token : Token}
    (h : scan c s = .ok token t) : SameTokens s t := by
  unfold scan at h
  split at h
  · split at h
    · exact ⟨(sameTokens_of_blockComment h).1, (sameTokens_of_blockComment h).2,
        (sameTokens_of_blockComment h).3⟩
    · exact ⟨(sameTokens_of_lexeme h).1, (sameTokens_of_lexeme h).2, (sameTokens_of_lexeme h).3⟩
  · exact sameTokens_of_lexeme h

theorem tokens_of_blockComment_error {start : Nat} {s t : Lexer} {e : LexicalError}
    (h : blockComment start s = .error e t) : t.tokens = s.tokens := by
  obtain ⟨-, -, -, rfl⟩ := eq_of_blockComment_error h
  rfl

theorem tokens_of_lexeme_error {x : Char} {s t : Lexer} {e : LexicalError}
    (h : lexeme x s = .error e t) : t.tokens = s.tokens := by
  obtain ⟨-, rfl, -⟩ := read_of_lexeme_error h
  rfl

theorem tokens_of_scan_error {x : Char} {s t : Lexer} {e : LexicalError}
    (h : scan x s = .error e t) : t.tokens = s.tokens := by
  unfold scan at h
  split at h
  · split at h
    · exact (tokens_of_blockComment_error h).trans rfl
    · exact (tokens_of_lexeme_error h).trans rfl
  · exact tokens_of_lexeme_error h

end Linewise.Lexer
