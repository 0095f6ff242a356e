import Linewise.Proofs.SideBySide

namespace Linewise

inductive Paired {ε σ α : Type} (R : σ → σ → Prop) :
    EStateM.Result ε σ α → EStateM.Result ε σ α → Prop
  | ok (a : α) {s t : σ} : R s t → Paired R (.ok a s) (.ok a t)
  | error (e : ε) {s t : σ} : R s t → Paired R (.error e s) (.error e t)

namespace Cursor

structure SamePlace (c d : Cursor) : Prop where
  read : c.read = d.read
  rest : c.rest = d.rest

theorem SamePlace.next {c d c' d' : Cursor} {x y : Char} (h : SamePlace c d) (hc : c.next? = some (x, c'))
    (hd : d.next? = some (y, d')) : SamePlace c' d' := by
  have hrest := h.rest
  unfold next? at hc hd
  split at hc <;> cases hc
  next hcr =>
  split at hd <;> cases hd
  next hdr =>
  rw [hcr, hdr] at hrest
  obtain ⟨rfl, htail⟩ := List.cons.inj hrest
  exact ⟨congrArg (_ :: ·) h.read, htail⟩

theorem samePlace_withoutLine (c d : Cursor) : SamePlace c.withoutLine d.withoutLine := ⟨rfl, rfl⟩

theorem parallel_samePlace : Parallel SamePlace where
  rest := SamePlace.rest
  column h := congrArg List.length h.read
  next := SamePlace.next
  back h hc hd := by
    rw [stepBack?_of_next hc, stepBack?_of_next hd]
    exact ⟨h.read, h.rest⟩

end Cursor

namespace Lexer

/-- Two lexers that differ at most in the characters that their cursors remember. -/
inductive Twin (s : Lexer) : Lexer → Prop
  | withCursor {d : Cursor} : s.cursor.SamePlace d → Twin s { s with cursor := d }

theorem pull_of_done {s : Lexer} {b : Bool} {r : EStateM.Result LexicalError Lexer Bool}
    (h : attempt b s = .done r) : pull b s = r := by
  rw [pull]
  split
  · next h' => exact Attempt.done.inj (h'.symm.trans h)
  · next h' => cases h'.symm.trans h

theorem pull_of_again {s t : Lexer} {b : Bool} (h : attempt b s = .again t) : pull b s = pull b t := by
  rw [pull]
  split
  · next h' => cases h'.symm.trans h
  · next h' => rw [Attempt.again.inj (h'.symm.trans h)]

namespace Twin

open Cursor

variable {s t : Lexer} {c d : Cursor}

theorem of_cursors (h : c.SamePlace d) (s : Lexer) : Twin { s with cursor := c } { s with cursor := d } :=
  withCursor (s := { s with cursor := c }) h

theorem refl (s : Lexer) : Twin s s := withCursor ⟨rfl, rfl⟩

theorem lexeme (h : Twin s t) (x : Char) : Paired Twin (lexeme x s) (lexeme x t) := by
  obtain ⟨hd⟩ := h
  obtain ⟨houtcome, hfirst, hlast, hcursor⟩ := parallel_samePlace.read hd x
  simp only [Lexer.lexeme, houtcome, hfirst, hlast]
  split
  · exact .ok _ (.of_cursors hcursor s)
  · exact .error _ (.of_cursors hcursor s)

theorem blockComment (h : Twin s t) (start : Nat) :
    Paired Twin (blockComment start s) (blockComment start t) := by
  obtain ⟨hd⟩ := h
  simp only [Lexer.blockComment, hd.rest]
  split
  · next n _ =>
    have hcursor := parallel_samePlace.forward hd n
    rw [parallel_samePlace.position hcursor]
    exact .ok _ (.of_cursors hcursor s)
  · split
    · exact .ok _ (.refl _)
    · exact .error _ (.withCursor (samePlace_withoutLine s.cursor _))

theorem scan (h : Twin s t) (x : Char) : Paired Twin (scan x s) (scan x t) := by
  have htwin := h
  obtain ⟨hd⟩ := h
  obtain ⟨heq, hcursor⟩ := parallel_samePlace.nextIs hd '*'
  unfold Lexer.scan
  dsimp only
  rw [← parallel_samePlace.position hd]
  generalize s.cursor.nextIs '*' = r at heq hcursor
  generalize Cursor.nextIs '*' _ = r' at heq hcursor
  obtain ⟨b, c⟩ := r
  obtain ⟨b', c'⟩ := r'
  obtain rfl : b = b' := heq
  split
  · cases b with
    | true => exact (Twin.of_cursors hcursor s).blockComment _
    | false => exact (Twin.of_cursors hcursor s).lexeme x
  · exact htwin.lexeme x

theorem advanceLine (h : Twin s t) (force : Bool) :
    (advanceLine force s).1 = (advanceLine force t).1 ∧
      Twin (advanceLine force s).2 (advanceLine force t).2 := by
  have htwin := h
  obtain ⟨hd⟩ := h
  simp only [Lexer.advanceLine, hd.rest]
  split
  · exact ⟨rfl, htwin⟩
  · split
    · exact ⟨rfl, .withCursor (samePlace_withoutLine s.cursor _)⟩
    · exact ⟨rfl, .refl _⟩

inductive Tries : Attempt → Attempt → Prop
  | done {r r' : EStateM.Result LexicalError Lexer Bool} : Paired Twin r r' → Tries (.done r) (.done r')
  | again {s t : Lexer} : Twin s t → Tries (.again s) (.again t)

theorem attempt (h : Twin s t) (acrossLines : Bool) :
    Tries (attempt acrossLines s) (attempt acrossLines t) := by
  obtain ⟨hd⟩ := h
  obtain ⟨heq, hcursor⟩ := parallel_samePlace.nextChar? hd true
  unfold Lexer.attempt
  dsimp only
  generalize nextChar? true s.cursor = r at heq hcursor
  generalize nextChar? true _ = r' at heq hcursor
  obtain ⟨x, c⟩ := r
  obtain ⟨x', c'⟩ := r'
  obtain rfl : x = x' := heq
  cases x with
  | none =>
    cases acrossLines with
    | false => exact .done (.ok false (.of_cursors hcursor s))
    | true =>
      obtain ⟨hline, hstate⟩ := (Twin.of_cursors hcursor s).advanceLine false
      simp only [if_true]
      generalize Lexer.advanceLine false { s with cursor := c } = r at hline hstate
      generalize Lexer.advanceLine false _ = r' at hline hstate
      obtain ⟨b, u⟩ := r
      obtain ⟨b', u'⟩ := r'
      obtain rfl : b = b' := hline
      cases b with
      | true => exact .again hstate
      | false => exact .done (.ok false hstate)
  | some x =>
    have hscan := (Twin.of_cursors hcursor s).scan x
    dsimp only
    generalize Lexer.scan x { s with cursor := c } = r at hscan
    generalize Lexer.scan x _ = r' at hscan
    cases hscan with
    | error e hstate => exact .done (.error e hstate)
    | ok token hstate =>
      obtain ⟨hd⟩ := hstate
      dsimp only
      split
      · exact .again (withCursor hd)
      · exact .done (.ok true (withCursor hd))

theorem pull (h : Twin s t) (acrossLines : Bool) : Paired Twin (pull acrossLines s) (pull acrossLines t) := by
  fun_induction Lexer.pull acrossLines s generalizing t with
  | case1 s result hs =>
    have htries := h.attempt acrossLines
    rw [hs] at htries
    generalize ht : Lexer.attempt acrossLines t = a at htries
    cases htries with
    | done hpaired =>
      rw [pull_of_done ht]
      exact hpaired
  | case2 s u hs ih =>
    have htries := h.attempt acrossLines
    rw [hs] at htries
    generalize ht : Lexer.attempt acrossLines t = a at htries
    cases htries with
    | again htwin =>
      rw [pull_of_again ht]
      exact ih htwin

theorem readToken (h : Twin s t) (acrossLines : Bool) :
    Paired Twin (readToken acrossLines s) (readToken acrossLines t) := by
  have htwin := h
  obtain ⟨hd⟩ := h
  unfold Lexer.readToken
  dsimp only
  split
  · exact .ok true (.withCursor hd)
  · exact htwin.pull acrossLines

inductive GivesBack : Except InternalError Lexer → Except InternalError Lexer → Prop
  | ok {s t : Lexer} : Twin s t → GivesBack (.ok s) (.ok t)
  | error (e : InternalError) : GivesBack (.error e) (.error e)

theorem unreadToken (h : Twin s t) : GivesBack s.unreadToken t.unreadToken := by
  obtain ⟨hd⟩ := h
  unfold Lexer.unreadToken
  dsimp only
  split
  · exact .error _
  · split
    · exact .error _
    · exact .ok (.withCursor hd)

theorem remaining_eq (h : Twin s t) : s.remaining = t.remaining := by
  obtain ⟨hd⟩ := h
  simp only [remaining, unreadSize, hd.rest]

end Twin

/-- The lexers have the same text left and stand in the same place of the same line. The tokens read may
differ, and so may the characters that the cursors remember. -/
structure SameInput (s t : Lexer) : Prop where
  pending : s.pending = t.pending
  line : s.cursor.line = t.cursor.line
  column : s.cursor.column = t.cursor.column
  lineNumber : s.lineNumber = t.lineNumber
  held : s.held = t.held
  keepComments : s.keepComments = t.keepComments

namespace SameInput

variable {s t : Lexer} (h : SameInput s t)
include h

theorem samePlace : s.cursor.SamePlace t.cursor := by
  have hline := h.line
  rw [Cursor.line, Cursor.line] at hline
  obtain ⟨hread, hrest⟩ := List.append_inj hline (by simpa [Cursor.column] using h.column)
  exact ⟨List.reverse_inj.1 hread, hrest⟩

/-- Once the tokens read are forgotten nothing else differs. -/
theorem twin : Twin s.clearTokens t.clearTokens := by
  obtain ⟨pending, cursor, lineNumber, tokens, held, keepComments⟩ := t
  obtain rfl : s.pending = pending := h.pending
  obtain rfl : s.lineNumber = lineNumber := h.lineNumber
  obtain rfl : s.held = held := h.held
  obtain rfl : s.keepComments = keepComments := h.keepComments
  exact .withCursor h.samePlace

theorem remaining_eq : s.remaining = t.remaining := h.twin.remaining_eq

end SameInput

end Lexer

end Linewise
