import Linewise.Cursor
import Linewise.SyntaxError
import Linewise.Text.Character
import Linewise.Text.Line
import Linewise.Token

namespace Linewise

/-- The state of reading one text. -/
structure Lexer where
  /-- The lines after the current one. -/
  pending : List (List Char)
  /-- The place in the current line. -/
  cursor : Cursor
  /-- The number of the current line, from 1, and 0 before the first one is read. -/
  lineNumber : Nat
  /-- The tokens read since the last `clearTokens`. -/
  tokens : Array Token
  /-- A token that was given back. -/
  held : Option Token
  /-- Whether comments count as tokens. -/
  keepComments : Bool
deriving DecidableEq, Repr

namespace Lexer

open Text

def ofText (source : List Char) (keepComments : Bool) : Lexer :=
  ⟨lines source, .ofLine [], 0, #[], none, keepComments⟩

def ofSource (source : String) (keepComments : Bool) : Lexer :=
  ofText source.toList keepComments

def lastToken? (s : Lexer) : Option Token := s.tokens.back?

/-- The size of some lines: a character counts one, and so does the end of a line. -/
def linesSize : List (List Char) → Nat
  | [] => 0
  | line :: more => line.length + 1 + linesSize more

def unreadSize (s : Lexer) : Nat := s.cursor.rest.length + linesSize s.pending

/-- Moves to the next line that is not blank, unless there is more to read on the current line and
the move is not forced; says whether there is such a line. -/
def advanceLine (force : Bool) (s : Lexer) : Bool × Lexer :=
  if !force && !s.cursor.rest.isEmpty then (true, s)
  else match s.pending.dropWhile (·.all isBlank) with
    | [] =>
      (false, { s with
        pending := [], cursor := s.cursor.withoutLine,
        lineNumber := s.lineNumber + s.pending.length })
    | line :: pending =>
      (true, { s with
        pending, cursor := .ofLine line,
        lineNumber := s.lineNumber + (s.pending.length - pending.length) })

def nextChar? (skipBlanks : Bool) (c : Cursor) : Option Char × Cursor :=
  let c := if skipBlanks then c.forward (c.rest.takeWhile isBlank).length else c
  match c.next? with
  | none => (none, c)
  | some (x, c) => (some x, c)

def readChar (skipBlanks : Bool) (s : Lexer) : Bool × Lexer :=
  let (x, cursor) := nextChar? skipBlanks s.cursor
  (x.isSome, { s with cursor })

def unreadChar (s : Lexer) : Except InternalError Lexer :=
  match s.cursor.stepBack? with
  | none => .error .noCharacterToUnread
  | some cursor => .ok { s with cursor }

theorem unreadSize_le_of_cursor {s : Lexer} {c : Cursor}
    (h : c.rest.length ≤ s.cursor.rest.length) :
    unreadSize { s with cursor := c } ≤ s.unreadSize :=
  Nat.add_le_add_right h _

theorem unreadSize_lt_of_cursor {s : Lexer} {c : Cursor}
    (h : c.rest.length < s.cursor.rest.length) :
    unreadSize { s with cursor := c } < s.unreadSize :=
  Nat.add_lt_add_right h _

theorem nextChar?_none {b : Bool} {c d : Cursor} (h : nextChar? b c = (none, d)) :
    d.rest = [] := by
  unfold nextChar? at h
  dsimp only at h
  split at h <;> cases h
  next hn => exact Cursor.next?_eq_none_iff.1 hn

theorem nextChar?_some {b : Bool} {c d : Cursor} {x : Char} (h : nextChar? b c = (some x, d)) :
    d.rest.length < c.rest.length := by
  unfold nextChar? at h
  dsimp only at h
  split at h <;> cases h
  next hn =>
  have := congrArg List.length (Cursor.rest_of_next? hn)
  split at this
  · simp only [Cursor.forward_rest, List.length_drop, List.length_cons] at this
    omega
  · simp only [List.length_cons] at this
    omega

theorem unreadSize_of_advanceLine_false {s t : Lexer} (h : s.advanceLine false = (false, t)) :
    t.unreadSize ≤ s.unreadSize := by
  unfold advanceLine at h
  split at h
  · cases h
  · split at h <;> cases h
    simp [unreadSize, linesSize, Cursor.withoutLine]

structure SameTokens (s t : Lexer) : Prop where
  tokens : t.tokens = s.tokens
  held : t.held = s.held
  keepComments : t.keepComments = s.keepComments

theorem sameTokens_of_advanceLine {b r : Bool} {s t : Lexer} (h : s.advanceLine b = (r, t)) :
    SameTokens s t := by
  unfold advanceLine at h
  repeat' split at h
  all_goals
    cases h
    exact ⟨rfl, rfl, rfl⟩

theorem unreadSize_of_advanceLine {s t : Lexer} (h : s.advanceLine false = (true, t))
    (hr : s.cursor.rest = []) : t.unreadSize < s.unreadSize := by
  unfold advanceLine at h
  simp only [hr] at h
  simp at h
  split at h <;> cases h
  next line pending hd =>
  have : ∀ ls : List (List Char), ls.dropWhile (·.all isBlank) = line :: pending →
      line.length + 1 + linesSize pending ≤ linesSize ls := by
    intro ls
    induction ls with
    | nil => simp
    | cons l ls ih =>
      intro h
      rw [List.dropWhile_cons] at h
      split at h
      · have := ih h
        simp only [linesSize]
        omega
      · cases h
        exact Nat.le_refl _
  have := this _ hd
  simp only [unreadSize, Cursor.ofLine]
  omega

end Lexer

end Linewise
