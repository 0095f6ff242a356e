import Linewise.Cursor
import Linewise.Lexeme.Numeral
import Linewise.Lexeme.Quoted
import Linewise.Lexeme.Symbol
import Linewise.SyntaxError
import Linewise.Text.Character

namespace Linewise

/-- What the characters at some place of a line are: a token, or an error. -/
structure Lexeme where
  outcome : Except LexicalCause TokenKind
  /-- The columns of the first and the last character that the outcome is about. -/
  first : Nat
  last : Nat
  /-- The cursor after the characters that were read. -/
  cursor : Cursor

namespace Cursor

def firstOf : List (Char × TokenKind) → Cursor → Option TokenKind × Cursor
  | [], c => (none, c)
  | (x, kind) :: more, c => match c.nextIs x with
    | (true, c) => (some kind, c)
    | (false, c) => firstOf more c

/-- The symbol that a symbol and the next character make, or else the symbol alone. -/
def grow (kind : TokenKind) (c : Cursor) : TokenKind × Cursor :=
  match c.firstOf kind.extensions with
  | (some longer, c) => (longer, c)
  | (none, c) => (kind, c)

theorem firstOf_rest_length_le (options : List (Char × TokenKind)) (c : Cursor) :
    (c.firstOf options).2.rest.length ≤ c.rest.length := by
  induction options generalizing c with
  | nil => exact Nat.le_refl _
  | cons o more ih =>
    have step := nextIs_rest_length_le o.1 c
    rw [firstOf]
    split
    · next h => rwa [h] at step
    · next h => exact Nat.le_trans (ih _) (by rwa [h] at step)

theorem grow_rest_length_le (kind : TokenKind) (c : Cursor) :
    (c.grow kind).2.rest.length ≤ c.rest.length := by
  have step := firstOf_rest_length_le kind.extensions c
  unfold grow
  split <;> next h => rwa [h] at step

end Cursor

namespace Lexeme

open Text

def token (kind : TokenKind) (start : Nat) (c : Cursor) : Lexeme :=
  ⟨.ok kind, start, c.position, c⟩

/-- A symbol that others begin with; no symbol has more than three characters. -/
def ofOperator (kind : TokenKind) (c : Cursor) : Lexeme :=
  let (kind, d) := c.grow kind
  let (kind, d) := d.grow kind
  token kind c.position d

def ofLineComment (c : Cursor) : Lexeme :=
  token .lineComment c.position (c.forward c.rest.length)

def ofQuoted (quote : Char) (c : Cursor) : Lexeme :=
  let start := c.position
  let (ending, n) := quoted quote c.rest
  let d := c.forward n
  match ending with
  | .closed value => ⟨literal quote value, start, d.position, d⟩
  | .badEscape x => ⟨.error (.invalidEscape x), d.position - 1, d.position, d⟩
  | .unclosed => ⟨.error (unterminated quote), start, start, d⟩

def ofNumeral (first : Char) (c : Cursor) : Lexeme :=
  match numeral first c.rest with
  | (.ok kind, n) => token kind c.position (c.forward n).peek
  | (.error cause, n) =>
    let d := c.forward n
    ⟨.error cause, d.position, d.position, d⟩

def wordKind (word : String) : TokenKind :=
  if isKeyword word then .keyword word else .identifier word

def ofWord (first : Char) (c : Cursor) : Lexeme :=
  let tail := c.rest.takeWhile isWordPart
  token (wordKind (String.ofList (first :: tail))) c.position (c.forward tail.length).peek

def read (first : Char) (c : Cursor) : Lexeme :=
  match TokenKind.ofDelimiter? first with
  | some kind => token kind c.position c
  | none => match TokenKind.ofOperator? first with
    | some kind => ofOperator kind c
    | none =>
      if first = '#' then ofLineComment c
      else if first = '\'' || first = '"' then ofQuoted first c
      else if isDigit first then ofNumeral first c
      else if isWordStart first then ofWord first c
      else ⟨.error (.unexpectedCharacter first), c.position, c.position, c⟩

theorem read_rest_length_le (first : Char) (c : Cursor) :
    (read first c).cursor.rest.length ≤ c.rest.length := by
  have ahead (n : Nat) : (c.forward n).rest.length ≤ c.rest.length := by
    simp [Cursor.forward_rest]
  unfold read
  split
  · exact Nat.le_refl _
  split
  · exact Nat.le_trans (Cursor.grow_rest_length_le _ _) (Cursor.grow_rest_length_le _ _)
  split
  · exact ahead _
  split
  · unfold ofQuoted
    dsimp only
    split <;> exact ahead _
  split
  · unfold ofNumeral
    split
    · simpa [token, Cursor.peek_rest] using ahead _
    · exact ahead _
  split
  · simpa [ofWord, token, Cursor.peek_rest] using ahead _
  · exact Nat.le_refl _

end Lexeme

end Linewise
