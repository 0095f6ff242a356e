import Linewise.Span.Bytes
import Linewise.Text.Bytes

namespace Linewise.Render

open Text

/-- A part of a text, with the numbers of its first line and column, counted from 0 and columns
counted in bytes. -/
structure Window where
  start : Nat
  text : List Char
  firstLine : Nat
  firstColumn : Nat
deriving DecidableEq, Repr

namespace Window

structure Search where
  offset : Nat
  firstLine : Nat
  firstColumn : Nat
  /-- The start of the current line, and the starts of the last lines in front of the range. -/
  lineStart : Nat
  before : List Nat
  /-- The number of whole lines after the range. -/
  after : Nat
  /-- Whether the range has ended, and whether a line has ended since. -/
  past : Bool
  lineEnded : Bool

def Search.start : Search := ⟨0, 0, 0, 0, [], 0, false, false⟩

variable (range : ByteRange) (n : Nat)

/-- Goes on after the character whose last byte is at `last`; says whether the window ends. -/
def Search.advance (last : Nat) (s : Search) : Search × Bool :=
  let t := { s with offset := last + 1 }
  if range.stop - 1 ≤ last then ({ t with past := true }, n ≤ t.after) else (t, false)

def Search.char (size : Nat) (s : Search) : Search × Bool :=
  Search.advance range n (s.offset + size - 1)
    (if s.offset < range.offset then { s with firstColumn := s.firstColumn + size } else s)

def Search.lineBefore (s : Search) : Search :=
  let before := s.before ++ [s.lineStart]
  if n < before.length then
    { s with firstColumn := 0, firstLine := s.firstLine + 1, before := before.tail }
  else { s with firstColumn := 0, before }

def Search.lineAfter (s : Search) : Search :=
  if s.lineEnded then { s with firstColumn := 0, after := s.after + 1 }
  else { s with firstColumn := 0, lineEnded := true }

def Search.lineEnd (size : Nat) (s : Search) : Search × Bool :=
  let last := s.offset + size - 1
  let t :=
    if last < range.offset then s.lineBefore n
    else if range.offset + (range.length - 1) ≤ last && s.past then s.lineAfter
    else s
  Search.advance range n last { t with lineStart := last + 1 }

def Search.run : List Char → Search → Search
  | [], s => s
  | '\r' :: '\n' :: rest, s =>
    let (t, done) := s.lineEnd range n 2
    if done then t else Search.run rest t
  | c :: rest, s =>
    let (t, done) :=
      if c = '\r' || c = '\n' then s.lineEnd range n 1 else s.char range n c.utf8Size
    if done then t else Search.run rest t

/-- The window around a range, with up to `n` lines before and after; there is none for a range
that goes past the end of the text. -/
def around? (source : List Char) : Option Window :=
  let s := Search.run range n source .start
  if range.stop - 1 ≤ s.offset then
    let start := s.before.head?.getD (if n = 0 then range.offset else 0)
    some ⟨start, takeBytes (s.offset - start) (dropBytes start source), s.firstLine,
      if n = 0 then s.firstColumn else 0⟩
  else none

end Window

end Linewise.Render
