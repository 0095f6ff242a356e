import Linewise.Render.Window
import Linewise.Text.Columns

namespace Linewise.Render

open Text

structure Row where
  number : Nat
  offset : Nat
  length : Nat
  text : List Char
deriving DecidableEq, Repr

/-- Numbers the lines of a text, given the number of lines and bytes in front of them. A last line
that ends in a lone carriage return is counted with the line before it. -/
def rowsFrom (line offset : Nat) : List (List Char) → List Row
  | [] => []
  | piece :: more =>
    let number := if piece.getLast? = some '\r' then line else line + 1
    ⟨number, offset, byteLength piece, dropTerminator piece⟩ ::
      rowsFrom (line + 1) (offset + byteLength piece) more

def Window.rows (w : Window) : List Row := rowsFrom w.firstLine w.start (pieces w.text)

namespace Row

variable (row : Row) (range : ByteRange)

def stop : Nat := row.offset + row.length

/-- An empty range is drawn like one of a single byte. -/
def drawnStop : Nat := range.offset + max range.length 1

def holdsStart : Bool := row.offset ≤ range.offset && range.offset < row.stop

def holdsStop : Bool := row.offset < drawnStop range && drawnStop range ≤ row.stop

def meets : Bool :=
  row.holdsStart range || (range.offset < row.offset && row.stop < drawnStop range) ||
    row.holdsStop range

def contains : Bool := row.offset ≤ range.offset && range.stop ≤ row.stop

def inGutter : Bool := row.meets range && !(row.holdsStart range && row.holdsStop range)

def startsBefore : Bool := range.offset < row.offset

def ends : Bool := row.offset ≤ range.stop && range.stop ≤ row.stop

def columnOf (offset : Nat) : Nat :=
  let index := offset - row.offset
  if byteLength row.text < index then totalColumns row.text + 1
  else totalColumns (takeBytes index row.text)

end Row

end Linewise.Render
