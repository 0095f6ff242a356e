import Linewise.Span
import Linewise.Text.Line

namespace Linewise

open Text

structure ByteRange where
  offset : Nat
  length : Nat
deriving DecidableEq, Repr

namespace ByteRange

def stop (r : ByteRange) : Nat := r.offset + r.length

end ByteRange

namespace Position

def lineOf (p : Position) (source : List Char) : Option (List Char) :=
  if p.line = 0 then none else ((pieces source)[p.line - 1]?).map trimTerminators

def textBefore (p : Position) (source : List Char) : List Char :=
  match p.lineOf source with
  | none => source
  | some line => ((pieces source).take (p.line - 1)).flatten ++ line.take p.column

def charAt (p : Position) (source : List Char) : Option Char :=
  p.lineOf source >>= fun cs ↦ cs[p.column]?

def byteStart (p : Position) (source : List Char) : Nat := byteLength (p.textBefore source)

def byteStop (p : Position) (source : List Char) : Nat :=
  p.byteStart source + ((p.charAt source).map Char.utf8Size).getD 0

end Position

namespace Span

/-- The bytes that the span covers; a span that ends before it starts covers none. -/
def toBytes (s : Span) (source : List Char) : ByteRange :=
  let first := s.start.byteStart source
  ⟨first, max (s.stop.byteStop source) first - first⟩

end Span

end Linewise
