namespace Linewise

/-- The place of one character: its line, from 1, and its column in characters, from 0. Natural numbers stand for
numbers of 32 bits here: a text is taken to have fewer than `2 ^ 32` lines, and fewer than `2 ^ 32` characters on
each of them. -/
structure Position where
  line : Nat
  column : Nat
deriving DecidableEq, Repr

namespace Position

protected def le (p q : Position) : Prop :=
  p.line < q.line ∨ (p.line = q.line ∧ p.column ≤ q.column)

instance : LE Position := ⟨Position.le⟩

instance (p q : Position) : Decidable (p ≤ q) :=
  inferInstanceAs (Decidable (p.line < q.line ∨ (p.line = q.line ∧ p.column ≤ q.column)))

instance : Min Position := minOfLe
instance : Max Position := maxOfLe

theorem le_def {p q : Position} :
    p ≤ q ↔ p.line < q.line ∨ (p.line = q.line ∧ p.column ≤ q.column) := Iff.rfl

theorem le_refl (p : Position) : p ≤ p := .inr ⟨rfl, Nat.le_refl _⟩

theorem le_trans {p q r : Position} (hpq : p ≤ q) (hqr : q ≤ r) : p ≤ r := by
  rw [le_def] at *
  omega

theorem le_total (p q : Position) : p ≤ q ∨ q ≤ p := by
  simp only [le_def]
  omega

end Position

/-- A stretch of source text, given by the positions of its first and its last character. -/
structure Span where
  start : Position
  stop : Position
deriving DecidableEq, Repr

namespace Span

def onLine (line first last : Nat) : Span := ⟨⟨line, first⟩, ⟨line, last⟩⟩

def point (line column : Nat) : Span := onLine line column column

def isMultiLine (s : Span) : Bool := s.start.line != s.stop.line

def width (s : Span) : Nat := s.stop.column - s.start.column + 1

def merge (s t : Span) : Span := ⟨min s.start t.start, max s.stop t.stop⟩

end Span

end Linewise
