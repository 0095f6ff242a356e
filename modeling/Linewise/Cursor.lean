namespace Linewise

/-- A place between two characters of a line. -/
structure Cursor where
  /-- The characters in front of the cursor, the nearest first. -/
  read : List Char
  /-- The characters behind it. -/
  rest : List Char
  /-- The character handed out last. -/
  current : Option Char
  /-- The character handed out before that one. -/
  previous : Option Char
  /-- Whether the last move was a step back. -/
  steppedBack : Bool
deriving DecidableEq, Repr

namespace Cursor

def ofLine (line : List Char) : Cursor := ⟨[], line, none, none, false⟩

def line (c : Cursor) : List Char := c.read.reverse ++ c.rest

def column (c : Cursor) : Nat := c.read.length

/-- The index of the character read last. -/
def position (c : Cursor) : Nat := c.column - 1

def withoutLine (c : Cursor) : Cursor := { c with read := [], rest := [] }

def next? (c : Cursor) : Option (Char × Cursor) :=
  match c.rest with
  | [] => none
  | x :: rest => some (x, ⟨x :: c.read, rest, some x, c.current, false⟩)

/-- Takes back the character read last; two steps back in a row are not possible. -/
def stepBack? (c : Cursor) : Option Cursor :=
  if c.steppedBack then none
  else match c.read with
    | [] => none
    | x :: read => some ⟨read, x :: c.rest, c.previous, c.previous, true⟩

def forward : Nat → Cursor → Cursor
  | 0, c => c
  | n + 1, c => match c.next? with
    | none => c
    | some (_, c) => forward n c

def peek (c : Cursor) : Cursor :=
  match c.next? with
  | none => c
  | some (_, ahead) => ahead.stepBack?.getD c

def nextIs (expected : Char) (c : Cursor) : Bool × Cursor :=
  match c.next? with
  | none => (false, c)
  | some (x, ahead) => if x = expected then (true, ahead) else (false, ahead.stepBack?.getD c)

theorem next?_eq_none_iff {c : Cursor} : c.next? = none ↔ c.rest = [] := by
  unfold next?
  split <;> simp [*]

theorem rest_of_next? {c d : Cursor} {x : Char} (h : c.next? = some (x, d)) :
    c.rest = x :: d.rest := by
  unfold next? at h
  split at h <;> cases h
  assumption

theorem forward_rest (n : Nat) (c : Cursor) : (c.forward n).rest = c.rest.drop n := by
  induction n generalizing c with
  | zero => rfl
  | succ n ih =>
    rw [forward]
    split
    · next h => simp [next?_eq_none_iff.1 h]
    · next h => rw [ih, rest_of_next? h, List.drop_succ_cons]

theorem stepBack?_rest {c ahead : Cursor} {x : Char} (h : c.next? = some (x, ahead)) :
    (ahead.stepBack?.getD c).rest = c.rest := by
  unfold next? at h
  split at h <;> cases h
  simp [stepBack?, *]

theorem peek_rest (c : Cursor) : c.peek.rest = c.rest := by
  unfold peek
  split
  · rfl
  · next h => exact stepBack?_rest h

theorem nextIs_rest_length_le (x : Char) (c : Cursor) :
    (c.nextIs x).2.rest.length ≤ c.rest.length := by
  unfold nextIs
  split
  · exact Nat.le_refl _
  · next h =>
    split
    · simp [rest_of_next? h]
    · simp [stepBack?_rest h]

end Cursor

end Linewise
