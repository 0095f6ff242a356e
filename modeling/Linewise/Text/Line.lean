namespace Linewise.Text

def addInFront (c : Char) (lines : List (List Char)) : List (List Char) :=
  if c = '\n' then [c] :: lines
  else match lines with
    | [] => [[c]]
    | line :: more => (c :: line) :: more

def pieces (text : List Char) : List (List Char) := text.foldr addInFront []

/-- A line without its line feed, and without a carriage return in front of it. -/
def dropTerminator (line : List Char) : List Char :=
  if line.getLast? = some '\n' then
    let body := line.dropLast
    if body.getLast? = some '\r' then body.dropLast else body
  else line

def lines (text : List Char) : List (List Char) := (pieces text).map dropTerminator

def isTerminator (c : Char) : Bool := c == '\n' || c == '\r'

/-- A line without any carriage returns and line feeds at its end. -/
def trimTerminators (line : List Char) : List Char :=
  (line.reverse.dropWhile isTerminator).reverse

def byteLength : List Char → Nat
  | [] => 0
  | c :: cs => c.utf8Size + byteLength cs

@[simp]
theorem byteLength_append (cs ds : List Char) :
    byteLength (cs ++ ds) = byteLength cs + byteLength ds := by
  induction cs with
  | nil => simp [byteLength]
  | cons c cs ih => simp [byteLength, ih, Nat.add_assoc]

theorem addInFront_flatten (c : Char) (ls : List (List Char)) :
    (addInFront c ls).flatten = c :: ls.flatten := by
  unfold addInFront
  split
  · simp
  · split <;> simp

/-- Cutting a text into lines loses nothing. -/
theorem pieces_flatten (text : List Char) : (pieces text).flatten = text := by
  induction text with
  | nil => rfl
  | cons c cs ih => rw [pieces, List.foldr_cons, addInFront_flatten, ← pieces, ih]

end Linewise.Text
