namespace Linewise.Lexeme

/-- The number of characters up to the end of a block comment, if it ends among them; `star` says
whether a star comes directly before them. -/
def commentLength? (star : Bool) : List Char → Option Nat
  | [] => none
  | c :: rest =>
    if star && c == '/' then some 1 else (commentLength? (c == '*') rest).map (· + 1)

structure CommentEnd where
  /-- The number of lines in front of the one where it ends. -/
  skipped : Nat
  line : List Char
  /-- The number of characters of that line that belong to the comment. -/
  length : Nat
  /-- The lines after that one. -/
  pending : List (List Char)
deriving DecidableEq, Repr

def commentEnd? : List (List Char) → Option CommentEnd
  | [] => none
  | line :: pending => match commentLength? false line with
    | some length => some ⟨0, line, length, pending⟩
    | none => (commentEnd? pending).map fun e ↦ { e with skipped := e.skipped + 1 }

end Linewise.Lexeme
