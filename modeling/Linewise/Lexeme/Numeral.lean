import Linewise.SyntaxError
import Linewise.Text.Character
import Linewise.Token.Kind

namespace Linewise.Lexeme

open Text

/-- The longest continuation of a numeral, and whether it has a decimal point. -/
def numeralTail (rest : List Char) : List Char × Bool :=
  let digits := rest.takeWhile isDigit
  match rest.dropWhile isDigit with
  | '.' :: more => (digits ++ '.' :: more.takeWhile isDigit, true)
  | _ => (digits, false)

def numeral (first : Char) (rest : List Char) : Except LexicalCause TokenKind × Nat :=
  let (tail, float) := numeralTail rest
  let text := String.ofList (first :: tail)
  let kind := if float then TokenKind.float text else TokenKind.integer text
  match rest.drop tail.length with
  | [] => (.ok kind, tail.length)
  | x :: _ =>
    if float && x == '.' then (.error .multipleDecimalPoints, tail.length + 1)
    else if isWordStart x then (.error (.invalidNumeralCharacter x float), tail.length + 1)
    else (.ok kind, tail.length)

end Linewise.Lexeme
