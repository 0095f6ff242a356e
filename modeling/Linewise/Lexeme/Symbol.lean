import Linewise.Token.Kind

namespace Linewise.TokenKind

def ofDelimiter? (c : Char) : Option TokenKind :=
  if c = ',' then some comma
  else if c = '(' then some openParen
  else if c = ')' then some closeParen
  else if c = '[' then some openSquareBracket
  else if c = ']' then some closeSquareBracket
  else if c = '\x7b' then some openCurlyBrace
  else if c = '\x7d' then some closeCurlyBrace
  else if c = '@' then some atSign
  else if c = '.' then some dot
  else none

def ofOperator? (c : Char) : Option TokenKind :=
  if c = '=' then some assignment
  else if c = '*' then some (operation .multiplication)
  else if c = '/' then some (operation .division)
  else if c = '%' then some (operation .modulo)
  else if c = '+' then some (operation .addition)
  else if c = '-' then some (operation .subtraction)
  else if c = '&' then some (operation .bitwiseAnd)
  else if c = '|' then some (operation .bitwiseOr)
  else if c = '^' then some (operation .bitwiseXor)
  else if c = '~' then some (operation .bitwiseNot)
  else if c = '<' then some lessThan
  else if c = '>' then some greaterThan
  else if c = '!' then some logicalNot
  else if c = ':' then some colon
  else none

/-- The symbols that are longer by one character, each with that character. -/
def extensions : TokenKind → List (Char × TokenKind)
  | assignment => [('=', equalTo)]
  | lessThan => [('<', operation .leftShift), ('=', lessThanOrEqual)]
  | greaterThan => [('>', operation .rightShift), ('=', greaterThanOrEqual)]
  | logicalNot => [('=', notEqualTo)]
  | colon => [(':', scopeResolution)]
  | operation .multiplication =>
    [('*', operation .exponent), ('=', compoundAssignment .multiplication)]
  | operation .division =>
    [('/', operation .floorDivision), ('=', compoundAssignment .division)]
  | operation .bitwiseAnd => [('&', logicalAnd), ('=', compoundAssignment .bitwiseAnd)]
  | operation .bitwiseOr => [('|', logicalOr), ('=', compoundAssignment .bitwiseOr)]
  | operation .subtraction => [('>', arrow), ('=', compoundAssignment .subtraction)]
  | operation op => [('=', compoundAssignment op)]
  | _ => []

end Linewise.TokenKind
