namespace Linewise

def keywords : List String :=
  ["break", "case", "class", "elif", "else", "enum", "fn", "for", "if", "import", "match", "pass",
   "return", "using", "while"]

def isKeyword (word : String) : Bool := keywords.contains word

inductive Operation where
  | modulo
  | multiplication
  | exponent
  | division
  | floorDivision
  | addition
  | subtraction
  | bitwiseAnd
  | bitwiseOr
  | bitwiseXor
  | bitwiseNot
  | leftShift
  | rightShift
deriving DecidableEq, Repr

inductive TokenKind where
  | keyword (word : String)
  | identifier (name : String)
  | char (value : Char)
  | string (value : String)
  | integer (digits : String)
  | float (digits : String)
  | operation (op : Operation)
  | assignment
  | compoundAssignment (op : Operation)
  | equalTo
  | notEqualTo
  | greaterThan
  | lessThan
  | greaterThanOrEqual
  | lessThanOrEqual
  | logicalAnd
  | logicalOr
  | logicalNot
  | dot
  | arrow
  | atSign
  | openParen
  | openSquareBracket
  | openCurlyBrace
  | closeParen
  | closeSquareBracket
  | closeCurlyBrace
  | comma
  | colon
  | scopeResolution
  | lineComment
  | blockComment
deriving DecidableEq, Repr

namespace Operation

def name : Operation → String
  | modulo => "modulo"
  | multiplication => "multiplication"
  | exponent => "exponent"
  | division => "division"
  | floorDivision => "floor division"
  | addition => "addition"
  | subtraction => "subtraction"
  | bitwiseAnd => "bitwise AND"
  | bitwiseOr => "bitwise OR"
  | bitwiseXor => "bitwise XOR"
  | bitwiseNot => "bitwise NOT"
  | leftShift => "bitwise left shift"
  | rightShift => "bitwise right shift"

def symbol : Operation → String
  | modulo => "%"
  | multiplication => "*"
  | exponent => "**"
  | division => "/"
  | floorDivision => "//"
  | addition => "+"
  | subtraction => "-"
  | bitwiseAnd => "&"
  | bitwiseOr => "|"
  | bitwiseXor => "^"
  | bitwiseNot => "~"
  | leftShift => "<<"
  | rightShift => ">>"

end Operation

namespace TokenKind

def name : TokenKind → String
  | keyword _ => "keyword"
  | identifier _ => "identifier"
  | char _ => "char"
  | string _ => "string"
  | integer _ => "integer"
  | float _ => "float"
  | operation op => op.name ++ " operator"
  | assignment => "assignment operator"
  | compoundAssignment op => op.name ++ " assignment operator"
  | equalTo => "equal to operator"
  | notEqualTo => "not equal to operator"
  | greaterThan => "greater than operator"
  | lessThan => "less than operator"
  | greaterThanOrEqual => "greater than or equal operator"
  | lessThanOrEqual => "less than or equal operator"
  | logicalAnd => "logical and operator"
  | logicalOr => "logical or operator"
  | logicalNot => "logical not operator"
  | dot => "dot operator"
  | arrow => "arrow operator"
  | atSign => "at operator"
  | openParen => "open parenthesis"
  | openSquareBracket => "open square bracket"
  | openCurlyBrace => "open curly brace"
  | closeParen => "close parenthesis"
  | closeSquareBracket => "close square bracket"
  | closeCurlyBrace => "close curly brace"
  | comma => "comma"
  | colon => "colon"
  | scopeResolution => "scope resolution operator"
  | lineComment => "single line comment"
  | blockComment => "multi line comment"

def symbol? : TokenKind → Option String
  | keyword _ | identifier _ | char _ | string _ | integer _ | float _ => none
  | lineComment | blockComment => none
  | operation op => some op.symbol
  | assignment => some "="
  | compoundAssignment op => some (op.symbol ++ "=")
  | equalTo => some "=="
  | notEqualTo => some "!="
  | greaterThan => some ">"
  | lessThan => some "<"
  | greaterThanOrEqual => some ">="
  | lessThanOrEqual => some "<="
  | logicalAnd => some "&&"
  | logicalOr => some "||"
  | logicalNot => some "!"
  | dot => some "."
  | arrow => some "->"
  | atSign => some "@"
  | openParen => some "("
  | openSquareBracket => some "["
  | openCurlyBrace => some "\x7b"
  | closeParen => some ")"
  | closeSquareBracket => some "]"
  | closeCurlyBrace => some "\x7d"
  | comma => some ","
  | colon => some ":"
  | scopeResolution => some "::"

def withAssignment? : TokenKind → Option TokenKind
  | operation op => some (compoundAssignment op)
  | _ => none

/-- The text of a kind that carries one, a character literal left out. -/
def text? : TokenKind → Option String
  | keyword text | identifier text | string text | integer text | float text => some text
  | _ => none

def isLiteral : TokenKind → Bool
  | char _ | string _ | integer _ | float _ => true
  | _ => false

def isIdentifier : TokenKind → Bool
  | identifier _ => true
  | _ => false

def isKeyword : TokenKind → Bool
  | keyword _ => true
  | _ => false

def isComment : TokenKind → Bool
  | lineComment | blockComment => true
  | _ => false

end TokenKind

end Linewise
