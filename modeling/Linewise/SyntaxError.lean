import Linewise.Span
import Linewise.Text.Escape

namespace Linewise

inductive ErrorCode where
  | L0001
  | L0002
  | L0003
  | L0004
  | L0005
  | L0006
  | L0007
  | L0008
  | P0001
  | P0002
  | P0003
  | P0004
  | P0005
  | P0006
  | P0007
deriving DecidableEq, Repr

namespace ErrorCode

def text : ErrorCode → String
  | L0001 => "L0001"
  | L0002 => "L0002"
  | L0003 => "L0003"
  | L0004 => "L0004"
  | L0005 => "L0005"
  | L0006 => "L0006"
  | L0007 => "L0007"
  | L0008 => "L0008"
  | P0001 => "P0001"
  | P0002 => "P0002"
  | P0003 => "P0003"
  | P0004 => "P0004"
  | P0005 => "P0005"
  | P0006 => "P0006"
  | P0007 => "P0007"

end ErrorCode

inductive LexicalCause where
  | unexpectedCharacter (c : Char)
  | unterminatedChar
  | unterminatedString
  | invalidEscape (c : Char)
  | invalidCharLiteral
  | multipleDecimalPoints
  | invalidNumeralCharacter (c : Char) (float : Bool)
  | unterminatedComment
deriving DecidableEq, Repr

namespace LexicalCause

def code : LexicalCause → ErrorCode
  | unexpectedCharacter _ => .L0001
  | unterminatedChar => .L0002
  | unterminatedString => .L0003
  | invalidEscape _ => .L0004
  | invalidCharLiteral => .L0005
  | multipleDecimalPoints => .L0006
  | invalidNumeralCharacter _ _ => .L0007
  | unterminatedComment => .L0008

def message : LexicalCause → String
  | unexpectedCharacter c =>
    "unexpected character '" ++ String.ofList (Text.escapeChar c) ++ "'"
  | unterminatedChar => "unterminated char literal"
  | unterminatedString => "unterminated string literal"
  | invalidEscape c =>
    "invalid escape sequence '\\" ++ String.ofList (Text.escapeChar c) ++ "'"
  | invalidCharLiteral => "char literal must contain exactly one character"
  | multipleDecimalPoints => "too many decimal points in numeral"
  | invalidNumeralCharacter c float =>
    "invalid character '" ++ c.toString ++ "' for " ++ (if float then "float" else "integer")
  | unterminatedComment => "unterminated multi-line comment"

end LexicalCause

structure LexicalError where
  cause : LexicalCause
  span : Span
deriving DecidableEq, Repr

inductive GrammarCause where
  | expected (what : String) (found : String)
  | unexpected (found : String)
  | unterminated (construct : String)
  | unexpectedComma
  | keywordAsFunctionName (word : String)
  | unsupportedKeyword (word : String)
  | invalidAssignmentTarget
  | nestingTooDeep (limit : Nat)
deriving DecidableEq, Repr

namespace GrammarCause

def code : GrammarCause → ErrorCode
  | expected _ _ | unexpected _ => .P0001
  | unterminated _ => .P0002
  | unexpectedComma => .P0003
  | keywordAsFunctionName _ => .P0004
  | unsupportedKeyword _ => .P0005
  | invalidAssignmentTarget => .P0006
  | nestingTooDeep _ => .P0007

def message : GrammarCause → String
  | expected what found => "expected " ++ what ++ ", got " ++ found
  | unexpected found => "unexpected " ++ found
  | unterminated construct => "unterminated " ++ construct
  | unexpectedComma => "unexpected comma"
  | keywordAsFunctionName word =>
    "functions are not allowed keywords as their names, got '" ++ word ++ "'"
  | unsupportedKeyword word => "unsupported keyword construct '" ++ word ++ "'"
  | invalidAssignmentTarget => "invalid assignment target, expected a variable"
  | nestingTooDeep limit =>
    "expression nesting is too deep (maximum " ++ toString limit ++ " levels)"

end GrammarCause

structure GrammarError where
  cause : GrammarCause
  span : Option Span
deriving DecidableEq, Repr

inductive SyntaxError where
  | lexical (error : LexicalError)
  | grammar (error : GrammarError)
deriving DecidableEq, Repr

namespace SyntaxError

def code : SyntaxError → ErrorCode
  | lexical e => e.cause.code
  | grammar e => e.cause.code

def message : SyntaxError → String
  | lexical e => e.cause.message
  | grammar e => e.cause.message

def span? : SyntaxError → Option Span
  | lexical e => some e.span
  | grammar e => e.span

end SyntaxError

/-- A call that the state of a lexer or parser does not allow, or an assertion that does not hold. -/
inductive InternalError where
  | noCharacterToUnread
  | tokenAlreadyUnread
  | noTokenToUnread
  | noCurrentCharacter
  | notAnOperator (c : Char)
  | notAVariable
  | notALiteral
  | columnsReversed
  | linesReversed
  | notNested
  | notEnclosed
  | outOfFuel
deriving DecidableEq, Repr

namespace InternalError

def message : InternalError → String
  | noCharacterToUnread => "un_get_chr without a character to push back"
  | tokenAlreadyUnread => "un_lex called twice without an intervening lex"
  | noTokenToUnread => "un_lex called with an empty token stream"
  | noCurrentCharacter => "lex_next called without a current character"
  | notAnOperator c => "'" ++ c.toString ++ "' does not start an operator"
  | notAVariable => "identifier token rejected as variable"
  | notALiteral => "literal token rejected as literal"
  | columnsReversed => "assertion failed: start <= end"
  | linesReversed => "assertion failed: line <= end_line"
  | notNested => "leave_nesting called without matching enter_nesting"
  | notEnclosed => "attempt to subtract with overflow"
  | outOfFuel => "parsing made no progress"

end InternalError

/-- Why a run gives no result: the text is at fault, or the caller is. -/
inductive Failure (ε : Type) where
  | rejected (error : ε)
  | internal (error : InternalError)
deriving DecidableEq, Repr

namespace Failure

def map {ε ε' : Type} (f : ε → ε') : Failure ε → Failure ε'
  | rejected e => rejected (f e)
  | internal e => internal e

end Failure

end Linewise
