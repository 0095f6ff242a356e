import Linewise.SyntaxError
import Linewise.Token.Kind

namespace Linewise.Lexeme

def unescape? (c : Char) : Option Char :=
  if c = 'b' then some '\x08'
  else if c = 'f' then some '\x0c'
  else if c = 'n' then some '\n'
  else if c = 't' then some '\t'
  else if c = 'v' then some '\x0b'
  else if c = '\'' || c = '"' || c = '\\' then some c
  else none

inductive Quoted where
  /-- A closing quote follows the value. -/
  | closed (value : List Char)
  /-- A backslash pair that stands for nothing comes first. -/
  | badEscape (c : Char)
  /-- The line ends first. -/
  | unclosed
deriving DecidableEq, Repr

namespace Quoted

def push (c : Char) : Quoted → Quoted
  | closed value => closed (c :: value)
  | q => q

end Quoted

def quoted (quote : Char) : List Char → Quoted × Nat
  | [] => (.unclosed, 0)
  | c :: rest =>
    if c = quote then (.closed [], 1)
    else if c = '\\' then
      match rest with
      | [] => (.unclosed, 1)
      | e :: rest => match unescape? e with
        | none => (.badEscape e, 2)
        | some value =>
          let (more, n) := quoted quote rest
          (more.push value, n + 2)
    else
      let (more, n) := quoted quote rest
      (more.push c, n + 1)

def literal (quote : Char) (value : List Char) : Except LexicalCause TokenKind :=
  if quote = '"' then .ok (.string (String.ofList value))
  else match value with
    | [c] => .ok (.char c)
    | _ => .error .invalidCharLiteral

def unterminated (quote : Char) : LexicalCause :=
  if quote = '"' then .unterminatedString else .unterminatedChar

end Linewise.Lexeme
