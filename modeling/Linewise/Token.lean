import Linewise.Span
import Linewise.Text.Escape
import Linewise.Token.Kind

namespace Linewise

structure Token where
  kind : TokenKind
  span : Span
deriving DecidableEq, Repr

namespace TokenKind

def display : TokenKind → String
  | keyword text | identifier text | integer text | float text => text
  | string value => "\"" ++ Text.escape value ++ "\""
  | char value => "'" ++ String.ofList (Text.escapeChar value) ++ "'"
  | lineComment => "#"
  | blockComment => "/* */"
  | k => k.symbol?.getD ""

def describe (k : TokenKind) : String :=
  match k.symbol? with
  | some symbol => "'" ++ symbol ++ "'"
  | none => if k.isComment then k.name else k.name ++ " '" ++ k.display ++ "'"

end TokenKind

end Linewise
