import Linewise.Settings.Basic

namespace Linewise.Render

structure Glyphs where
  error : Char
  horizontal : Char
  vertical : Char
  verticalBreak : Char
  topCorner : Char
  bottomCorner : Char
  cross : Char
  rightArrow : Char
  upArrow : Char
  underline : Char
  underlineStem : Char

def Glyphs.unicode : Glyphs where
  error := '×'
  horizontal := '─'
  vertical := '│'
  verticalBreak := '·'
  topCorner := '╭'
  bottomCorner := '╰'
  cross := '├'
  rightArrow := '▶'
  upArrow := '▲'
  underline := '─'
  underlineStem := '┬'

def Glyphs.ascii : Glyphs where
  error := 'x'
  horizontal := '-'
  vertical := '|'
  verticalBreak := ':'
  topCorner := ','
  bottomCorner := '\x60'
  cross := '|'
  rightArrow := '>'
  upArrow := '^'
  underline := '^'
  underlineStem := '|'

inductive Style where
  | error
  | link
  | lineNumber
  | highlight

def Style.parameters : Style → String
  | error => "31"
  | link => "36;1;4"
  | lineNumber => "2"
  | highlight => "35;1"

structure Theme where
  glyphs : Glyphs
  color : Bool

namespace Theme

def ofDisplay (d : Display) : Theme := ⟨if d.unicode then .unicode else .ascii, d.color⟩

def paint (t : Theme) (style : Style) (text : String) : String :=
  if t.color then "\x1b[" ++ style.parameters ++ "m" ++ text ++ "\x1b[0m" else text

end Theme

def times (n : Nat) (c : Char) : String := String.ofList (List.replicate n c)

def spaces (n : Nat) : String := times n ' '

end Linewise.Render
