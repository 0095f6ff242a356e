import Linewise.Diagnostic
import Linewise.Render.Row
import Linewise.Render.Theme

namespace Linewise.Render

structure Frame where
  theme : Theme
  /-- The width of the line numbers. -/
  width : Nat
  /-- Whether a bracket is drawn at the left of the lines. -/
  gutter : Bool
  range : ByteRange
  label : String

namespace Frame

variable (f : Frame)

def glyphs : Glyphs := f.theme.glyphs

def mark (text : String) : String := f.theme.paint .highlight text

def markChar (c : Char) : String := f.mark c.toString

def numbered (number : Nat) : String :=
  let digits := toString number
  " " ++ f.theme.paint .lineNumber (spaces (f.width - digits.length) ++ digits) ++ " " ++
    f.glyphs.vertical.toString ++ " "

def unnumbered : String :=
  " " ++ spaces f.width ++ " " ++ f.glyphs.verticalBreak.toString ++ " "

def bracket (row : Row) : String :=
  if !f.gutter then ""
  else if !row.inGutter f.range then spaces 4
  else
    let arrow := f.markChar f.glyphs.horizontal ++ f.markChar f.glyphs.rightArrow ++ spaces 1
    if !row.startsBefore f.range then f.markChar f.glyphs.topCorner ++ arrow
    else if row.ends f.range then f.markChar f.glyphs.cross ++ arrow
    else f.markChar f.glyphs.vertical ++ spaces 3

def textLine (row : Row) : String :=
  f.numbered row.number ++ f.bracket row ++ String.ofList (Text.expandTabs row.text) ++ "\n"

def underline (row : Row) : String :=
  let first := row.columnOf f.range.offset
  let last :=
    if f.range.length = 0 then first + 1 else max (row.columnOf f.range.stop) (first + 1)
  let middle := (first + last) / 2
  let stem := if f.range.length = 0 then f.glyphs.upArrow else f.glyphs.underlineStem
  let indent := f.unnumbered ++ if f.gutter then spaces 4 else ""
  let line := spaces first ++ times (middle - first) f.glyphs.underline ++ stem.toString ++
    times (last - middle - 1) f.glyphs.underline
  let hook := f.glyphs.bottomCorner.toString ++ times 2 f.glyphs.horizontal ++ " "
  indent ++ f.mark line ++ "\n" ++
    indent ++ spaces middle ++ f.mark (hook ++ f.mark f.label) ++ "\n"

def bracketEnd : String :=
  f.unnumbered ++ f.markChar f.glyphs.bottomCorner ++ f.mark (times 3 f.glyphs.horizontal) ++
    f.markChar f.glyphs.horizontal ++ " " ++ f.mark f.label ++ "\n"

def marks (row : Row) : String :=
  if !row.meets f.range then ""
  else if row.contains f.range then f.underline row
  else if row.ends f.range && row.startsBefore f.range then f.bracketEnd
  else ""

def row (r : Row) : String := f.textLine r ++ f.marks r

end Frame

def place (path : String) (w : Window) : String :=
  path ++ ":" ++ toString (w.firstLine + 1) ++ ":" ++ toString (w.firstColumn + 1)

def snippet (display : Display) (d : Diagnostic) : String :=
  let source := d.source.toList
  match Window.around? d.range display.contextLines source, Window.around? d.range 0 source with
  | some w, some focus =>
    let rows := w.rows
    let theme := Theme.ofDisplay display
    let f : Frame :=
      { theme, range := d.range, label := d.label
        width := (toString ((rows.getLast?.map (·.number)).getD 0)).length
        gutter := rows.any fun row ↦ !row.contains d.range && row.inGutter d.range }
    spaces (f.width + 2) ++ theme.glyphs.topCorner.toString ++ theme.glyphs.horizontal.toString ++
      "[" ++ theme.paint .link (place d.path focus) ++ "]\n" ++
      String.join (rows.map f.row) ++
      spaces (f.width + 2) ++ theme.glyphs.bottomCorner.toString ++
      times 4 theme.glyphs.horizontal ++ "\n"
  | _, _ => ""

abbrev Handler := Display → Diagnostic → Option String

/-- The handler that the program comes with. -/
def draw : Handler := fun display d ↦
  let theme := Theme.ofDisplay display
  some (theme.paint .error d.code.text ++ "\n\n  " ++
    theme.paint .error theme.glyphs.error.toString ++ " " ++ d.message ++ "\n" ++ snippet display d)

end Linewise.Render

namespace Linewise.Diagnostic

/-- The diagnostic as a handler draws it; where the handler fails, only the message is left. -/
def renderBy (handler : Render.Handler) (display : Display) (d : Diagnostic) : String :=
  (handler display d).getD d.message

def render (display : Display) (d : Diagnostic) : String := d.renderBy Render.draw display

structure Exit where
  status : Nat
  output : String
  errors : String
deriving DecidableEq, Repr

def fatal (display : Display) (d : Diagnostic) : Exit := ⟨1, "", d.render display ++ "\n"⟩

end Linewise.Diagnostic
