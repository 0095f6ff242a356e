import Linewise.Text.Ranges
import Linewise.Text.Wide
import Linewise.Text.ZeroWidth

namespace Linewise.Text

def tabStop : Nat := 4

def columnsOf (c : Char) : Nat :=
  let n := c.toNat
  if n < 0x20 || (0x7f ≤ n && n < 0xa0) then 0
  else if n < 0x7f then 1
  else if inRanges zeroWidthRanges c then 0
  else if inRanges wideRanges c then 2
  else 1

def measureFrom (column : Nat) (inEscape : Bool) : List Char → List (Char × Nat)
  | [] => []
  | c :: rest =>
    if inEscape then (c, 0) :: measureFrom column (c != 'm') rest
    else if c = '\x1b' then (c, 0) :: measureFrom column true rest
    else
      let width := if c = '\t' then tabStop - column % tabStop else columnsOf c
      (c, width) :: measureFrom (column + width) false rest

def measure (line : List Char) : List (Char × Nat) := measureFrom 0 false line

def totalColumns (line : List Char) : Nat := (measure line).foldr (fun x total ↦ x.2 + total) 0

def expandTabs (line : List Char) : List Char :=
  (measure line).flatMap fun (c, width) ↦ if c = '\t' then List.replicate width ' ' else [c]

end Linewise.Text
