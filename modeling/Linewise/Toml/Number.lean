import Linewise.Toml.Text
import Linewise.Toml.Value

namespace Linewise.Toml

open Text Decimal

def moreDigits (isDigit : Char → Bool) : Reader (List Char)
  | [] => some ([], [])
  | c :: rest =>
    if isDigit c then do
      let (more, rest) ← moreDigits isDigit rest
      return (c :: more, rest)
    else if c = '_' then match rest with
      | d :: rest =>
        if isDigit d then do
          let (more, rest) ← moreDigits isDigit rest
          return (d :: more, rest)
        else none
      | [] => none
    else some ([], c :: rest)

def digits (isDigit : Char → Bool) : Reader (List Char) := fun text ↦
  match text with
  | c :: _ => if isDigit c then moreDigits isDigit text else none
  | [] => none

def sign : List Char → Bool × List Char
  | '+' :: rest => (false, rest)
  | '-' :: rest => (true, rest)
  | text => (false, text)

def wholeDigits : Reader (List Char)
  | '0' :: rest => some (['0'], rest)
  | text => digits isDigit text

def valueOf (base : Nat) (digits : List Char) : Nat :=
  digits.foldl (fun acc c ↦ acc * base + (hexDigit? c).getD 0) 0

def integerBound : Nat := 1 <<< 63

def integerOf? (negative : Bool) (n : Nat) : Option Value :=
  if negative then if n ≤ integerBound then some (.integer (-n)) else none
  else if n < integerBound then some (.integer n) else none

def fraction : Reader (List Char)
  | '.' :: rest => digits isDigit rest
  | text => some ([], text)

def exponent? (text : List Char) : Option (Option Int × List Char) :=
  match text with
  | [] => some (none, [])
  | c :: rest =>
    if c = 'e' || c = 'E' then do
      let (negative, rest) := sign rest
      let (ds, rest) ← digits isDigit rest
      let n := valueOf 10 ds
      return (some (if negative then -n else n), rest)
    else some (none, text)

def floatOf? (x : Binary64) : Option Value :=
  if x = .infinite false then none else some (.float x)

def decimal : Reader Value := fun text ↦ do
  let (negative, rest) := sign text
  let (whole, rest) ← wholeDigits rest
  let (places, rest) ← fraction rest
  let (exponent, rest) ← exponent? rest
  if places.isEmpty && exponent.isNone then
    let value ← integerOf? negative (valueOf 10 whole)
    return (value, rest)
  else
    let shift : Int := exponent.getD 0 - places.length
    let value ← floatOf? (.ofDecimal negative (valueOf 10 (whole ++ places)) shift)
    return (value, rest)

def based (base : Nat) : Reader Value := fun text ↦ do
  let isDigit (c : Char) : Bool := (hexDigit? c).any (· < base)
  let (ds, rest) ← digits isDigit text
  let value ← integerOf? false (valueOf base ds)
  return (value, rest)

def fixedDigits (n low high : Nat) : Reader Nat := fun text ↦
  let ds := text.take n
  let value := valueOf 10 ds
  if ds.length = n ∧ ds.all isDigit ∧ low ≤ value ∧ value ≤ high then some (value, text.drop n)
  else none

def expect (c : Char) : Reader Unit
  | [] => none
  | x :: rest => if x = c then some ((), rest) else none

def daysIn (year month : Nat) : Nat :=
  if month = 2 then
    if year % 4 = 0 ∧ (year % 100 ≠ 0 ∨ year % 400 = 0) then 29 else 28
  else if month = 4 ∨ month = 6 ∨ month = 9 ∨ month = 11 then 30 else 31

def date : Reader Unit := fun text ↦ do
  let (year, rest) ← fixedDigits 4 0 9999 text
  let (_, rest) ← expect '-' rest
  let (month, rest) ← fixedDigits 2 1 12 rest
  let (_, rest) ← expect '-' rest
  let (_, rest) ← fixedDigits 2 1 (daysIn year month) rest
  return ((), rest)

def time : Reader Unit := fun text ↦ do
  let (_, rest) ← fixedDigits 2 0 23 text
  let (_, rest) ← expect ':' rest
  let (_, rest) ← fixedDigits 2 0 59 rest
  let (_, rest) ← expect ':' rest
  let (_, rest) ← fixedDigits 2 0 60 rest
  match rest with
  | '.' :: more =>
    if more.head?.any isDigit then return ((), more.dropWhile isDigit) else return ((), rest)
  | _ => return ((), rest)

def timeOffset : Reader Unit := fun text ↦
  match text with
  | [] => some ((), [])
  | c :: rest =>
    if c = 'Z' || c = 'z' then some ((), rest)
    else if c = '+' || c = '-' then do
      let (_, rest) ← fixedDigits 2 0 23 rest
      let (_, rest) ← expect ':' rest
      let (_, rest) ← fixedDigits 2 0 59 rest
      return ((), rest)
    else some ((), text)

def startsDatetime (text : List Char) : Bool :=
  ((text.take 4).all isDigit && text[4]? == some '-') ||
    ((text.take 2).all isDigit && text[2]? == some ':')

def datetime : Reader Value := fun text ↦ do
  let rest ← match date text with
    | none => (time text).map (·.2)
    | some (_, rest) => match rest with
      | c :: more =>
        if (c = 'T' || c = 't' || c = ' ') && (more.take 2).all isDigit && more[2]? == some ':' then
          do
            let (_, rest) ← time more
            let (_, rest) ← timeOffset rest
            pure rest
        else some rest
      | [] => some []
  return (.datetime (String.ofList (text.take (text.length - rest.length))), rest)

def special? (text : List Char) : Option (Value × List Char) :=
  let (negative, rest) := sign text
  if rest.take 3 = ['i', 'n', 'f'] then some (.float (.infinite negative), rest.drop 3)
  else if rest.take 3 = ['n', 'a', 'n'] then some (.float .nan, rest.drop 3)
  else none

def number : Reader Value := fun text ↦
  if startsDatetime text then datetime text
  else match text with
    | '0' :: 'x' :: rest => based 16 rest
    | '0' :: 'o' :: rest => based 8 rest
    | '0' :: 'b' :: rest => based 2 rest
    | _ => match special? text with
      | some r => some r
      | none => decimal text

end Linewise.Toml
