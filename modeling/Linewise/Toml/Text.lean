import Linewise.Text.Character

namespace Linewise.Toml

abbrev Reader (α : Type) := List Char → Option (α × List Char)

def isSpace (c : Char) : Bool := c == ' ' || c == '\t'

def isPlain (c : Char) : Bool := c == '\t' || (0x20 ≤ c.toNat && c.toNat != 0x7f)

def skipSpaces (text : List Char) : List Char := text.dropWhile isSpace

def lineEnd? : List Char → Option (List Char)
  | '\n' :: rest => some rest
  | '\r' :: '\n' :: rest => some rest
  | _ => none

def skipComment : List Char → List Char
  | '#' :: rest => rest.dropWhile isPlain
  | text => text

def lineTail? (text : List Char) : Option (List Char) :=
  match skipComment (skipSpaces text) with
  | [] => some []
  | rest => lineEnd? rest

/-- What follows blanks, line ends and comments; `inComment` says that the text begins inside a
comment. -/
def skipLines (inComment : Bool) : List Char → List Char
  | [] => []
  | c :: rest =>
    if c = '\n' then skipLines false rest
    else if c = '\r' then match rest with
      | '\n' :: rest => skipLines false rest
      | _ => c :: rest
    else if inComment && isPlain c then skipLines true rest
    else if isSpace c then skipLines inComment rest
    else if c = '#' then skipLines true rest
    else c :: rest

def hexDigit? (c : Char) : Option Nat :=
  if '0' ≤ c && c ≤ '9' then some (c.toNat - '0'.toNat)
  else if 'a' ≤ c && c ≤ 'f' then some (c.toNat - 'a'.toNat + 10)
  else if 'A' ≤ c && c ≤ 'F' then some (c.toNat - 'A'.toNat + 10)
  else none

def codePoint (n : Nat) : Reader Char := fun text ↦ do
  let digits ← (text.take n).mapM hexDigit?
  let code := digits.foldl (fun acc d ↦ acc * 16 + d) 0
  if digits.length = n ∧ code.isValidChar then some (Char.ofNat code, text.drop n) else none

def escape : Reader Char
  | 'b' :: rest => some ('\x08', rest)
  | 't' :: rest => some ('\t', rest)
  | 'n' :: rest => some ('\n', rest)
  | 'f' :: rest => some ('\x0c', rest)
  | 'r' :: rest => some ('\r', rest)
  | '"' :: rest => some ('"', rest)
  | '\\' :: rest => some ('\\', rest)
  | 'u' :: rest => codePoint 4 rest
  | 'U' :: rest => codePoint 8 rest
  | _ => none

def skipBlankLines : List Char → List Char
  | [] => []
  | c :: rest =>
    if c = '\r' then match rest with
      | '\n' :: rest => skipBlankLines rest
      | _ => c :: rest
    else if isSpace c || c = '\n' then skipBlankLines rest
    else c :: rest

def continuation? (text : List Char) : Option (List Char) :=
  (lineEnd? (skipSpaces text)).map skipBlankLines

def closing (quote : Char) (multiline : Bool) : Reader (List Char) := fun text ↦
  let quotes := (text.takeWhile (· = quote)).length
  if multiline then
    let extra := min (quotes - 3) 2
    if 3 ≤ quotes then some (List.replicate extra quote, text.drop (extra + 3)) else none
  else if 1 ≤ quotes then some ([], text.drop 1) else none

def stringBody (quote : Char) (multiline : Bool) : Nat → Reader (List Char)
  | 0, _ => none
  | fuel + 1, text =>
    match closing quote multiline text, text with
    | some ending, _ => some ending
    | none, [] => none
    | none, c :: rest =>
      if c = '\\' && quote = '"' then
        match if multiline then continuation? rest else none with
        | some rest => stringBody quote multiline fuel rest
        | none => do
          let (x, rest) ← escape rest
          let (more, rest) ← stringBody quote multiline fuel rest
          return (x :: more, rest)
      else match lineEnd? text with
        | some rest =>
          if multiline then do
            let (more, rest) ← stringBody quote multiline fuel rest
            return ('\n' :: more, rest)
          else none
        | none =>
          if isPlain c then do
            let (more, rest) ← stringBody quote multiline fuel rest
            return (c :: more, rest)
          else none

def lineString (quote : Char) : Reader String
  | [] => none
  | c :: rest => do
    if c ≠ quote then none
    let (value, rest) ← stringBody quote false (rest.length + 1) rest
    return (String.ofList value, rest)

def string (quote : Char) : Reader String := fun text ↦
  if text.take 3 = List.replicate 3 quote then do
    let rest := text.drop 3
    let rest := (lineEnd? rest).getD rest
    let (value, rest) ← stringBody quote true (rest.length + 1) rest
    return (String.ofList value, rest)
  else lineString quote text

def isKeyChar (c : Char) : Bool :=
  ('a' ≤ c && c ≤ 'z') || ('A' ≤ c && c ≤ 'Z') || Text.isDigit c || c == '_' || c == '-'

def simpleKey : Reader String
  | '"' :: rest => lineString '"' ('"' :: rest)
  | '\'' :: rest => lineString '\'' ('\'' :: rest)
  | text =>
    let key := text.takeWhile isKeyChar
    if key.isEmpty then none else some (String.ofList key, text.drop key.length)

def dottedKey : Nat → Reader (List String)
  | 0, _ => none
  | fuel + 1, text => do
    let (key, rest) ← simpleKey (skipSpaces text)
    match skipSpaces rest with
    | '.' :: rest =>
      let (more, rest) ← dottedKey fuel rest
      return (key :: more, rest)
    | rest => return ([key], rest)

def maxDepth : Nat := 79

def key : Reader (List String) := fun text ↦ do
  let (path, rest) ← dottedKey (text.length + 1) text
  if path.length ≤ maxDepth then some (path, rest) else none

end Linewise.Toml
