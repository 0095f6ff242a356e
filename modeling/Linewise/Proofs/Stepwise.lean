import Linewise.Lexer

namespace Linewise.Lexer

open Text

theorem length_of_readChar {b : Bool} {s t : Lexer} (h : s.readChar b = (true, t)) :
    t.cursor.rest.length < s.cursor.rest.length ∧ t.pending = s.pending := by
  unfold readChar at h
  dsimp only at h
  rcases hc : nextChar? b s.cursor with ⟨_ | x, c⟩
  · rw [hc] at h
    cases h
  · rw [hc] at h
    cases h
    exact ⟨nextChar?_some hc, rfl⟩

theorem unreadSize_of_readChar {b : Bool} {s t : Lexer} (h : s.readChar b = (true, t)) :
    t.unreadSize < s.unreadSize := by
  obtain ⟨hlength, hpending⟩ := length_of_readChar h
  simp only [unreadSize, hpending]
  omega

theorem rest_of_readChar {b : Bool} {s t : Lexer} (h : s.readChar b = (false, t)) :
    t.cursor.rest = [] ∧ t.pending = s.pending := by
  unfold readChar at h
  dsimp only at h
  rcases hc : nextChar? b s.cursor with ⟨_ | x, c⟩
  · rw [hc] at h
    cases h
    exact ⟨nextChar?_none hc, rfl⟩
  · rw [hc] at h
    cases h

/-- At the end of a line it makes no difference whether the move to the next one is forced. -/
theorem advanceLine_of_nil {s : Lexer} (h : s.cursor.rest = []) (force : Bool) :
    s.advanceLine force = s.advanceLine false := by
  simp [advanceLine, h]

theorem unreadSize_of_advanceLine_readChar {b force : Bool} {s t u : Lexer} (h : s.readChar b = (false, t))
    (ha : t.advanceLine force = (true, u)) : u.unreadSize < s.unreadSize := by
  obtain ⟨hrest, hpending⟩ := rest_of_readChar h
  rw [advanceLine_of_nil hrest] at ha
  refine Nat.lt_of_lt_of_le (unreadSize_of_advanceLine ha hrest) ?_
  simp only [unreadSize, hrest, hpending, List.length_nil]
  omega

/-- What a step comes to: besides a result or an error of the text there may be an internal error. -/
abbrev Outcome := EStateM.Result (Failure LexicalError) Lexer

abbrev Step := EStateM (Failure LexicalError) Lexer

namespace Step

def of {α : Type} (f : Lexer → Outcome α) : Step α := f

def ensure (condition : Bool) (e : InternalError) : Step Unit :=
  if condition then pure () else throw (.internal e)

def reject {α : Type} (cause : LexicalCause) (span : Span) : Step α :=
  throw (.rejected ⟨cause, span⟩)

def readChar : Step Bool := fun s ↦
  let (found, t) := s.readChar false
  .ok found t

def unreadChar : Step Unit := fun s ↦
  match s.unreadChar with
  | .ok t => .ok () t
  | .error e => .error (.internal e) s

def current? : Step (Option Char) := return (← get).cursor.current

def position : Step Nat := return (← get).cursor.position

def nextIs (expected : Char) : Step Bool := do
  if !(← readChar) then return false
  if (← current?) = some expected then return true
  unreadChar
  return false

def spanOf (start stop : Nat) : Step Span := do
  ensure (start ≤ stop) .columnsReversed
  return .onLine (← get).lineNumber start stop

def spanFrom (start : Nat) : Step Span := do spanOf start (max (← position) start)

def spanHere : Step Span := do spanOf (← position) (← position)

def spanAcross (line start : Nat) : Step Span := do
  let stop := (← get).lineNumber
  ensure (line ≤ stop) .linesReversed
  return ⟨⟨line, start⟩, ⟨stop, ← position⟩⟩

def lineComment (s : Lexer) : Outcome TokenKind :=
  match _h : s.readChar false with
  | (true, t) => lineComment t
  | (false, t) => .ok .lineComment t
termination_by s.cursor.rest.length
decreasing_by exact (length_of_readChar _h).1

def blockComment (line start : Nat) (star : Bool) (s : Lexer) : Outcome Token :=
  match _h : s.readChar false with
  | (false, t) => match _ha : t.advanceLine true with
    | (false, u) =>
      (do
        ensure (start ≤ start + 1) .columnsReversed
        reject .unterminatedComment (.onLine line start (start + 1)) : Step Token) u
    | (true, u) => blockComment line start false u
  | (true, t) =>
    if star && t.cursor.current == some '/' then
      (do return ⟨.blockComment, ← spanAcross line start⟩ : Step Token) t
    else blockComment line start (t.cursor.current == some '*') t
termination_by s.unreadSize
decreasing_by
  · exact unreadSize_of_advanceLine_readChar _h _ha
  · exact unreadSize_of_readChar _h

def quoted (quote : Char) (value : List Char) (s : Lexer) : Outcome (Option (List Char)) :=
  match _h : s.readChar false with
  | (false, t) => .ok none t
  | (true, t) => match t.cursor.current with
    | none => .ok none t
    | some c =>
      if c = quote then .ok (some value) t
      else if c = '\\' then
        match _hr : t.readChar false with
        | (false, u) => .ok none u
        | (true, u) => match Lexeme.unescape? (u.cursor.current.getD default) with
          | none =>
            (do reject (.invalidEscape (u.cursor.current.getD default))
                  (← spanFrom t.cursor.position) : Step (Option (List Char))) u
          | some x => quoted quote (value ++ [x]) u
      else quoted quote (value ++ [c]) t
termination_by s.cursor.rest.length
decreasing_by
  · exact Nat.lt_trans (length_of_readChar _hr).1 (length_of_readChar _h).1
  · exact (length_of_readChar _h).1

def charLiteral (start : Nat) : Step TokenKind := do
  match ← of (quoted '\'' []) with
  | none => reject .unterminatedChar (← spanOf start start)
  | some [c] => return .char c
  | some _ => reject .invalidCharLiteral (← spanFrom start)

def stringLiteral (start : Nat) : Step TokenKind := do
  match ← of (quoted '"' []) with
  | none => reject .unterminatedString (← spanOf start start)
  | some value => return .string (String.ofList value)

def numeralTail (text : List Char) (float : Bool) (s : Lexer) : Outcome (List Char × Bool) :=
  match _h : s.readChar false with
  | (false, t) => .ok (text, float) t
  | (true, t) =>
    let stop : Step (List Char × Bool) := do
      unreadChar
      return (text, float)
    match t.cursor.current with
    | none => stop t
    | some c =>
      if isDigit c then numeralTail (text ++ [c]) float t
      else if c = '.' then
        if float then (do reject .multipleDecimalPoints (← spanHere) : Step (List Char × Bool)) t
        else numeralTail (text ++ ['.']) true t
      else if isWordStart c then
        (do reject (.invalidNumeralCharacter c float) (← spanHere) : Step (List Char × Bool)) t
      else stop t
termination_by s.cursor.rest.length
decreasing_by all_goals exact (length_of_readChar _h).1

def numeral (first : Char) : Step TokenKind := do
  let (text, float) ← of (numeralTail [first] false)
  return if float then .float (String.ofList text) else .integer (String.ofList text)

def wordTail (text : List Char) (s : Lexer) : Outcome (List Char) :=
  match _h : s.readChar false with
  | (false, t) => .ok text t
  | (true, t) =>
    let stop : Step (List Char) := do
      unreadChar
      return text
    match t.cursor.current with
    | none => stop t
    | some c => if isWordPart c then wordTail (text ++ [c]) t else stop t
termination_by s.cursor.rest.length
decreasing_by exact (length_of_readChar _h).1

def word (first : Char) : Step TokenKind := do
  return Lexeme.wordKind (String.ofList (← of (wordTail [first])))

def operatorStarts : List Char :=
  ['=', '*', '+', '-', '/', '%', '<', '>', '&', '|', '^', '!', '~', ':']

def doubled? : TokenKind → Option TokenKind
  | .assignment => some .equalTo
  | .operation .multiplication => some (.operation .exponent)
  | .operation .division => some (.operation .floorDivision)
  | .lessThan => some (.operation .leftShift)
  | .greaterThan => some (.operation .rightShift)
  | .operation .bitwiseAnd => some .logicalAnd
  | .operation .bitwiseOr => some .logicalOr
  | .colon => some .scopeResolution
  | _ => none

def paired? : TokenKind → Option (Char × TokenKind)
  | .operation .subtraction => some ('>', .arrow)
  | .logicalNot => some ('=', .notEqualTo)
  | .lessThan => some ('=', .lessThanOrEqual)
  | .greaterThan => some ('=', .greaterThanOrEqual)
  | _ => none

def ifNext (longer : Option (Char × TokenKind)) (found : TokenKind → Step TokenKind)
    (other : Step TokenKind) : Step TokenKind :=
  match longer with
  | none => other
  | some (x, kind) => do if ← nextIs x then found kind else other

def withAssignment (kind : TokenKind) : Step TokenKind :=
  ifNext (kind.withAssignment?.map ('=', ·)) pure (pure kind)

def operator (first : Char) : Step TokenKind :=
  match TokenKind.ofOperator? first with
  | none => throw (.internal (.notAnOperator first))
  | some single =>
    ifNext ((doubled? single).map (first, ·)) withAssignment
      (ifNext (paired? single) pure (withAssignment single))

def tokenKind (c : Char) (start : Nat) : Step TokenKind :=
  match TokenKind.ofDelimiter? c with
  | some kind => pure kind
  | none =>
    if c = '#' then of lineComment
    else if c = '\'' then charLiteral start
    else if c = '"' then stringLiteral start
    else if c ∈ operatorStarts then operator c
    else if isDigit c then numeral c
    else if isWordStart c then word c
    else do reject (.unexpectedCharacter c) (← spanOf start start)

def lexeme (c : Char) (start : Nat) : Step Token := do
  let kind ← tokenKind c start
  return ⟨kind, ← spanFrom start⟩

def token : Step Token := do
  match ← current? with
  | none => throw (.internal .noCurrentCharacter)
  | some c =>
    let start ← position
    if c = '/' then
      if ← nextIs '*' then of fun s ↦ blockComment s.lineNumber start false s else lexeme c start
    else lexeme c start

end Step

end Linewise.Lexer
