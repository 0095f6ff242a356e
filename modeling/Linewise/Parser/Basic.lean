import Linewise.Construct
import Linewise.Lexer

namespace Linewise

structure Parser where
  /-- Where the tokens come from. -/
  lexer : Lexer
  /-- The construct parsed last, until it is taken. -/
  result : Option Construct
  /-- The number of round and square brackets that are open in the current expression. -/
  openDelimiters : Nat
  /-- The number of expressions that the current one is nested in. -/
  nestingDepth : Nat
  /-- The greatest number of expressions nested in each other, if there is one. -/
  nestingLimit : Option Nat

namespace Parser

/-- The nesting limit of the language. -/
def maxNesting : Nat := 64

def ofLexer (lexer : Lexer) : Parser := ⟨lexer, none, 0, 0, some maxNesting⟩

def ofSource (source : String) : Parser := ofLexer (.ofSource source false)

def tokens (p : Parser) : Array Token := p.lexer.tokens

abbrev Action := EStateM (Failure SyntaxError) Parser

namespace Action

def fail {α : Type} (cause : GrammarCause) (span : Option Span) : Action α :=
  throw (.rejected (.grammar ⟨cause, span⟩))

def failExpected {α : Type} (what : String) (found : Token) : Action α :=
  fail (.expected what found.kind.describe) (some found.span)

def readToken (acrossLines : Bool) : Action Bool := fun p ↦
  match p.lexer.readToken acrossLines with
  | .ok found lexer => .ok found { p with lexer }
  | .error e lexer => .error (.rejected (.lexical e)) { p with lexer }

def unread : Action Unit := fun p ↦
  match p.lexer.unreadToken with
  | .ok lexer => .ok () { p with lexer }
  | .error e => .error (.internal e) p

def advance (acrossLines : Bool) : Action (Option Token) := do
  if ← readToken acrossLines then return (← get).lexer.lastToken? else return none

def expectToken (construct : String) : Action Token := do
  match ← advance true with
  | some token => return token
  | none => fail (.unterminated construct) none

def matchToken (kind : TokenKind) (acrossLines : Bool) : Action (Option Token) := do
  match ← advance acrossLines with
  | none => return none
  | some token =>
    if token.kind = kind then return some token
    else
      unread
      return none

/-- Checks that the current line holds no more, unless a brace closes the block there. -/
def expectStatementEnd : Action Unit := do
  match ← advance false with
  | none => return ()
  | some token =>
    if token.kind = .closeCurlyBrace then unread else failExpected "end of line" token

/-- Whether the current expression may go on on the next line. -/
def continuesAcrossLines : Action Bool := return 0 < (← get).openDelimiters

def enclosed {α : Type} (body : Action α) : Action α := do
  modify fun p ↦ { p with openDelimiters := p.openDelimiters + 1 }
  let a ← body
  modify fun p ↦ { p with openDelimiters := p.openDelimiters - 1 }
  return a

def nested {α : Type} (body : Action α) : Action α := fun p ↦
  match p.nestingLimit.filter (· ≤ p.nestingDepth) with
  | some limit =>
    .error (.rejected (.grammar ⟨.nestingTooDeep limit, p.lexer.lastToken?.map (·.span)⟩)) p
  | none => match body { p with nestingDepth := p.nestingDepth + 1 } with
    | .ok a q => .ok a { q with nestingDepth := q.nestingDepth - 1 }
    | .error e q => .error e { q with nestingDepth := q.nestingDepth - 1 }

end Action

end Parser

end Linewise
