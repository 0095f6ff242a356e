import Linewise.Parser.Expression
import Linewise.Parser.FunctionHeader

namespace Linewise.Parser

namespace Action

def returnStatement (fuel : Nat) (keyword : Token) : Action Construct := do
  match ← advance false with
  | none =>
    expectStatementEnd
    return .returnStatement keyword none
  | some token =>
    unread
    if token.kind = .closeCurlyBrace then
      expectStatementEnd
      return .returnStatement keyword none
    else return .returnStatement keyword (some (← expressionStatement fuel))

def keywordConstruct (fuel : Nat) (keyword : Token) (word : String) : Action Construct := do
  if word = "fn" then return .function (← functionHeader fuel keyword)
  else if word = "return" then returnStatement fuel keyword
  else if word = "pass" then
    expectStatementEnd
    return .passStatement keyword
  else if word = "break" then
    expectStatementEnd
    return .breakStatement keyword
  else fail (.unsupportedKeyword word) (some keyword.span)

def construct (fuel : Nat) (token : Token) : Action Construct := do
  match token.kind with
  | .keyword word => keywordConstruct fuel token word
  | .openCurlyBrace => return .openBrace token
  | .closeCurlyBrace => return .closeBrace token
  | kind =>
    if startsExpression kind then
      unread
      return .expression (← expressionStatement fuel)
    else fail (.unexpected kind.describe) (some token.span)

/-- Parses the next construct; says whether there is one. -/
def next (fuel : Nat) : Action Bool := do
  modify fun p ↦ { p with lexer := p.lexer.clearTokens, openDelimiters := 0 }
  match ← advance true with
  | none => return false
  | some token =>
    let result ← construct fuel token
    modify fun p ↦ { p with result := some result }
    return true

def takeResult : Action (Option Construct) :=
  modifyGet fun p ↦ (p.result, { p with result := none })

def constructs : Nat → Action (List Construct)
  | 0 => throw (.internal .outOfFuel)
  | fuel + 1 => do
    if ← next (fuel + 1) then
      let result ← takeResult
      let more ← constructs fuel
      return result.toList ++ more
    else return []

end Action

/-- Fuel that lasts for all that is left to read. -/
def fuel (p : Parser) : Nat := p.lexer.remaining + 1

def next (p : Parser) : EStateM.Result (Failure SyntaxError) Parser Bool := Action.next p.fuel p

def program (p : Parser) : Except (Failure SyntaxError) Program :=
  match Action.constructs p.fuel p with
  | .ok constructs _ => .ok ⟨constructs⟩
  | .error e _ => .error e

end Linewise.Parser

namespace Linewise

def parse (source : String) : Except (Failure SyntaxError) Program :=
  (Parser.ofSource source).program

end Linewise
