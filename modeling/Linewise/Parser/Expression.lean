import Linewise.Parser.Basic
import Linewise.Token.Precedence

namespace Linewise.Parser.Action

def startsExpression : TokenKind → Bool
  | .identifier _ | .char _ | .string _ | .integer _ | .float _ => true
  | .openParen | .operation .multiplication | .operation .subtraction => true
  | .logicalNot | .operation .bitwiseNot => true
  | _ => false

def expectOperand : Action Token := do
  let acrossLines ← continuesAcrossLines
  match ← advance acrossLines with
  | some token => return token
  | none =>
    if acrossLines then fail (.unterminated "expression") none
    else fail (.expected "expression" "end of line") ((← get).lexer.lastToken?.map (·.span))

def expectClosing (kind : TokenKind) (construct : String) : Action Token := do
  let token ← expectToken construct
  if token.kind = kind then return token
  else failExpected ("'" ++ kind.symbol?.getD "" ++ "'") token

/-- The parser of nested expressions, given the least binding power of their operators. -/
abbrev Nested := Nat → Action Expr

def arguments (expr : Nested) : Nat → Action (List Expr × Token)
  | 0 => throw (.internal .outOfFuel)
  | fuel + 1 => do
    let argument ← expr 0
    let token ← expectToken "call arguments"
    if token.kind = .comma then
      let (more, closeToken) ← arguments expr fuel
      return (argument :: more, closeToken)
    else if token.kind = .closeParen then return ([argument], token)
    else failExpected "',' or ')'" token

def call (expr : Nested) (fuel : Nat) (callee : Expr) (openToken : Token) : Action Expr :=
  enclosed do
    match ← matchToken .closeParen true with
    | some closeToken => return .call callee openToken [] closeToken
    | none =>
      let (arguments, closeToken) ← arguments expr fuel
      return .call callee openToken arguments closeToken

def index (expr : Nested) (target : Expr) (openToken : Token) : Action Expr :=
  enclosed do
    let index ← expr 0
    let closeToken ← expectClosing .closeSquareBracket "index"
    return .index target openToken index closeToken

def group (expr : Nested) (openToken : Token) : Action Expr :=
  enclosed do
    let inner ← expr 0
    let closeToken ← expectClosing .closeParen "parenthesised expression"
    return .group openToken inner closeToken

def suffixes (expr : Nested) : Nat → Expr → Action Expr
  | 0, _ => throw (.internal .outOfFuel)
  | fuel + 1, operand => do
    match ← advance (← continuesAcrossLines) with
    | none => return operand
    | some token =>
      if token.kind = .openParen then
        suffixes expr fuel (← call expr (fuel + 1) operand token)
      else if token.kind = .openSquareBracket then
        suffixes expr fuel (← index expr operand token)
      else
        unread
        return operand

def dereference (star : Token) : Action Expr := do
  let token ← expectOperand
  match token.identifier? with
  | some name => return .var ⟨name, some star⟩
  | none => failExpected "identifier after '*'" token

def operand (expr : Nested) (fuel : Nat) : Action Expr := do
  let token ← expectOperand
  match token.kind with
  | .operation .multiplication => suffixes expr fuel (← dereference token)
  | .operation .subtraction | .logicalNot | .operation .bitwiseNot =>
    return .unary token (← expr BindingPower.unaryOperand)
  | .openParen => suffixes expr fuel (← group expr token)
  | .identifier text => suffixes expr fuel (.var ⟨⟨text, token.span⟩, none⟩)
  | _ => match Literal.ofToken? token with
    | some literal => suffixes expr fuel (.literal literal)
    | none => failExpected "expression" token

def join (left : Expr) (operator : Token) (right : Expr) : Action Expr :=
  if operator.kind.isAssignment then
    match left with
    | .var target => return .assignment operator target right
    | _ => fail .invalidAssignmentTarget (some left.span)
  else return .binary operator left right

/-- Parses the operators that follow a left operand and bind at least as tightly as `least`. -/
def operators (expr : Nested) (least : Nat) : Nat → Expr → Action Expr
  | 0, _ => throw (.internal .outOfFuel)
  | fuel + 1, left => do
    match ← advance (← continuesAcrossLines) with
    | none => return left
    | some operator => match operator.kind.bindingPower? with
      | none =>
        unread
        return left
      | some power =>
        if power.left < least then
          unread
          return left
        else
          let right ← expr power.right
          operators expr least fuel (← join left operator right)

def expression : Nat → Nested
  | 0, _ => throw (.internal .outOfFuel)
  | fuel + 1, least => nested do
    let left ← operand (expression fuel) (fuel + 1)
    operators (expression fuel) least (fuel + 1) left

def expressionStatement (fuel : Nat) : Action Expr := do
  let e ← expression fuel 0
  expectStatementEnd
  return e

end Linewise.Parser.Action
