import Linewise.Parser.Basic

namespace Linewise.Parser.Action

/-- What may come next in a list of parameters. -/
inductive ParameterSlot where
  | nameOrClose
  | commaOrClose
  | name
deriving DecidableEq, Repr

def parameterType : Action (Option Identifier) := do
  match ← matchToken .colon true with
  | none => return none
  | some _ =>
    let token ← expectToken "parameters"
    match token.identifier? with
    | some name => return some name
    | none => failExpected "parameter type" token

def parameters : Nat → ParameterSlot → Action (List Parameter × Token)
  | 0, _ => throw (.internal .outOfFuel)
  | fuel + 1, slot => do
    let token ← expectToken "parameters"
    match token.kind, slot with
    | .closeParen, .nameOrClose | .closeParen, .commaOrClose => return ([], token)
    | .comma, .commaOrClose => parameters fuel .name
    | .comma, _ => fail .unexpectedComma (some token.span)
    | .identifier text, .nameOrClose | .identifier text, .name =>
      let type ← parameterType
      let (more, closeParen) ← parameters fuel .commaOrClose
      return (⟨⟨text, token.span⟩, type⟩ :: more, closeParen)
    | _, .commaOrClose => failExpected "',' or ')'" token
    | _, _ => failExpected "parameter name" token

def functionName : Action Identifier := do
  let token ← expectToken "function declaration"
  match token.kind with
  | .identifier text => return ⟨text, token.span⟩
  | .keyword word => fail (.keywordAsFunctionName word) (some token.span)
  | _ => failExpected "function name" token

def returnType : Action (Option Identifier × Token) := do
  let token ← expectToken "function declaration"
  if token.kind = .arrow then
    let type ← expectToken "function declaration"
    match type.identifier? with
    | none => failExpected "return type after '->'" type
    | some name => return (some name, ← expectToken "function declaration")
  else return (none, token)

def functionHeader (fuel : Nat) (keyword : Token) : Action FunctionHeader := do
  let name ← functionName
  let openParen ← expectToken "function declaration"
  if openParen.kind ≠ .openParen then failExpected "'('" openParen
  let (parameters, closeParen) ← parameters fuel .nameOrClose
  let (returnType, bodyOpen) ← returnType
  if bodyOpen.kind ≠ .openCurlyBrace then
    failExpected "'\x7b' (as start of function body)" bodyOpen
  return ⟨keyword, name, openParen, parameters, closeParen, returnType, bodyOpen⟩

end Linewise.Parser.Action
