import Linewise.Proofs.Parser.Balanced

namespace Linewise.Parser.Action

variable {α : Type}

namespace Checked

def close : Action Unit := fun p ↦
  if p.openDelimiters = 0 then .error (.internal .notEnclosed) p
  else .ok () { p with openDelimiters := p.openDelimiters - 1 }

def enclosed (body : Action α) : Action α := do
  modify fun p ↦ { p with openDelimiters := p.openDelimiters + 1 }
  let a ← body
  close
  return a

def leave : Action Unit := fun p ↦
  if p.nestingDepth = 0 then .error (.internal .notNested) p
  else .ok () { p with nestingDepth := p.nestingDepth - 1 }

def nested (body : Action α) : Action α := fun p ↦
  match p.nestingLimit.filter (· ≤ p.nestingDepth) with
  | some limit =>
    .error (.rejected (.grammar ⟨.nestingTooDeep limit, p.lexer.lastToken?.map (·.span)⟩)) p
  | none => match body { p with nestingDepth := p.nestingDepth + 1 } with
    | .ok a q => (leave >>= fun _ ↦ pure a : Action α) q
    | .error e q => (leave >>= fun _ ↦ throw e : Action α) q

def call (expr : Nested) (fuel : Nat) (callee : Expr) (openToken : Token) : Action Expr :=
  enclosed do
    match ← matchToken .closeParen true with
    | some closeToken => return .call callee openToken [] closeToken
    | none =>
      let (arguments, closeToken) ← arguments expr fuel
      return .call callee openToken arguments closeToken

def index (expr : Nested) (target : Expr) (openToken : Token) : Action Expr :=
  enclosed do
    let index ← expr 0
    let closeToken ← expectClosing .closeSquareBracket "index"
    return .index target openToken index closeToken

def group (expr : Nested) (openToken : Token) : Action Expr :=
  enclosed do
    let inner ← expr 0
    let closeToken ← expectClosing .closeParen "parenthesised expression"
    return .group openToken inner closeToken

def suffixes (expr : Nested) : Nat → Expr → Action Expr
  | 0, _ => throw (.internal .outOfFuel)
  | fuel + 1, operand => do
    match ← advance (← continuesAcrossLines) with
    | none => return operand
    | some token =>
      if token.kind = .openParen then
        suffixes expr fuel (← call expr (fuel + 1) operand token)
      else if token.kind = .openSquareBracket then
        suffixes expr fuel (← index expr operand token)
      else
        unread
        return operand

def variableOf (token : Token) : Action Expr :=
  match token.identifier? with
  | some name => return .var ⟨name, none⟩
  | none => throw (.internal .notAVariable)

def literalOf (token : Token) : Action Expr :=
  match Literal.ofToken? token with
  | some literal => return .literal literal
  | none => throw (.internal .notALiteral)

def operand (expr : Nested) (fuel : Nat) : Action Expr := do
  let token ← expectOperand
  match token.kind with
  | .operation .multiplication => suffixes expr fuel (← dereference token)
  | .operation .subtraction | .logicalNot | .operation .bitwiseNot =>
    return .unary token (← expr BindingPower.unaryOperand)
  | .identifier _ => suffixes expr fuel (← variableOf token)
  | .openParen => suffixes expr fuel (← group expr token)
  | kind =>
    if kind.isLiteral then suffixes expr fuel (← literalOf token)
    else failExpected "expression" token

def expression : Nat → Nested
  | 0, _ => throw (.internal .outOfFuel)
  | fuel + 1, least => nested do
    let left ← operand (expression fuel) (fuel + 1)
    operators (expression fuel) least (fuel + 1) left

theorem enclosed_eq {x : Action α} (hx : Balanced x) : enclosed x = Action.enclosed x := by
  funext p
  have hp := hx { p with openDelimiters := p.openDelimiters + 1 }
  change EStateM.bind x _ { p with openDelimiters := p.openDelimiters + 1 } =
    EStateM.bind x _ { p with openDelimiters := p.openDelimiters + 1 }
  simp only [EStateM.bind]
  generalize x { p with openDelimiters := p.openDelimiters + 1 } = r at hp
  cases hp with
  | error e => rfl
  | @ok a q hdepth hopen =>
    have hne : q.openDelimiters ≠ 0 := by
      rw [hopen]
      exact Nat.succ_ne_zero _
    have hclose : close q = .ok () { q with openDelimiters := q.openDelimiters - 1 } := if_neg hne
    exact bind_of_ok hclose

theorem nested_eq {x : Action α} (hx : Balanced x) : nested x = Action.nested x := by
  funext p
  have hp := hx { p with nestingDepth := p.nestingDepth + 1 }
  have hleave {q : Parser} (hdepth : q.nestingDepth = p.nestingDepth + 1) :
      leave q = .ok () { q with nestingDepth := q.nestingDepth - 1 } := by
    refine if_neg ?_
    rw [hdepth]
    exact Nat.succ_ne_zero _
  rw [nested, Action.nested]
  cases p.nestingLimit.filter (· ≤ p.nestingDepth) with
  | some limit => rfl
  | none =>
    dsimp only
    generalize x { p with nestingDepth := p.nestingDepth + 1 } = r at hp
    cases hp with
    | ok a hdepth => exact bind_of_ok (hleave hdepth)
    | error e hdepth => exact bind_of_ok (hleave hdepth)

section

variable {expr : Nested} (h : ∀ least, Balanced (expr least))
include h

theorem call_eq (fuel : Nat) (callee : Expr) (openToken : Token) :
    call expr fuel callee openToken = Action.call expr fuel callee openToken :=
  enclosed_eq (Balanced.compositional.callBody h fuel callee openToken)

theorem index_eq (target : Expr) (openToken : Token) :
    index expr target openToken = Action.index expr target openToken :=
  enclosed_eq (Balanced.compositional.bracketed h _ _ (.index target openToken))

theorem group_eq (openToken : Token) : group expr openToken = Action.group expr openToken :=
  enclosed_eq (Balanced.compositional.bracketed h _ _ (.group openToken))

theorem suffixes_eq (fuel : Nat) (e : Expr) : suffixes expr fuel e = Action.suffixes expr fuel e := by
  induction fuel generalizing e with
  | zero => rfl
  | succ fuel ih =>
    rw [suffixes, Action.suffixes]
    refine bind_congr fun b ↦ bind_congr fun t ↦ ?_
    cases t with
    | none => rfl
    | some t => simp only [call_eq h, index_eq h, ih]

theorem operand_eq (fuel : Nat) : operand expr fuel = Action.operand expr fuel := by
  refine bind_congr fun t ↦ ?_
  rw [show suffixes expr fuel = _ from funext (suffixes_eq h fuel), group_eq h]
  obtain ⟨kind, span⟩ := t
  cases kind with
  | operation o => cases o <;> rfl
  | _ => rfl

end

/-- Parsing an expression never takes a step without its condition. -/
theorem expression_eq (fuel least : Nat) : expression fuel least = Action.expression fuel least := by
  induction fuel generalizing least with
  | zero => rfl
  | succ fuel ih =>
    have hexpr : expression fuel = Action.expression fuel := funext ih
    have hbalanced := Balanced.compositional.expression fuel
    rw [expression, Action.expression, hexpr, operand_eq hbalanced]
    exact nested_eq (Balanced.compositional.level hbalanced (fuel + 1) least)

end Checked

end Linewise.Parser.Action
