import Linewise.Proofs.Parser.Moves

namespace Linewise.Parser.Action

def readConstruct (fuel : Nat) : Action (Option Construct) := do
  match ← advance true with
  | none => return none
  | some token => return some (← construct fuel token)

theorem next_eq (fuel : Nat) (p : Parser) :
    next fuel p = match readConstruct fuel (begun p) with
      | .ok none q => .ok false q
      | .ok (some c) q => .ok true { q with result := some c }
      | .error e q => .error e q := by
  change (do
    match ← advance true with
    | none => return false
    | some token =>
      let result ← construct fuel token
      modify fun p ↦ { p with result := some result }
      return true : Action Bool) (begun p) = _
  simp only [readConstruct, bind, EStateM.bind]
  cases advance true (begun p) with
  | error e q => rfl
  | ok t q =>
    cases t with
    | none => rfl
    | some t =>
      simp only [EStateM.bind]
      cases construct fuel t q with
      | ok c r => rfl
      | error e r => rfl

/-- The property holds of the elementary steps and is passed on to all that is made of them. -/
structure Compositional (P : ∀ {α : Type}, Action α → Prop) : Prop where
  pure {α : Type} (a : α) : P (pure a : Action α)
  outOfFuel {α : Type} : P (throw (.internal .outOfFuel) : Action α)
  failAtLast {α : Type} (cause : GrammarCause) :
    P (do fail cause ((← get).lexer.lastToken?.map (·.span)) : Action α)
  fail {α : Type} (cause : GrammarCause) (span : Option Span) : P (fail cause span : Action α)
  bind {α β : Type} {x : Action α} {k : α → Action β} : P x → (∀ a, P (k a)) → P (x >>= k)
  continuesAcrossLines : P continuesAcrossLines
  advance (acrossLines : Bool) : P (advance acrossLines)
  unread : P unread
  enclosed {α : Type} {x : Action α} : P x → P (enclosed x)
  nested {α : Type} {x : Action α} : P x → P (nested x)

namespace Compositional

variable {P : ∀ {α : Type}, Action α → Prop} (hP : Compositional P) {α : Type}
include hP

theorem failExpected (what : String) (found : Token) : P (failExpected what found : Action α) :=
  hP.fail _ _

omit hP in
theorem branch {c : Prop} [Decidable c] {x y : Action α} (hx : P x) (hy : P y) :
    P (if c then x else y) := by
  split
  · exact hx
  · exact hy

theorem giveBack (a : α) : P (do Action.unread; return a) := hP.bind hP.unread fun _ ↦ hP.pure a

theorem expectToken (construct : String) : P (expectToken construct) := by
  refine hP.bind (hP.advance true) fun t ↦ ?_
  cases t with
  | none => exact hP.fail _ _
  | some t => exact hP.pure t

theorem matchToken (kind : TokenKind) (acrossLines : Bool) : P (matchToken kind acrossLines) := by
  refine hP.bind (hP.advance acrossLines) fun t ↦ ?_
  cases t with
  | none => exact hP.pure none
  | some t => exact branch (hP.pure (some t)) (hP.giveBack none)

theorem expectStatementEnd : P expectStatementEnd := by
  refine hP.bind (hP.advance false) fun t ↦ ?_
  cases t with
  | none => exact hP.pure ()
  | some t => exact branch hP.unread (hP.failExpected _ t)

theorem expectOperand : P expectOperand := by
  refine hP.bind hP.continuesAcrossLines fun b ↦ hP.bind (hP.advance b) fun t ↦ ?_
  cases t with
  | none => exact branch (hP.fail _ _) (hP.failAtLast _)
  | some t => exact hP.pure t

theorem expectClosing (kind : TokenKind) (construct : String) : P (expectClosing kind construct) :=
  hP.bind (hP.expectToken construct) fun t ↦ branch (hP.pure t) (hP.failExpected _ t)

theorem dereference (star : Token) : P (dereference star) := by
  refine hP.bind hP.expectOperand fun t ↦ ?_
  split
  · exact hP.pure _
  · exact hP.failExpected _ t

theorem join (left : Expr) (operator : Token) (right : Expr) : P (join left operator right) := by
  unfold Action.join
  split
  · split
    · exact hP.pure _
    · exact hP.fail _ _
  · exact hP.pure _

section

variable {expr : Nested} (h : ∀ least, P (expr least))
include h

theorem arguments (fuel : Nat) : P (arguments expr fuel) := by
  induction fuel with
  | zero => exact hP.outOfFuel
  | succ fuel ih =>
    refine hP.bind (h 0) fun _ ↦ hP.bind (hP.expectToken _) fun t ↦ branch ?_ (branch ?_ ?_)
    · exact hP.bind ih fun _ ↦ hP.pure _
    · exact hP.pure _
    · exact hP.failExpected _ t

theorem callBody (fuel : Nat) (callee : Expr) (openToken : Token) : P (do
    match ← Action.matchToken .closeParen true with
    | some closeToken => return Expr.call callee openToken [] closeToken
    | none =>
      let (arguments, closeToken) ← Action.arguments expr fuel
      return Expr.call callee openToken arguments closeToken) := by
  refine hP.bind (hP.matchToken _ _) fun t ↦ ?_
  cases t with
  | some t => exact hP.pure _
  | none => exact hP.bind (hP.arguments h fuel) fun _ ↦ hP.pure _

theorem call (fuel : Nat) (callee : Expr) (openToken : Token) : P (call expr fuel callee openToken) :=
  hP.enclosed (hP.callBody h fuel callee openToken)

theorem bracketed (kind : TokenKind) (construct : String) (build : Expr → Token → Expr) : P (do
    let inner ← expr 0
    let closeToken ← Action.expectClosing kind construct
    return build inner closeToken) :=
  hP.bind (h 0) fun _ ↦ hP.bind (hP.expectClosing _ _) fun _ ↦ hP.pure _

theorem index (target : Expr) (openToken : Token) : P (index expr target openToken) :=
  hP.enclosed (hP.bracketed h _ _ (.index target openToken))

theorem group (openToken : Token) : P (group expr openToken) :=
  hP.enclosed (hP.bracketed h _ _ (.group openToken))

theorem suffixes (fuel : Nat) (e : Expr) : P (suffixes expr fuel e) := by
  induction fuel generalizing e with
  | zero => exact hP.outOfFuel
  | succ fuel ih =>
    refine hP.bind hP.continuesAcrossLines fun b ↦ hP.bind (hP.advance b) fun t ↦ ?_
    cases t with
    | none => exact hP.pure e
    | some t =>
      refine branch ?_ (branch ?_ (hP.giveBack e))
      · exact hP.bind (hP.call h _ e t) ih
      · exact hP.bind (hP.index h e t) ih

theorem operand (fuel : Nat) : P (operand expr fuel) := by
  refine hP.bind hP.expectOperand fun t ↦ ?_
  split
  · exact hP.bind (hP.dereference t) (hP.suffixes h fuel)
  · exact hP.bind (h _) fun _ ↦ hP.pure _
  · exact hP.bind (h _) fun _ ↦ hP.pure _
  · exact hP.bind (h _) fun _ ↦ hP.pure _
  · exact hP.bind (hP.group h t) (hP.suffixes h fuel)
  · exact hP.suffixes h fuel _
  · split
    · exact hP.suffixes h fuel _
    · exact hP.failExpected _ t

theorem operators (least fuel : Nat) (left : Expr) : P (operators expr least fuel left) := by
  induction fuel generalizing left with
  | zero => exact hP.outOfFuel
  | succ fuel ih =>
    refine hP.bind hP.continuesAcrossLines fun b ↦ hP.bind (hP.advance b) fun t ↦ ?_
    cases t with
    | none => exact hP.pure left
    | some t =>
      dsimp only
      split
      · exact hP.giveBack left
      · exact branch (hP.giveBack left) (hP.bind (h _) fun right ↦ hP.bind (hP.join left t right) ih)

theorem level (fuel least : Nat) : P (do
    let left ← Action.operand expr fuel
    Action.operators expr least fuel left) :=
  hP.bind (hP.operand h fuel) fun left ↦ hP.operators h least fuel left

end

theorem expression (fuel least : Nat) : P (expression fuel least) := by
  induction fuel generalizing least with
  | zero => exact hP.outOfFuel
  | succ fuel ih => exact hP.nested (hP.level ih (fuel + 1) least)

theorem expressionStatement (fuel : Nat) : P (expressionStatement fuel) :=
  hP.bind (hP.expression fuel 0) fun e ↦ hP.bind hP.expectStatementEnd fun _ ↦ hP.pure e

theorem parameterType : P parameterType := by
  refine hP.bind (hP.matchToken _ _) fun colon ↦ ?_
  cases colon with
  | none => exact hP.pure none
  | some colon =>
    refine hP.bind (hP.expectToken _) fun t ↦ ?_
    split
    · exact hP.pure _
    · exact hP.failExpected _ t

theorem parameters (fuel : Nat) (slot : ParameterSlot) : P (parameters fuel slot) := by
  induction fuel generalizing slot with
  | zero => exact hP.outOfFuel
  | succ fuel ih =>
    refine hP.bind (hP.expectToken _) fun t ↦ ?_
    have parameter (name : Identifier) : P (parametersFrom fuel name) :=
      hP.bind hP.parameterType fun _ ↦ hP.bind (ih _) fun _ ↦ hP.pure _
    split
    · exact hP.pure _
    · exact hP.pure _
    · exact ih _
    · exact hP.fail _ _
    · exact parameter _
    · exact parameter _
    · exact hP.failExpected _ t
    · exact hP.failExpected _ t

theorem functionName : P functionName := by
  refine hP.bind (hP.expectToken _) fun t ↦ ?_
  split
  · exact hP.pure _
  · exact hP.fail _ _
  · exact hP.failExpected _ t

theorem returnType : P returnType := by
  refine hP.bind (hP.expectToken _) fun t ↦ branch ?_ (hP.pure _)
  refine hP.bind (hP.expectToken _) fun type ↦ ?_
  split
  · exact hP.failExpected _ type
  · exact hP.bind (hP.expectToken _) fun _ ↦ hP.pure _

theorem functionHeader (fuel : Nat) (keyword : Token) : P (functionHeader fuel keyword) := by
  have rest (name : Identifier) (openParen : Token) : P (headerFrom fuel keyword name openParen) := by
    refine hP.bind (hP.parameters fuel _) fun _ ↦ hP.bind hP.returnType fun _ ↦ branch ?_ (hP.pure _)
    exact hP.bind (hP.failExpected _ _) fun _ ↦ hP.pure _
  refine hP.bind hP.functionName fun name ↦ hP.bind (hP.expectToken _) fun openParen ↦ ?_
  exact branch (hP.bind (hP.failExpected _ openParen) fun _ ↦ rest name openParen) (rest name openParen)

theorem returnStatement (fuel : Nat) (keyword : Token) : P (returnStatement fuel keyword) := by
  have nothing : P (do
      Action.expectStatementEnd
      return Construct.returnStatement keyword none) :=
    hP.bind hP.expectStatementEnd fun _ ↦ hP.pure _
  refine hP.bind (hP.advance false) fun t ↦ ?_
  cases t with
  | none => exact nothing
  | some t =>
    refine hP.bind hP.unread fun _ ↦ branch nothing ?_
    exact hP.bind (hP.expressionStatement fuel) fun _ ↦ hP.pure _

theorem keywordConstruct (fuel : Nat) (keyword : Token) (word : String) :
    P (keywordConstruct fuel keyword word) := by
  refine branch ?_ (branch ?_ (branch ?_ (branch ?_ (hP.fail _ _))))
  · exact hP.bind (hP.functionHeader fuel keyword) fun _ ↦ hP.pure _
  · exact hP.returnStatement fuel keyword
  · exact hP.bind hP.expectStatementEnd fun _ ↦ hP.pure _
  · exact hP.bind hP.expectStatementEnd fun _ ↦ hP.pure _

theorem construct (fuel : Nat) (token : Token) : P (construct fuel token) := by
  unfold Action.construct
  split
  · exact hP.keywordConstruct fuel token _
  · exact hP.pure _
  · exact hP.pure _
  · refine branch (hP.bind hP.unread fun _ ↦ ?_) (hP.fail _ _)
    exact hP.bind (hP.expressionStatement fuel) fun _ ↦ hP.pure _

theorem readConstruct (fuel : Nat) : P (readConstruct fuel) := by
  refine hP.bind (hP.advance true) fun t ↦ ?_
  cases t with
  | none => exact hP.pure none
  | some t => exact hP.bind (hP.construct fuel t) fun c ↦ hP.pure (some c)

end Compositional

end Linewise.Parser.Action
