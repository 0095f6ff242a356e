import Linewise.Parser
import Linewise.Proofs.Upcoming

namespace Linewise

namespace Upcoming

/-- A token is in reach and comes next. -/
def Next (acrossLines : Bool) (xs : List Upcoming) (token : Token) (ys : List Upcoming) : Prop :=
  ∃ later, xs = ⟨later, .ok token⟩ :: ys ∧ InReach acrossLines ⟨later, .ok token⟩

/-- Nothing is in reach, or else a token of a kind that ends the phrase. -/
def Stops (acrossLines : Bool) (ends : TokenKind → Prop) (xs : List Upcoming) : Prop :=
  ∀ i ∈ xs.head?, i.InReach acrossLines → ∃ token, i.content = .ok token ∧ ends token.kind

theorem Stops.nothing_or_next {b : Bool} {ends : TokenKind → Prop} {xs : List Upcoming}
    (h : Stops b ends xs) :
    (∀ i ∈ xs.head?, ¬ i.InReach b) ∨ ∃ token ys, Next b xs token ys ∧ ends token.kind := by
  by_cases hr : ∀ i ∈ xs.head?, ¬ i.InReach b
  · exact .inl hr
  refine .inr ?_
  cases xs with
  | nil => simp at hr
  | cons i xs =>
    simp only [List.head?_cons, Option.mem_def, Option.some.injEq, forall_eq',
      Classical.not_not] at hr
    obtain ⟨token, hc, he⟩ := h i rfl hr
    obtain ⟨later, content⟩ := i
    cases hc
    exact ⟨token, xs, ⟨later, rfl, hr⟩, he⟩

def looked (acrossLines : Bool) : List Upcoming → List Upcoming
  | [] => []
  | i :: xs => ⟨i.onLaterLine && !acrossLines, i.content⟩ :: xs

@[simp]
theorem looked_false (xs : List Upcoming) : looked false xs = xs := by
  cases xs <;> simp [looked]

@[simp]
theorem map_content_looked (b : Bool) (xs : List Upcoming) :
    (looked b xs).map (·.content) = xs.map (·.content) := by
  cases xs <;> rfl

theorem looked_of_not_inReach {b : Bool} {xs : List Upcoming}
    (h : ∀ i ∈ xs.head?, ¬ i.InReach b) : looked b xs = xs := by
  cases b with
  | false => exact looked_false xs
  | true => cases xs with
    | nil => rfl
    | cons i xs => exact absurd (inReach_true i) (h i rfl)

theorem Next.looked_eq {b : Bool} {xs ys : List Upcoming} {token : Token}
    (h : Next b xs token ys) : looked b xs = .givenBack token :: ys := by
  obtain ⟨later, rfl, hb | hl⟩ := h
  · simp [looked, givenBack, hb]
  · simp only at hl
    simp [looked, givenBack, hl]

theorem Next.looked {b c : Bool} {xs ys : List Upcoming} {token : Token}
    (h : Next b xs token ys) : Next c (looked b xs) token ys :=
  ⟨false, h.looked_eq, inReach_givenBack c token⟩

theorem Next.of_looked {b : Bool} {xs ys : List Upcoming} {token : Token}
    (h : Next b (Upcoming.looked b xs) token ys) : Next b xs token ys := by
  obtain ⟨later, hx, reach⟩ := h
  cases xs with
  | nil => cases hx
  | cons i xs =>
    obtain ⟨later', content⟩ := i
    cases hx
    refine ⟨later', rfl, ?_⟩
    cases b with
    | false => simpa [InReach] using reach
    | true => exact inReach_true _

theorem Next.stops {b : Bool} {ends : TokenKind → Prop} {xs ys : List Upcoming} {token : Token}
    (h : Next b xs token ys) (he : ends token.kind) : Stops b ends xs := by
  obtain ⟨later, rfl, -⟩ := h
  rintro i hi -
  cases hi
  exact ⟨token, rfl, he⟩

end Upcoming

open Upcoming Parser.Action

/-- A part of an expression, with the tree that is built from it. -/
inductive Phrase where
  | primary (e : Expr)
  /-- One call or index after `start`, which makes `e` of it. -/
  | suffix (start e : Expr)
  | suffixes (start e : Expr)
  | operand (e : Expr)
  /-- The operators after `left` that bind at least as tightly as `least`, with their operands. -/
  | operators (least : Nat) (left e : Expr)
  | expression (least : Nat) (e : Expr)
  /-- The arguments of a call from the first one on, and the closing bracket. -/
  | arguments (arguments : List Expr) (closeToken : Token)

def TokenKind.IsUnary (k : TokenKind) : Prop :=
  k = .operation .subtraction ∨ k = .logicalNot ∨ k = .operation .bitwiseNot

/-- Two operands are joined by an operator; only a variable can be assigned to. -/
inductive Expr.Joins : Expr → Token → Expr → Expr → Prop
  | assignment {operator : Token} {target : Variable} {value : Expr} :
      operator.kind.isAssignment = true →
      Joins (.var target) operator value (.assignment operator target value)
  | binary {operator : Token} {left right : Expr} :
      operator.kind.isAssignment = false → Joins left operator right (.binary operator left right)

def Construct.expression? : Construct → Option Expr
  | expression e => some e
  | returnStatement _ value => value
  | _ => none

theorem Literal.token_of_ofToken? {token : Token} {l : Literal}
    (h : Literal.ofToken? token = some l) : l.token = token := by
  unfold Literal.ofToken? at h
  split at h <;> cases h
  rfl

/-- `Reads acrossLines phrase xs ys`: the phrase stands at the front of `xs` and leaves `ys`. -/
inductive Reads : Bool → Phrase → List Upcoming → List Upcoming → Prop
  | literal {b : Bool} {l : Literal} {xs ys : List Upcoming} :
      Next b xs l.token ys → Reads b (.primary (.literal l)) xs ys
  | name {b : Bool} {n : Identifier} {xs ys : List Upcoming} :
      Next b xs n.token ys → Reads b (.primary (.var ⟨n, none⟩)) xs ys
  | dereference {b : Bool} {star : Token} {n : Identifier} {xs ys zs : List Upcoming} :
      Next b xs star ys → star.kind = .operation .multiplication → Next b ys n.token zs →
      Reads b (.primary (.var ⟨n, some star⟩)) xs zs
  | group {b : Bool} {openToken closeToken : Token} {inner : Expr} {xs ys zs ws : List Upcoming} :
      Next b xs openToken ys → openToken.kind = .openParen →
      Reads true (.expression 0 inner) ys zs →
      Next true zs closeToken ws → closeToken.kind = .closeParen →
      Reads b (.primary (.group openToken inner closeToken)) xs ws
  | emptyCall {b : Bool} {callee : Expr} {openToken closeToken : Token}
      {xs ys zs : List Upcoming} :
      Next b xs openToken ys → openToken.kind = .openParen →
      Next true ys closeToken zs → closeToken.kind = .closeParen →
      Reads b (.suffix callee (.call callee openToken [] closeToken)) xs zs
  | call {b : Bool} {callee : Expr} {openToken closeToken : Token} {arguments : List Expr}
      {xs ys zs : List Upcoming} :
      Next b xs openToken ys → openToken.kind = .openParen → Stops true (· ≠ .closeParen) ys →
      Reads true (.arguments arguments closeToken) (looked true ys) zs →
      Reads b (.suffix callee (.call callee openToken arguments closeToken)) xs zs
  | index {b : Bool} {target index : Expr} {openToken closeToken : Token}
      {xs ys zs ws : List Upcoming} :
      Next b xs openToken ys → openToken.kind = .openSquareBracket →
      Reads true (.expression 0 index) ys zs →
      Next true zs closeToken ws → closeToken.kind = .closeSquareBracket →
      Reads b (.suffix target (.index target openToken index closeToken)) xs ws
  | noSuffix {b : Bool} {e : Expr} {xs : List Upcoming} :
      Stops b (fun k ↦ k ≠ .openParen ∧ k ≠ .openSquareBracket) xs →
      Reads b (.suffixes e e) xs (looked b xs)
  | moreSuffixes {b : Bool} {start middle e : Expr} {xs ys zs : List Upcoming} :
      Reads b (.suffix start middle) xs ys → Reads b (.suffixes middle e) ys zs →
      Reads b (.suffixes start e) xs zs
  | suffixed {b : Bool} {start e : Expr} {xs ys zs : List Upcoming} :
      Reads b (.primary start) xs ys → Reads b (.suffixes start e) ys zs →
      Reads b (.operand e) xs zs
  | unary {b : Bool} {operator : Token} {e : Expr} {xs ys zs : List Upcoming} :
      Next b xs operator ys → operator.kind.IsUnary →
      Reads b (.expression BindingPower.unaryOperand e) ys zs →
      Reads b (.operand (.unary operator e)) xs zs
  | lastArgument {argument : Expr} {closeToken : Token} {xs ys zs : List Upcoming} :
      Reads true (.expression 0 argument) xs ys →
      Next true ys closeToken zs → closeToken.kind = .closeParen →
      Reads true (.arguments [argument] closeToken) xs zs
  | moreArguments {argument : Expr} {comma closeToken : Token} {arguments : List Expr}
      {xs ys zs ws : List Upcoming} :
      Reads true (.expression 0 argument) xs ys → Next true ys comma zs → comma.kind = .comma →
      Reads true (.arguments arguments closeToken) zs ws →
      Reads true (.arguments (argument :: arguments) closeToken) xs ws
  | noOperator {b : Bool} {least : Nat} {e : Expr} {xs : List Upcoming} :
      Stops b (fun k ↦ ∀ power ∈ k.bindingPower?, power.left < least) xs →
      Reads b (.operators least e e) xs (looked b xs)
  | operator {b : Bool} {least : Nat} {left right joined e : Expr} {operator : Token}
      {power : BindingPower} {xs ys zs ws : List Upcoming} :
      Next b xs operator ys → operator.kind.bindingPower? = some power → least ≤ power.left →
      Reads b (.expression power.right right) ys zs → left.Joins operator right joined →
      Reads b (.operators least joined e) zs ws → Reads b (.operators least left e) xs ws
  | expression {b : Bool} {least : Nat} {left e : Expr} {xs ys zs : List Upcoming} :
      Reads b (.operand left) xs ys → Reads b (.operators least left e) ys zs →
      Reads b (.expression least e) xs zs

inductive ReadsType (mark : TokenKind) : Option Identifier → List Upcoming → List Upcoming → Prop
  | absent {xs : List Upcoming} :
      Stops true (· ≠ mark) xs → ReadsType mark none xs (looked true xs)
  | given {token : Token} {n : Identifier} {xs ys zs : List Upcoming} :
      Next true xs token ys → token.kind = mark → Next true ys n.token zs →
      ReadsType mark (some n) xs zs

inductive ReadsParameters : ParameterSlot → List Parameter → Token →
    List Upcoming → List Upcoming → Prop
  | close {slot : ParameterSlot} {closeParen : Token} {xs ys : List Upcoming} :
      Next true xs closeParen ys → closeParen.kind = .closeParen → slot ≠ .name →
      ReadsParameters slot [] closeParen xs ys
  | comma {comma closeParen : Token} {parameters : List Parameter} {xs ys zs : List Upcoming} :
      Next true xs comma ys → comma.kind = .comma →
      ReadsParameters .name parameters closeParen ys zs →
      ReadsParameters .commaOrClose parameters closeParen xs zs
  | parameter {slot : ParameterSlot} {n : Identifier} {type : Option Identifier}
      {parameters : List Parameter} {closeParen : Token} {xs ys zs ws : List Upcoming} :
      slot ≠ .commaOrClose → Next true xs n.token ys → ReadsType .colon type ys zs →
      ReadsParameters .commaOrClose parameters closeParen zs ws →
      ReadsParameters slot (⟨n, type⟩ :: parameters) closeParen xs ws

inductive ReadsConstruct : List Upcoming → Construct → List Upcoming → Prop
  | openBrace {brace : Token} {xs ys : List Upcoming} :
      Next true xs brace ys → brace.kind = .openCurlyBrace → ReadsConstruct xs (.openBrace brace) ys
  | closeBrace {brace : Token} {xs ys : List Upcoming} :
      Next true xs brace ys → brace.kind = .closeCurlyBrace →
      ReadsConstruct xs (.closeBrace brace) ys
  | pass {keyword : Token} {xs ys : List Upcoming} :
      Next true xs keyword ys → keyword.kind = .keyword "pass" → Stops false (· = .closeCurlyBrace) ys →
      ReadsConstruct xs (.passStatement keyword) ys
  | break {keyword : Token} {xs ys : List Upcoming} :
      Next true xs keyword ys → keyword.kind = .keyword "break" →
      Stops false (· = .closeCurlyBrace) ys → ReadsConstruct xs (.breakStatement keyword) ys
  | returnNothing {keyword : Token} {xs ys : List Upcoming} :
      Next true xs keyword ys → keyword.kind = .keyword "return" →
      Stops false (· = .closeCurlyBrace) ys → ReadsConstruct xs (.returnStatement keyword none) ys
  | returnValue {keyword token : Token} {e : Expr} {xs ys zs ws : List Upcoming} :
      Next true xs keyword ys → keyword.kind = .keyword "return" →
      Next false ys token zs → token.kind ≠ .closeCurlyBrace →
      Reads false (.expression 0 e) ys ws → Stops false (· = .closeCurlyBrace) ws →
      ReadsConstruct xs (.returnStatement keyword (some e)) ws
  | function {f : FunctionHeader} {xs as bs cs ds es ys : List Upcoming} :
      Next true xs f.keyword as → f.keyword.kind = .keyword "fn" → Next true as f.name.token bs →
      Next true bs f.openParen cs → f.openParen.kind = .openParen →
      ReadsParameters .nameOrClose f.parameters f.closeParen cs ds →
      ReadsType .arrow f.returnType ds es →
      Next true es f.bodyOpen ys → f.bodyOpen.kind = .openCurlyBrace →
      ReadsConstruct xs (.function f) ys
  | expression {token : Token} {e : Expr} {xs ys zs : List Upcoming} :
      Next true xs token ys → startsExpression token.kind = true →
      Reads false (.expression 0 e) (.givenBack token :: ys) zs →
      Stops false (· = .closeCurlyBrace) zs → ReadsConstruct xs (.expression e) zs

inductive ReadsProgram : List Upcoming → List Construct → Prop
  | done : ReadsProgram [] []
  | construct {c : Construct} {cs : List Construct} {xs ys : List Upcoming} :
      ReadsConstruct xs c ys → ReadsProgram ys cs → ReadsProgram xs (c :: cs)

end Linewise
