import Linewise.Proofs.Need

namespace Linewise

open Upcoming Parser.Action

/-- No text ends inside a construct because of its characters. -/
theorem LexicalCause.code_ne (cause : LexicalCause) : cause.code ≠ .P0002 := by
  cases cause <;> simp [code]

namespace GrammarError

def expected (what : String) (found : Token) : GrammarError :=
  ⟨.expected what found.kind.describe, some found.span⟩

def unterminated (construct : String) : GrammarError := ⟨.unterminated construct, none⟩

def noOperand (acrossLines : Bool) (last : Option Token) : GrammarError :=
  if acrossLines then unterminated "expression"
  else ⟨.expected "expression" "end of line", last.map (·.span)⟩

end GrammarError

namespace Token

def require (kind : TokenKind) (what : String) (t : Token) : Option GrammarError :=
  if t.kind = kind then none else some (.expected what t)

def requireName (what : String) (t : Token) : Option GrammarError :=
  if t.identifier?.isSome then none else some (.expected what t)

def requireOperand (t : Token) : Option GrammarError :=
  if startsExpression t.kind then none else some (.expected "expression" t)

def requireSeparator (t : Token) : Option GrammarError :=
  if t.kind = .comma ∨ t.kind = .closeParen then none else some (.expected "',' or ')'" t)

def requireFunctionName (t : Token) : Option GrammarError :=
  match t.kind with
  | .identifier _ => none
  | .keyword word => some ⟨.keywordAsFunctionName word, some t.span⟩
  | _ => some (.expected "function name" t)

def requireSlot (slot : ParameterSlot) (t : Token) : Option GrammarError :=
  match t.kind, slot with
  | .closeParen, .nameOrClose | .closeParen, .commaOrClose => none
  | .comma, .commaOrClose => none
  | .comma, _ => some ⟨.unexpectedComma, some t.span⟩
  | .identifier _, .nameOrClose | .identifier _, .name => none
  | _, .commaOrClose => some (.expected "',' or ')'" t)
  | _, _ => some (.expected "parameter name" t)

def requireConstruct (t : Token) : Option GrammarError :=
  match t.kind with
  | .keyword word =>
    if word ∈ ["fn", "return", "pass", "break"] then none
    else some ⟨.unsupportedKeyword word, some t.span⟩
  | .openCurlyBrace | .closeCurlyBrace => none
  | kind => if startsExpression kind then none else some ⟨.unexpected kind.describe, some t.span⟩

def requireStatementEnd : Token → Option GrammarError := require .closeCurlyBrace "end of line"

end Token

namespace Upcoming

/-- Reading ends at what comes next: a lexical error, or nothing in reach where the absence is an error,
or a token that is wrong here. -/
inductive Halts (acrossLines : Bool) (absence : Option GrammarError)
    (wrong : Token → Option GrammarError) : List Upcoming → SyntaxError → Prop
  | lexical {later : Bool} {e : LexicalError} : InReach acrossLines ⟨later, .error e⟩ →
      Halts acrossLines absence wrong [⟨later, .error e⟩] (.lexical e)
  | absent {xs : List Upcoming} {e : GrammarError} : (∀ i ∈ xs.head?, ¬ i.InReach acrossLines) →
      e ∈ absence → Halts acrossLines absence wrong xs (.grammar e)
  | token {t : Token} {xs ys : List Upcoming} {e : GrammarError} : Next acrossLines xs t ys →
      e ∈ wrong t → Halts acrossLines absence wrong xs (.grammar e)

abbrev HaltsLexically (acrossLines : Bool) : List Upcoming → SyntaxError → Prop :=
  Halts acrossLines none fun _ ↦ none

abbrev HaltsIn (construct : String) (wrong : Token → Option GrammarError) :
    List Upcoming → SyntaxError → Prop :=
  Halts true (some (.unterminated construct)) wrong

theorem Halts.of_looked {absence : Option GrammarError} {wrong : Token → Option GrammarError}
    {xs : List Upcoming} {e : SyntaxError} (h : Halts true absence wrong (looked true xs) e) :
    Halts true absence wrong xs e := by
  generalize hl : looked true xs = ys at h
  cases h with
  | lexical =>
    cases xs with
    | nil => cases hl
    | cons i xs =>
      obtain ⟨later, content⟩ := i
      cases hl
      exact .lexical (inReach_true _)
  | absent hn hg =>
    subst hl
    cases xs with
    | nil => exact .absent (by simp) hg
    | cons i xs => exact absurd (inReach_true _) (hn _ rfl)
  | token hn hg =>
    subst hl
    exact .token hn.of_looked hg

end Upcoming

/-- A phrase is read, and no more expressions are nested in the current one than there is room for. -/
def ReadsWithin (room : Nat) (acrossLines : Bool) (phrase : Phrase) (xs ys : List Upcoming) : Prop :=
  Reads acrossLines phrase xs ys ∧ phrase.need ≤ room + 1

/-- A part of an expression that is being read, with the last token before it. -/
inductive Goal where
  | operand (last : Option Token)
  | suffixes (start : Expr)
  | operators (least : Nat) (left : Expr)
  | expression (last : Option Token) (least : Nat)
  | arguments (last : Option Token)

/-- `Rejects limit room acrossLines goal xs e`: reading the goal off the front of `xs` ends in the error
`e`, where `room` more expressions may be nested in the current one. -/
inductive Rejects (limit : Nat) : Nat → Bool → Goal → List Upcoming → SyntaxError → Prop
  | operand {room : Nat} {b : Bool} {last : Option Token} {xs : List Upcoming} {e : SyntaxError} :
      Halts b (some (.noOperand b last)) Token.requireOperand xs e →
      Rejects limit room b (.operand last) xs e
  | dereference {room : Nat} {b : Bool} {last : Option Token} {star : Token} {xs ys : List Upcoming}
      {e : SyntaxError} :
      Next b xs star ys → star.kind = .operation .multiplication →
      Halts b (some (.noOperand b star)) (Token.requireName "identifier after '*'") ys e →
      Rejects limit room b (.operand last) xs e
  | group {room : Nat} {b : Bool} {last : Option Token} {openToken : Token} {xs ys : List Upcoming}
      {e : SyntaxError} :
      Next b xs openToken ys → openToken.kind = .openParen →
      Rejects limit room true (.expression openToken 0) ys e →
      Rejects limit room b (.operand last) xs e
  | groupEnd {room : Nat} {b : Bool} {last : Option Token} {openToken : Token} {inner : Expr}
      {xs ys zs : List Upcoming} {e : SyntaxError} :
      Next b xs openToken ys → openToken.kind = .openParen →
      ReadsWithin room true (.expression 0 inner) ys zs →
      HaltsIn "parenthesised expression" (Token.require .closeParen "')'") zs e →
      Rejects limit room b (.operand last) xs e
  | unary {room : Nat} {b : Bool} {last : Option Token} {operator : Token} {xs ys : List Upcoming}
      {e : SyntaxError} :
      Next b xs operator ys → operator.kind.IsUnary →
      Rejects limit room b (.expression operator BindingPower.unaryOperand) ys e →
      Rejects limit room b (.operand last) xs e
  | suffixed {room : Nat} {b : Bool} {last : Option Token} {start : Expr} {xs ys : List Upcoming}
      {e : SyntaxError} :
      ReadsWithin room b (.primary start) xs ys → Rejects limit room b (.suffixes start) ys e →
      Rejects limit room b (.operand last) xs e
  | suffixes {room : Nat} {b : Bool} {start : Expr} {xs : List Upcoming} {e : SyntaxError} :
      HaltsLexically b xs e → Rejects limit room b (.suffixes start) xs e
  | call {room : Nat} {b : Bool} {start : Expr} {openToken : Token} {xs ys : List Upcoming}
      {e : SyntaxError} :
      Next b xs openToken ys → openToken.kind = .openParen → HaltsLexically true ys e →
      Rejects limit room b (.suffixes start) xs e
  | callArguments {room : Nat} {b : Bool} {start : Expr} {openToken : Token} {xs ys : List Upcoming}
      {e : SyntaxError} :
      Next b xs openToken ys → openToken.kind = .openParen → Stops true (· ≠ .closeParen) ys →
      Rejects limit room true (.arguments openToken) (looked true ys) e →
      Rejects limit room b (.suffixes start) xs e
  | index {room : Nat} {b : Bool} {start : Expr} {openToken : Token} {xs ys : List Upcoming}
      {e : SyntaxError} :
      Next b xs openToken ys → openToken.kind = .openSquareBracket →
      Rejects limit room true (.expression openToken 0) ys e →
      Rejects limit room b (.suffixes start) xs e
  | indexEnd {room : Nat} {b : Bool} {start : Expr} {openToken : Token} {index : Expr}
      {xs ys zs : List Upcoming} {e : SyntaxError} :
      Next b xs openToken ys → openToken.kind = .openSquareBracket →
      ReadsWithin room true (.expression 0 index) ys zs →
      HaltsIn "index" (Token.require .closeSquareBracket "']'") zs e →
      Rejects limit room b (.suffixes start) xs e
  | moreSuffixes {room : Nat} {b : Bool} {start middle : Expr} {xs ys : List Upcoming}
      {e : SyntaxError} :
      ReadsWithin room b (.suffix start middle) xs ys → Rejects limit room b (.suffixes middle) ys e →
      Rejects limit room b (.suffixes start) xs e
  | argument {room : Nat} {last : Option Token} {xs : List Upcoming} {e : SyntaxError} :
      Rejects limit room true (.expression last 0) xs e →
      Rejects limit room true (.arguments last) xs e
  | argumentEnd {room : Nat} {last : Option Token} {argument : Expr} {xs ys : List Upcoming}
      {e : SyntaxError} :
      ReadsWithin room true (.expression 0 argument) xs ys →
      HaltsIn "call arguments" Token.requireSeparator ys e →
      Rejects limit room true (.arguments last) xs e
  | moreArguments {room : Nat} {last : Option Token} {argument : Expr} {comma : Token}
      {xs ys zs : List Upcoming} {e : SyntaxError} :
      ReadsWithin room true (.expression 0 argument) xs ys → Next true ys comma zs →
      comma.kind = .comma → Rejects limit room true (.arguments comma) zs e →
      Rejects limit room true (.arguments last) xs e
  | operators {room : Nat} {b : Bool} {least : Nat} {left : Expr} {xs : List Upcoming}
      {e : SyntaxError} :
      HaltsLexically b xs e → Rejects limit room b (.operators least left) xs e
  | rightOperand {room : Nat} {b : Bool} {least : Nat} {left : Expr} {operator : Token}
      {power : BindingPower} {xs ys : List Upcoming} {e : SyntaxError} :
      Next b xs operator ys → operator.kind.bindingPower? = some power → least ≤ power.left →
      Rejects limit room b (.expression operator power.right) ys e →
      Rejects limit room b (.operators least left) xs e
  | target {room : Nat} {b : Bool} {least : Nat} {left right : Expr} {operator : Token}
      {power : BindingPower} {xs ys zs : List Upcoming} :
      Next b xs operator ys → operator.kind.bindingPower? = some power → least ≤ power.left →
      ReadsWithin room b (.expression power.right right) ys zs →
      operator.kind.isAssignment = true → (∀ v, left ≠ .var v) →
      Rejects limit room b (.operators least left) xs
        (.grammar ⟨.invalidAssignmentTarget, some left.span⟩)
  | moreOperators {room : Nat} {b : Bool} {least : Nat} {left right joined : Expr} {operator : Token}
      {power : BindingPower} {xs ys zs : List Upcoming} {e : SyntaxError} :
      Next b xs operator ys → operator.kind.bindingPower? = some power → least ≤ power.left →
      ReadsWithin room b (.expression power.right right) ys zs → left.Joins operator right joined →
      Rejects limit room b (.operators least joined) zs e →
      Rejects limit room b (.operators least left) xs e
  | tooDeep {b : Bool} {last : Option Token} {least : Nat} {xs : List Upcoming} :
      Rejects limit 0 b (.expression last least) xs
        (.grammar ⟨.nestingTooDeep limit, last.map (·.span)⟩)
  | left {room : Nat} {b : Bool} {last : Option Token} {least : Nat} {xs : List Upcoming}
      {e : SyntaxError} :
      Rejects limit room b (.operand last) xs e →
      Rejects limit (room + 1) b (.expression last least) xs e
  | expression {room : Nat} {b : Bool} {last : Option Token} {least : Nat} {left : Expr}
      {xs ys : List Upcoming} {e : SyntaxError} :
      ReadsWithin room b (.operand left) xs ys → Rejects limit room b (.operators least left) ys e →
      Rejects limit (room + 1) b (.expression last least) xs e

inductive RejectsStatement (limit : Nat) (last : Option Token) : List Upcoming → SyntaxError → Prop
  | expression {xs : List Upcoming} {e : SyntaxError} :
      Rejects limit limit false (.expression last 0) xs e → RejectsStatement limit last xs e
  | statementEnd {value : Expr} {xs ys : List Upcoming} {e : SyntaxError} :
      ReadsWithin limit false (.expression 0 value) xs ys →
      Halts false none Token.requireStatementEnd ys e → RejectsStatement limit last xs e

inductive RejectsType (mark : TokenKind) (construct what : String) : List Upcoming → SyntaxError → Prop
  | mark {xs : List Upcoming} {e : SyntaxError} :
      HaltsLexically true xs e → RejectsType mark construct what xs e
  | name {token : Token} {xs ys : List Upcoming} {e : SyntaxError} :
      Next true xs token ys → token.kind = mark → HaltsIn construct (Token.requireName what) ys e →
      RejectsType mark construct what xs e

inductive RejectsParameters : ParameterSlot → List Upcoming → SyntaxError → Prop
  | slot {slot : ParameterSlot} {xs : List Upcoming} {e : SyntaxError} :
      HaltsIn "parameters" (Token.requireSlot slot) xs e → RejectsParameters slot xs e
  | comma {comma : Token} {xs ys : List Upcoming} {e : SyntaxError} :
      Next true xs comma ys → comma.kind = .comma → RejectsParameters .name ys e →
      RejectsParameters .commaOrClose xs e
  | type {slot : ParameterSlot} {n : Identifier} {xs ys : List Upcoming} {e : SyntaxError} :
      slot ≠ .commaOrClose → Next true xs n.token ys →
      RejectsType .colon "parameters" "parameter type" ys e → RejectsParameters slot xs e
  | parameter {slot : ParameterSlot} {n : Identifier} {type : Option Identifier}
      {xs ys zs : List Upcoming} {e : SyntaxError} :
      slot ≠ .commaOrClose → Next true xs n.token ys → ReadsType .colon type ys zs →
      RejectsParameters .commaOrClose zs e → RejectsParameters slot xs e

inductive RejectsHeader : List Upcoming → SyntaxError → Prop
  | name {xs : List Upcoming} {e : SyntaxError} :
      HaltsIn "function declaration" Token.requireFunctionName xs e → RejectsHeader xs e
  | openParen {n : Identifier} {xs ys : List Upcoming} {e : SyntaxError} :
      Next true xs n.token ys → HaltsIn "function declaration" (Token.require .openParen "'('") ys e →
      RejectsHeader xs e
  | parameters {n : Identifier} {openParen : Token} {xs ys zs : List Upcoming} {e : SyntaxError} :
      Next true xs n.token ys → Next true ys openParen zs → openParen.kind = .openParen →
      RejectsParameters .nameOrClose zs e → RejectsHeader xs e
  | returnType {n : Identifier} {openParen closeParen : Token} {parameters : List Parameter}
      {xs ys zs ws : List Upcoming} {e : SyntaxError} :
      Next true xs n.token ys → Next true ys openParen zs → openParen.kind = .openParen →
      ReadsParameters .nameOrClose parameters closeParen zs ws →
      RejectsType .arrow "function declaration" "return type after '->'" ws e → RejectsHeader xs e
  | bodyOpen {n : Identifier} {openParen closeParen : Token} {parameters : List Parameter}
      {type : Option Identifier} {xs ys zs ws vs : List Upcoming} {e : SyntaxError} :
      Next true xs n.token ys → Next true ys openParen zs → openParen.kind = .openParen →
      ReadsParameters .nameOrClose parameters closeParen zs ws → ReadsType .arrow type ws vs →
      HaltsIn "function declaration"
        (Token.require .openCurlyBrace "'\x7b' (as start of function body)") vs e →
      RejectsHeader xs e

inductive RejectsConstruct (limit : Nat) : List Upcoming → SyntaxError → Prop
  | start {xs : List Upcoming} {e : SyntaxError} :
      Halts true none Token.requireConstruct xs e → RejectsConstruct limit xs e
  | word {keyword : Token} {xs ys : List Upcoming} {e : SyntaxError} :
      Next true xs keyword ys → keyword.kind = .keyword "pass" ∨ keyword.kind = .keyword "break" →
      Halts false none Token.requireStatementEnd ys e → RejectsConstruct limit xs e
  | returned {keyword : Token} {xs ys : List Upcoming} {e : SyntaxError} :
      Next true xs keyword ys → keyword.kind = .keyword "return" → HaltsLexically false ys e →
      RejectsConstruct limit xs e
  | returnValue {keyword token : Token} {xs ys zs : List Upcoming} {e : SyntaxError} :
      Next true xs keyword ys → keyword.kind = .keyword "return" →
      Next false ys token zs → token.kind ≠ .closeCurlyBrace → RejectsStatement limit keyword ys e →
      RejectsConstruct limit xs e
  | function {keyword : Token} {xs ys : List Upcoming} {e : SyntaxError} :
      Next true xs keyword ys → keyword.kind = .keyword "fn" → RejectsHeader ys e →
      RejectsConstruct limit xs e
  | expression {token : Token} {xs ys : List Upcoming} {e : SyntaxError} :
      Next true xs token ys → startsExpression token.kind = true →
      RejectsStatement limit none (.givenBack token :: ys) e → RejectsConstruct limit xs e

inductive RejectsProgram (limit : Nat) : List Upcoming → SyntaxError → Prop
  | here {xs : List Upcoming} {e : SyntaxError} :
      RejectsConstruct limit xs e → RejectsProgram limit xs e
  | later {c : Construct} {xs ys : List Upcoming} {e : SyntaxError} :
      ReadsConstruct xs c ys → (∀ value ∈ c.expression?, value.need ≤ limit) →
      RejectsProgram limit ys e → RejectsProgram limit xs e

end Linewise
