import Linewise.Token

namespace Linewise

structure Identifier where
  text : String
  span : Span
deriving DecidableEq, Repr

namespace Identifier

def token (n : Identifier) : Token := ⟨.identifier n.text, n.span⟩

end Identifier

namespace Token

def identifier? (t : Token) : Option Identifier :=
  match t.kind with
  | .identifier text => some ⟨text, t.span⟩
  | _ => none

theorem token_of_identifier? {t : Token} {n : Identifier} (h : t.identifier? = some n) :
    n.token = t := by
  obtain ⟨kind, span⟩ := t
  unfold identifier? at h
  split at h <;> cases h
  simp_all [Identifier.token]

end Token

structure Literal where
  token : Token
  isLiteral : token.kind.isLiteral = true
deriving DecidableEq, Repr

namespace Literal

def ofToken? (token : Token) : Option Literal :=
  if h : token.kind.isLiteral then some ⟨token, h⟩ else none

end Literal

/-- A variable; with a star in front of its name it stands for what the variable points at. -/
structure Variable where
  name : Identifier
  star : Option Token
deriving DecidableEq, Repr

namespace Variable

def span (v : Variable) : Span :=
  match v.star with
  | none => v.name.span
  | some star => star.span.merge v.name.span

end Variable

inductive Expr where
  | literal (l : Literal)
  | var (v : Variable)
  | assignment (operator : Token) (target : Variable) (value : Expr)
  | binary (operator : Token) (left right : Expr)
  | unary (operator : Token) (operand : Expr)
  | call (callee : Expr) (openToken : Token) (arguments : List Expr) (closeToken : Token)
  | index (target : Expr) (openToken : Token) (index : Expr) (closeToken : Token)
  | group (openToken : Token) (inner : Expr) (closeToken : Token)
deriving Repr

namespace Expr

/-- Induction over a tree, the arguments of a call included. -/
@[elab_as_elim, induction_eliminator]
theorem induct {motive : Expr → Prop} (literal : ∀ l, motive (literal l)) (var : ∀ v, motive (var v))
    (assignment : ∀ operator target value, motive value → motive (assignment operator target value))
    (binary : ∀ operator left right, motive left → motive right →
      motive (binary operator left right))
    (unary : ∀ operator operand, motive operand → motive (unary operator operand))
    (call : ∀ callee openToken arguments closeToken, motive callee →
      (∀ a ∈ arguments, motive a) → motive (call callee openToken arguments closeToken))
    (index : ∀ target openToken i closeToken, motive target → motive i →
      motive (index target openToken i closeToken))
    (group : ∀ openToken inner closeToken, motive inner →
      motive (group openToken inner closeToken)) (e : Expr) : motive e := by
  have below : ∀ x : Expr, sizeOf x < sizeOf e → motive x := fun x _ ↦
    induct literal var assignment binary unary call index group x
  cases e with
  | literal l => exact literal l
  | var v => exact var v
  | assignment o t v =>
    exact assignment o t v (below v (by simp only [Expr.assignment.sizeOf_spec]; omega))
  | binary o l r =>
    exact binary o l r (below l (by simp only [Expr.binary.sizeOf_spec]; omega))
      (below r (by simp only [Expr.binary.sizeOf_spec]; omega))
  | unary o x => exact unary o x (below x (by simp only [Expr.unary.sizeOf_spec]; omega))
  | call f o args c =>
    refine call f o args c (below f (by simp only [Expr.call.sizeOf_spec]; omega)) fun a ha ↦ below a ?_
    have := List.sizeOf_lt_of_mem ha
    simp only [Expr.call.sizeOf_spec]
    omega
  | index t o i c =>
    exact index t o i c (below t (by simp only [Expr.index.sizeOf_spec]; omega))
      (below i (by simp only [Expr.index.sizeOf_spec]; omega))
  | group o x c => exact group o x c (below x (by simp only [Expr.group.sizeOf_spec]; omega))
termination_by e

def token : Expr → Token
  | literal l => l.token
  | var v => v.name.token
  | assignment operator .. | binary operator .. | unary operator .. => operator
  | call _ openToken .. | index _ openToken .. | group openToken .. => openToken

def span : Expr → Span
  | literal l => l.token.span
  | var v => v.span
  | assignment _ target value => target.span.merge value.span
  | binary _ left right => left.span.merge right.span
  | unary operator operand => operator.span.merge operand.span
  | call callee _ _ closeToken => callee.span.merge closeToken.span
  | index target _ _ closeToken => target.span.merge closeToken.span
  | group openToken _ closeToken => openToken.span.merge closeToken.span

def description : Expr → String
  | literal _ => "literal"
  | var _ => "variable"
  | assignment .. => "assignment"
  | binary .. => "binary expression"
  | unary .. => "unary expression"
  | call .. => "call"
  | index .. => "index"
  | group .. => "group"

end Expr

end Linewise
