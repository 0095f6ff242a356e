import Linewise.Proofs.Grammar

namespace Linewise

def TokenKind.IsBinary (k : TokenKind) : Prop :=
  k.isAssignment = false ∧ k.bindingPower?.isSome = true

/-- Every token of the tree is of a kind that its slot is for. -/
inductive Expr.SlotsRight : Expr → Prop
  | literal {l : Literal} : SlotsRight (.literal l)
  | var {n : Identifier} : SlotsRight (.var ⟨n, none⟩)
  | dereference {n : Identifier} {star : Token} : star.kind = .operation .multiplication →
      SlotsRight (.var ⟨n, some star⟩)
  | assignment {operator : Token} {target : Variable} {value : Expr} :
      operator.kind.isAssignment = true → SlotsRight (.var target) → value.SlotsRight →
      SlotsRight (.assignment operator target value)
  | binary {operator : Token} {left right : Expr} :
      operator.kind.IsBinary → left.SlotsRight → right.SlotsRight →
      SlotsRight (.binary operator left right)
  | unary {operator : Token} {operand : Expr} :
      operator.kind.IsUnary → operand.SlotsRight → SlotsRight (.unary operator operand)
  | call {callee : Expr} {openToken closeToken : Token} {arguments : List Expr} :
      callee.SlotsRight → openToken.kind = .openParen → (∀ a ∈ arguments, a.SlotsRight) →
      closeToken.kind = .closeParen → SlotsRight (.call callee openToken arguments closeToken)
  | index {target i : Expr} {openToken closeToken : Token} :
      target.SlotsRight → openToken.kind = .openSquareBracket → i.SlotsRight →
      closeToken.kind = .closeSquareBracket → SlotsRight (.index target openToken i closeToken)
  | group {inner : Expr} {openToken closeToken : Token} :
      openToken.kind = .openParen → inner.SlotsRight → closeToken.kind = .closeParen →
      SlotsRight (.group openToken inner closeToken)

structure FunctionHeader.SlotsRight (f : FunctionHeader) : Prop where
  keyword : f.keyword.kind = .keyword "fn"
  openParen : f.openParen.kind = .openParen
  closeParen : f.closeParen.kind = .closeParen
  bodyOpen : f.bodyOpen.kind = .openCurlyBrace

inductive Construct.SlotsRight : Construct → Prop
  | expression {e : Expr} : e.SlotsRight → SlotsRight (.expression e)
  | openBrace {brace : Token} : brace.kind = .openCurlyBrace → SlotsRight (.openBrace brace)
  | closeBrace {brace : Token} : brace.kind = .closeCurlyBrace → SlotsRight (.closeBrace brace)
  | function {f : FunctionHeader} : f.SlotsRight → SlotsRight (.function f)
  | returnStatement {keyword : Token} {value : Option Expr} : keyword.kind = .keyword "return" →
      (∀ e ∈ value, e.SlotsRight) → SlotsRight (.returnStatement keyword value)
  | passStatement {keyword : Token} : keyword.kind = .keyword "pass" →
      SlotsRight (.passStatement keyword)
  | breakStatement {keyword : Token} : keyword.kind = .keyword "break" →
      SlotsRight (.breakStatement keyword)

theorem Construct.SlotsRight.of_expression? {c : Construct} (h : c.SlotsRight) :
    ∀ e ∈ c.expression?, e.SlotsRight := by
  intro e he
  cases h with
  | expression hs =>
    cases he
    exact hs
  | returnStatement _ hs => exact hs e he
  | _ => cases he

namespace Expr

theorem slotsRight_of_joins {left right e : Expr} {operator : Token} {power : BindingPower}
    (h : left.Joins operator right e) (hp : operator.kind.bindingPower? = some power)
    (hl : left.SlotsRight) (hr : right.SlotsRight) : e.SlotsRight := by
  cases h with
  | assignment hk => exact .assignment hk hl hr
  | binary hk => exact .binary ⟨hk, by rw [hp]; rfl⟩ hl hr

end Expr

def Phrase.SlotsRight : Phrase → Prop
  | primary e | operand e | expression _ e => e.SlotsRight
  | suffix start e | suffixes start e | operators _ start e => start.SlotsRight → e.SlotsRight
  | arguments args closeToken => (∀ a ∈ args, a.SlotsRight) ∧ closeToken.kind = .closeParen

theorem Reads.slotsRight {b : Bool} {phrase : Phrase} {xs ys : List Upcoming}
    (h : Reads b phrase xs ys) : phrase.SlotsRight := by
  induction h with
  | literal => exact .literal
  | name => exact .var
  | dereference _ hk _ => exact .dereference hk
  | group _ hk _ _ hc ih => exact .group hk ih hc
  | emptyCall _ hk _ hc => exact fun hs ↦ .call hs hk (by simp) hc
  | call _ hk _ _ ih => exact fun hs ↦ .call hs hk ih.1 ih.2
  | index _ hk _ _ hc ih => exact fun hs ↦ .index hs hk ih hc
  | noSuffix => exact id
  | moreSuffixes _ _ ih₁ ih₂ => exact fun hs ↦ ih₂ (ih₁ hs)
  | suffixed _ _ ih₁ ih₂ => exact ih₂ ih₁
  | unary _ hk _ ih => exact .unary hk ih
  | lastArgument _ _ hc ih => exact ⟨List.forall_mem_singleton.2 ih, hc⟩
  | moreArguments _ _ _ _ ih₁ ih₂ => exact ⟨List.forall_mem_cons.2 ⟨ih₁, ih₂.1⟩, ih₂.2⟩
  | noOperator => exact id
  | operator _ hp _ _ hj _ ih₁ ih₂ =>
    exact fun hs ↦ ih₂ (Expr.slotsRight_of_joins hj hp hs ih₁)
  | expression _ _ ih₁ ih₂ => exact ih₂ ih₁

theorem ReadsParameters.closeParen {slot : Parser.Action.ParameterSlot} {params : List Parameter}
    {closeParen : Token} {xs ys : List Upcoming}
    (h : ReadsParameters slot params closeParen xs ys) : closeParen.kind = .closeParen := by
  induction h with
  | close _ hk _ => exact hk
  | comma _ _ _ ih | parameter _ _ _ _ ih => exact ih

theorem ReadsConstruct.slotsRight {c : Construct} {xs ys : List Upcoming}
    (h : ReadsConstruct xs c ys) : c.SlotsRight := by
  cases h with
  | openBrace _ hk => exact .openBrace hk
  | closeBrace _ hk => exact .closeBrace hk
  | pass _ hk _ => exact .passStatement hk
  | «break» _ hk _ => exact .breakStatement hk
  | returnNothing _ hk _ => exact .returnStatement hk (by simp)
  | returnValue _ hk _ _ hr _ =>
    refine .returnStatement hk fun e he ↦ ?_
    cases he
    exact hr.slotsRight
  | function _ hk _ _ ho hr _ _ hb => exact .function ⟨hk, ho, hr.closeParen, hb⟩
  | expression _ _ hr _ => exact .expression hr.slotsRight

theorem ReadsProgram.slotsRight {xs : List Upcoming} {cs : List Construct}
    (h : ReadsProgram xs cs) : ∀ c ∈ cs, c.SlotsRight := by
  induction h with
  | done => simp
  | construct hc _ ih => simpa using ⟨hc.slotsRight, ih⟩

end Linewise
