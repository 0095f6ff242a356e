import Linewise.Proofs.Slots

namespace Linewise

namespace Expr

def IsPrimary : Expr → Prop
  | literal _ | var _ | call .. | index .. | group .. => True
  | assignment .. | binary .. | unary .. => False

def operator? : Expr → Option Token
  | assignment operator .. | binary operator .. => some operator
  | _ => none

/-- The operator of the tree binds at least as tightly as `least`. -/
def Binds (least : Nat) (e : Expr) : Prop :=
  ∀ operator ∈ e.operator?, ∀ power ∈ operator.kind.bindingPower?, least ≤ power.left

/-- An operator with left binding power `n` that follows the tree is not taken by any of the operands
that end where the tree ends. -/
def Yields (n : Nat) : Expr → Prop
  | assignment operator _ value =>
    (∀ power ∈ operator.kind.bindingPower?, n < power.right) ∧ value.Yields n
  | binary operator _ right =>
    (∀ power ∈ operator.kind.bindingPower?, n < power.right) ∧ right.Yields n
  | unary _ operand => n < BindingPower.unaryOperand ∧ operand.Yields n
  | _ => True

inductive Canonical : Expr → Prop
  | literal {l : Literal} : Canonical (.literal l)
  | var {v : Variable} : Canonical (.var v)
  | assignment {operator : Token} {target : Variable} {value : Expr} : value.Canonical →
      (∀ power ∈ operator.kind.bindingPower?, value.Binds power.right) →
      Canonical (.assignment operator target value)
  | binary {operator : Token} {left right : Expr} : left.Canonical → right.Canonical →
      (∀ power ∈ operator.kind.bindingPower?, left.Yields power.left ∧ right.Binds power.right) →
      Canonical (.binary operator left right)
  | unary {operator : Token} {operand : Expr} : operand.Canonical →
      operand.Binds BindingPower.unaryOperand → Canonical (.unary operator operand)
  | call {callee : Expr} {openToken closeToken : Token} {arguments : List Expr} :
      callee.Canonical → callee.IsPrimary → (∀ a ∈ arguments, a.Canonical) →
      Canonical (.call callee openToken arguments closeToken)
  | index {target i : Expr} {openToken closeToken : Token} :
      target.Canonical → target.IsPrimary → i.Canonical →
      Canonical (.index target openToken i closeToken)
  | group {inner : Expr} {openToken closeToken : Token} :
      inner.Canonical → Canonical (.group openToken inner closeToken)

theorem IsPrimary.binds {e : Expr} (h : e.IsPrimary) (n : Nat) : e.Binds n := by
  intro operator ho
  cases e <;> first | exact h.elim | cases ho

theorem IsPrimary.yields {e : Expr} (h : e.IsPrimary) (n : Nat) : e.Yields n := by
  cases e <;> first | exact h.elim | trivial

section

variable {left right e : Expr} {operator : Token} {power : BindingPower}

theorem Canonical.of_joins (h : left.Joins operator right e)
    (hp : operator.kind.bindingPower? = some power) (hl : left.Canonical)
    (hy : left.Yields power.left) (hr : right.Canonical) (hb : right.Binds power.right) :
    e.Canonical := by
  cases h with
  | assignment =>
    refine .assignment hr ?_
    rw [hp]
    simpa using hb
  | binary =>
    refine .binary hl hr ?_
    rw [hp]
    simpa using ⟨hy, hb⟩

theorem binds_of_joins {least : Nat} (h : left.Joins operator right e)
    (hp : operator.kind.bindingPower? = some power) (hle : least ≤ power.left) : e.Binds least := by
  cases h <;> simpa [Binds, operator?, hp] using hle

theorem yields_of_joins {n : Nat} (h : left.Joins operator right e)
    (hp : operator.kind.bindingPower? = some power) (hn : n < power.right) (hr : right.Yields n) :
    e.Yields n := by
  cases h <;> simpa [Yields, hp] using ⟨hn, hr⟩

end

end Expr

open Upcoming

/-- What holds of the left binding power of the operator that follows, if one is in reach. -/
def Followed (b : Bool) (xs : List Upcoming) (holds : Nat → Prop) : Prop :=
  ∀ token ys, Next b xs token ys → ∀ power ∈ token.kind.bindingPower?, holds power.left

theorem Followed.looked {b : Bool} {xs : List Upcoming} {holds : Nat → Prop}
    (h : Followed b xs holds) : Followed b (looked b xs) holds :=
  fun token ys hn ↦ h token ys hn.of_looked

def Phrase.Ordered (b : Bool) (xs ys : List Upcoming) : Phrase → Prop
  | primary e => e.Canonical ∧ e.IsPrimary
  | suffix start e | suffixes start e =>
    start.Canonical → start.IsPrimary → e.Canonical ∧ e.IsPrimary
  | operand e => e.Canonical ∧ (∀ n, e.Binds n) ∧ Followed b ys e.Yields
  | operators least left e => left.Canonical → left.Binds least → Followed b xs left.Yields →
    e.Canonical ∧ e.Binds least ∧ Followed b ys fun n ↦ n < least ∧ e.Yields n
  | expression least e =>
    e.Canonical ∧ e.Binds least ∧ Followed b ys fun n ↦ n < least ∧ e.Yields n
  | arguments args _ => ∀ a ∈ args, a.Canonical

theorem Reads.ordered {b : Bool} {phrase : Phrase} {xs ys : List Upcoming}
    (h : Reads b phrase xs ys) : phrase.Ordered b xs ys := by
  induction h with
  | literal => exact ⟨.literal, trivial⟩
  | name | dereference => exact ⟨.var, trivial⟩
  | group _ _ _ _ _ ih => exact ⟨.group ih.1, trivial⟩
  | emptyCall => exact fun hc hp ↦ ⟨.call hc hp (by simp), trivial⟩
  | call _ _ _ _ ih => exact fun hc hp ↦ ⟨.call hc hp ih, trivial⟩
  | index _ _ _ _ _ ih => exact fun hc hp ↦ ⟨.index hc hp ih.1, trivial⟩
  | noSuffix => exact fun hc hp ↦ ⟨hc, hp⟩
  | moreSuffixes _ _ ih₁ ih₂ =>
    intro hc hp
    obtain ⟨hc', hp'⟩ := ih₁ hc hp
    exact ih₂ hc' hp'
  | suffixed _ _ ih₁ ih₂ =>
    obtain ⟨hc, hp⟩ := ih₂ ih₁.1 ih₁.2
    exact ⟨hc, hp.binds, fun _ _ _ _ _ ↦ hp.yields _⟩
  | unary _ _ _ ih =>
    obtain ⟨hc, hb, hf⟩ := ih
    refine ⟨.unary hc hb, ⟨fun n o ho ↦ ?_, hf⟩⟩
    cases ho
  | lastArgument _ _ _ ih => exact List.forall_mem_singleton.2 ih.1
  | moreArguments _ _ _ _ ih₁ ih₂ => exact List.forall_mem_cons.2 ⟨ih₁.1, ih₂⟩
  | noOperator hs =>
    intro hc hb hf
    refine ⟨hc, hb, Followed.looked fun token ys hn power hp ↦ ⟨?_, hf token ys hn power hp⟩⟩
    obtain ⟨later, rfl, reach⟩ := hn
    obtain ⟨t, ht, hend⟩ := hs _ rfl reach
    cases ht
    exact hend power hp
  | @operator b least left right joined e operator power xs ys zs ws hn hp hle _ hj _ ih₁ ih₂ =>
    intro hc hb hf
    obtain ⟨hcr, hbr, hfr⟩ := ih₁
    have hjoined := Expr.Canonical.of_joins hj hp hc (hf operator ys hn power hp) hcr hbr
    refine ih₂ hjoined (Expr.binds_of_joins hj hp hle) fun token vs ht power' hp' ↦ ?_
    obtain ⟨hlt, hy⟩ := hfr token vs ht power' hp'
    exact Expr.yields_of_joins hj hp hlt hy
  | expression _ _ ih₁ ih₂ => exact ih₂ ih₁.1 (ih₁.2.1 _) ih₁.2.2

theorem ReadsConstruct.canonical {c : Construct} {xs ys : List Upcoming}
    (h : ReadsConstruct xs c ys) : ∀ e ∈ c.expression?, e.Canonical := by
  intro e he
  cases h with
  | openBrace | closeBrace | pass | «break» | returnNothing | function => cases he
  | returnValue _ _ _ _ hr | expression _ _ hr =>
    cases he
    exact hr.ordered.1

theorem ReadsProgram.canonical {xs : List Upcoming} {cs : List Construct}
    (h : ReadsProgram xs cs) : ∀ c ∈ cs, ∀ e ∈ c.expression?, e.Canonical := by
  induction h with
  | done => simp
  | construct hc _ ih => exact List.forall_mem_cons.2 ⟨hc.canonical, ih⟩

end Linewise
