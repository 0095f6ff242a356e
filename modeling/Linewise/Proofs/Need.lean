import Linewise.Proofs.Grammar

namespace Linewise

namespace Expr

mutual

/-- The number of expressions that are open at once while the tree is parsed, itself included. -/
def need : Expr → Nat
  | literal _ | var _ => 1
  | assignment _ _ value => 1 + value.need
  | binary _ left right => max left.need (1 + right.need)
  | unary _ operand => 1 + operand.need
  | call callee _ arguments _ => max callee.need (argumentsNeed arguments)
  | index target _ i _ => max target.need (1 + i.need)
  | group _ inner _ => 1 + inner.need

def argumentsNeed : List Expr → Nat
  | [] => 0
  | argument :: arguments => max (1 + argument.need) (argumentsNeed arguments)

end

theorem one_le_need (e : Expr) : 1 ≤ e.need := by
  induction e <;> simp_all only [need] <;> omega

theorem need_le_of_joins {left right e : Expr} {operator : Token}
    (h : left.Joins operator right e) : left.need ≤ e.need ∧ 1 + right.need ≤ e.need := by
  cases h with
  | assignment _ =>
    have := one_le_need right
    simp only [need]
    omega
  | binary _ =>
    simp only [need]
    omega

theorem need_of_joins {left right e : Expr} {operator : Token}
    (h : left.Joins operator right e) : e.need ≤ max left.need (1 + right.need) := by
  cases h with
  | assignment _ => exact Nat.le_max_right _ _
  | binary _ => exact Nat.le_refl _

end Expr

def Phrase.need : Phrase → Nat
  | primary e | suffix _ e | suffixes _ e | operand e | operators _ _ e => e.need
  | expression _ e => 1 + e.need
  | arguments args _ => Expr.argumentsNeed args

/-- The parts of a phrase need no more than the phrase. -/
theorem Reads.need_le {b : Bool} {phrase : Phrase} {xs ys : List Upcoming}
    (h : Reads b phrase xs ys) : match phrase with
      | .suffix start e | .suffixes start e | .operators _ start e => start.need ≤ e.need
      | _ => True := by
  induction h with
  | emptyCall | call | index => exact Nat.le_max_left _ _
  | noSuffix | noOperator => exact Nat.le_refl _
  | moreSuffixes _ _ ih₁ ih₂ => exact Nat.le_trans ih₁ ih₂
  | operator _ _ _ _ hj _ _ ih => exact Nat.le_trans (Expr.need_le_of_joins hj).1 ih
  | _ => trivial

end Linewise
