import Linewise.Token.Kind

namespace Linewise

/-- The tiers of binding, from the loosest to the tightest. -/
inductive Precedence where
  | separator
  | assignment
  | logical
  | equality
  | relational
  | shift
  | additive
  | multiplicative
  | exponent
  | unary
  | member
deriving DecidableEq, Repr

namespace Precedence

def rank (p : Precedence) : Nat := p.ctorIdx

end Precedence

inductive Associativity where
  | left
  | right
deriving DecidableEq, Repr

namespace Operation

def precedence : Operation → Precedence
  | leftShift | rightShift => .shift
  | addition | subtraction | bitwiseAnd | bitwiseOr | bitwiseXor => .additive
  | multiplication | division | floorDivision | modulo => .multiplicative
  | exponent => .exponent
  | bitwiseNot => .unary

end Operation

namespace TokenKind

def precedence? : TokenKind → Option Precedence
  | comma => some .separator
  | assignment | compoundAssignment _ => some .assignment
  | logicalAnd | logicalOr => some .logical
  | equalTo | notEqualTo => some .equality
  | greaterThan | lessThan | greaterThanOrEqual | lessThanOrEqual => some .relational
  | operation op => some op.precedence
  | logicalNot => some .unary
  | dot | arrow | atSign | scopeResolution => some .member
  | _ => none

def isAssignment : TokenKind → Bool
  | assignment | compoundAssignment _ => true
  | _ => false

def associativity (k : TokenKind) : Associativity :=
  if k.isAssignment || k == operation .exponent then .right else .left

end TokenKind

/-- The least binding that an operator on either side of an operand must have to take it. -/
structure BindingPower where
  left : Nat
  right : Nat
deriving DecidableEq, Repr

namespace Precedence

/-- The binding power of a tier; the gaps keep both sides of a tier below the next one. -/
def level (p : Precedence) : Nat := (p.rank + 1) * 10

end Precedence

namespace BindingPower

def unaryOperand : Nat := Precedence.unary.level

end BindingPower

namespace TokenKind

def bindingPower? (k : TokenKind) : Option BindingPower :=
  match k.precedence? with
  | none | some .separator | some .unary => none
  | some tier => match k.associativity with
    | .left => some ⟨tier.level, tier.level + 1⟩
    | .right => some ⟨tier.level + 1, tier.level⟩

end TokenKind

end Linewise
