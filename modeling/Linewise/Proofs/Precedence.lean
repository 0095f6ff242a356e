import Linewise.Proofs.Canonical
import Linewise.Proofs.Parser.ProgramSoundness

namespace Linewise

theorem Precedence.eq_of_rank_eq {p q : Precedence} (h : p.rank = q.rank) : p = q := by
  cases p <;> cases q <;> first | rfl | exact absurd h (by decide)

def Precedence.associativity : Precedence → Associativity
  | assignment | exponent => .right
  | _ => .left

def Precedence.power (p : Precedence) : BindingPower :=
  match p.associativity with
  | .left => ⟨p.level, p.level + 1⟩
  | .right => ⟨p.level + 1, p.level⟩

theorem Precedence.power_eq (p : Precedence) :
    p.rank * 10 + 10 ≤ p.power.left ∧ p.power.left ≤ p.rank * 10 + 11 ∧
      p.rank * 10 + 10 ≤ p.power.right ∧ p.power.right ≤ p.rank * 10 + 11 := by
  cases h : p.associativity <;> simp only [power, h, level] <;> omega

namespace TokenKind

theorem associativity_of_precedence? {k : TokenKind} {tier : Precedence}
    (h : k.precedence? = some tier) : k.associativity = tier.associativity := by
  cases k with
  | operation op => cases op <;> cases h <;> rfl
  | keyword | identifier | char | string | integer | float => cases h
  | _ => cases h <;> rfl

theorem exists_tier {k : TokenKind} {power : BindingPower} (h : k.bindingPower? = some power) :
    ∃ tier, k.precedence? = some tier ∧ tier ≠ .separator ∧ tier ≠ .unary ∧ power = tier.power := by
  unfold bindingPower? at h
  cases hk : k.precedence? with
  | none => simp [hk] at h
  | some tier =>
    have ha := associativity_of_precedence? hk
    rw [hk, ha] at h
    refine ⟨tier, rfl, ?_, ?_, ?_⟩
    · rintro rfl
      cases h
    · rintro rfl
      cases h
    · cases tier <;> cases h <;> rfl

def Tighter (j k : TokenKind) : Prop :=
  ∃ p q, j.precedence? = some p ∧ k.precedence? = some q ∧ q.rank < p.rank

def SameTier (j k : TokenKind) : Prop := j.precedence? = k.precedence?

section

variable {j k : TokenKind} {a b : BindingPower}

theorem tighter_of_right_le (hj : j.bindingPower? = some a) (hk : k.bindingPower? = some b)
    (h : b.right ≤ a.left) : j.Tighter k ∨ j.SameTier k ∧ k.associativity = .right := by
  obtain ⟨p, hp, -, -, rfl⟩ := exists_tier hj
  obtain ⟨q, hq, -, -, rfl⟩ := exists_tier hk
  rcases Nat.lt_trichotomy q.rank p.rank with hlt | heq | hgt
  · exact .inl ⟨p, q, hp, hq, hlt⟩
  · obtain rfl := Precedence.eq_of_rank_eq heq
    refine .inr ⟨hp.trans hq.symm, (associativity_of_precedence? hq).trans ?_⟩
    cases hs : q.associativity with
    | right => rfl
    | left =>
      simp only [Precedence.power, hs] at h
      omega
  · have hp' := p.power_eq
    have hq' := q.power_eq
    omega

theorem tighter_of_left_lt (hj : j.bindingPower? = some a) (hk : k.bindingPower? = some b)
    (h : b.left < a.right) : j.Tighter k ∨ j.SameTier k ∧ k.associativity = .left := by
  obtain ⟨p, hp, -, -, rfl⟩ := exists_tier hj
  obtain ⟨q, hq, -, -, rfl⟩ := exists_tier hk
  rcases Nat.lt_trichotomy q.rank p.rank with hlt | heq | hgt
  · exact .inl ⟨p, q, hp, hq, hlt⟩
  · obtain rfl := Precedence.eq_of_rank_eq heq
    refine .inr ⟨hp.trans hq.symm, (associativity_of_precedence? hq).trans ?_⟩
    cases hs : q.associativity with
    | left => rfl
    | right =>
      simp only [Precedence.power, hs] at h
      omega
  · have hp' := p.power_eq
    have hq' := q.power_eq
    omega

end

def IsInfix (k : TokenKind) : Prop :=
  (∃ tier, k.precedence? = some tier ∧ tier ≠ .separator ∧ tier ≠ .assignment ∧ tier ≠ .unary) ∧
    k ≠ .comma ∧ k ≠ .logicalNot ∧ k ≠ .operation .bitwiseNot

theorem precedence?_of_isAssignment {k : TokenKind} (h : k.isAssignment = true) :
    k.precedence? = some .assignment := by
  cases k <;> first | rfl | cases h

theorem bindingPower?_of_isAssignment {k : TokenKind} (h : k.isAssignment = true) :
    k.bindingPower? = some (Precedence.power .assignment) := by
  have hp := precedence?_of_isAssignment h
  rw [bindingPower?, hp, associativity_of_precedence? hp]
  rfl

theorem isAssignment_of_precedence? {k : TokenKind} (h : k.precedence? = some .assignment) :
    k.isAssignment = true := by
  cases k with
  | operation op => cases op <;> cases h
  | _ => first | rfl | cases h

theorem IsBinary.isInfix {k : TokenKind} (h : k.IsBinary) : k.IsInfix := by
  obtain ⟨ha, hp⟩ := h
  obtain ⟨power, hp⟩ := Option.isSome_iff_exists.1 hp
  obtain ⟨tier, ht, hs, hu, -⟩ := exists_tier hp
  refine ⟨⟨tier, ht, hs, ?_, hu⟩, ?_, ?_, ?_⟩
  · rintro rfl
    rw [isAssignment_of_precedence? ht] at ha
    cases ha
  all_goals
    rintro rfl
    cases hp

end TokenKind

namespace Expr

def IsUnary : Expr → Prop
  | unary .. => True
  | _ => False

/-- The operands that end where the tree ends, the tree itself included. -/
def rightEdge : Expr → List Expr
  | assignment operator target value => assignment operator target value :: value.rightEdge
  | binary operator left right => binary operator left right :: right.rightEdge
  | unary operator operand => unary operator operand :: operand.rightEdge
  | e => [e]

inductive PartOf (x : Expr) : Expr → Prop
  | self : PartOf x x
  | value {operator : Token} {target : Variable} {value : Expr} :
      x.PartOf value → PartOf x (.assignment operator target value)
  | left {operator : Token} {left right : Expr} :
      x.PartOf left → PartOf x (.binary operator left right)
  | right {operator : Token} {left right : Expr} :
      x.PartOf right → PartOf x (.binary operator left right)
  | operand {operator : Token} {operand : Expr} :
      x.PartOf operand → PartOf x (.unary operator operand)
  | callee {callee : Expr} {openToken closeToken : Token} {arguments : List Expr} :
      x.PartOf callee → PartOf x (.call callee openToken arguments closeToken)
  | argument {callee a : Expr} {openToken closeToken : Token} {arguments : List Expr} :
      a ∈ arguments → x.PartOf a → PartOf x (.call callee openToken arguments closeToken)
  | target {target i : Expr} {openToken closeToken : Token} :
      x.PartOf target → PartOf x (.index target openToken i closeToken)
  | index {target i : Expr} {openToken closeToken : Token} :
      x.PartOf i → PartOf x (.index target openToken i closeToken)
  | inner {inner : Expr} {openToken closeToken : Token} :
      x.PartOf inner → PartOf x (.group openToken inner closeToken)

theorem Canonical.of_partOf {x e : Expr} (h : x.PartOf e) (he : e.Canonical) : x.Canonical := by
  induction h with
  | self => exact he
  | value _ ih | left _ ih | right _ ih | operand _ ih | callee _ ih | target _ ih | index _ ih
  | inner _ ih =>
    cases he
    apply ih
    assumption
  | argument ha _ ih =>
    cases he with
    | call _ _ hargs => exact ih (hargs _ ha)

theorem SlotsRight.of_partOf {x e : Expr} (h : x.PartOf e) (he : e.SlotsRight) : x.SlotsRight := by
  induction h with
  | self => exact he
  | value _ ih | left _ ih | right _ ih | operand _ ih | callee _ ih | target _ ih | index _ ih
  | inner _ ih =>
    cases he
    apply ih
    assumption
  | argument ha _ ih =>
    cases he with
    | call _ _ hargs _ => exact ih (hargs _ ha)

def FitsRight (k : TokenKind) (right : Expr) : Prop :=
  ∀ operator ∈ right.operator?,
    operator.kind.Tighter k ∨ operator.kind.SameTier k ∧ k.associativity = .right

def FitsLeft (k : TokenKind) (left : Expr) : Prop :=
  (match left with
    | binary operator _ _ =>
      operator.kind.Tighter k ∨ operator.kind.SameTier k ∧ k.associativity = .left
    | assignment .. => False
    | _ => True) ∧
  (k.precedence? = some .member → ∀ x ∈ left.rightEdge, ¬ x.IsUnary)

/-- What the tiers say about a node of a tree and the operators right below it. -/
def InTiers : Expr → Prop
  | assignment operator _ value =>
    operator.kind.precedence? = some .assignment ∧ FitsRight operator.kind value
  | binary operator left right =>
    operator.kind.IsInfix ∧ FitsLeft operator.kind left ∧ FitsRight operator.kind right
  | unary _ operand => match operand with
    | binary operator _ _ => operator.kind.precedence? = some .member
    | assignment .. => False
    | _ => True
  | _ => True

theorem SlotsRight.exists_power {e : Expr} (h : e.SlotsRight) {operator : Token}
    (ho : operator ∈ e.operator?) : ∃ power, operator.kind.bindingPower? = some power := by
  cases h with
  | assignment hk =>
    obtain rfl := Option.some.inj ho
    exact ⟨_, TokenKind.bindingPower?_of_isAssignment hk⟩
  | binary hk =>
    obtain rfl := Option.some.inj ho
    exact Option.isSome_iff_exists.1 hk.2
  | _ => cases ho

theorem fitsRight {k : TokenKind} {power : BindingPower} {right : Expr}
    (hk : k.bindingPower? = some power) (hs : right.SlotsRight) (hb : right.Binds power.right) :
    FitsRight k right := by
  intro operator ho
  obtain ⟨power', hp⟩ := hs.exists_power ho
  exact TokenKind.tighter_of_right_le hp hk (hb operator ho power' hp)

theorem not_isUnary_of_yields {n : Nat} {e : Expr} (hn : BindingPower.unaryOperand ≤ n)
    (h : e.Yields n) : ∀ x ∈ e.rightEdge, ¬ x.IsUnary := by
  induction e with
  | assignment operator target value ih =>
    exact List.forall_mem_cons.2 ⟨id, ih h.2⟩
  | binary operator left right _ ih =>
    exact List.forall_mem_cons.2 ⟨id, ih h.2⟩
  | unary operator operand ih => exact absurd h.1 (Nat.not_lt.2 hn)
  | _ => exact List.forall_mem_singleton.2 id

/-- The least binding power is that of an assignment, whose value would take any operator. -/
theorem not_yields_assignment {k : TokenKind} {power : BindingPower} {operator : Token}
    {target : Variable} {value : Expr} (hk : k.bindingPower? = some power)
    (ho : operator.kind.isAssignment = true) : ¬ (assignment operator target value).Yields power.left := by
  rintro ⟨hy, -⟩
  have hlt := hy _ (TokenKind.bindingPower?_of_isAssignment ho)
  obtain ⟨tier, -, hs, -, rfl⟩ := TokenKind.exists_tier hk
  have hrank : tier.rank ≠ 0 := fun h ↦ hs (Precedence.eq_of_rank_eq h)
  have hle := tier.power_eq.1
  change tier.power.left < 20 at hlt
  omega

theorem fitsLeft {k : TokenKind} {power : BindingPower} {left : Expr}
    (hk : k.bindingPower? = some power) (hs : left.SlotsRight) (hy : left.Yields power.left) :
    FitsLeft k left := by
  refine ⟨?_, fun hm ↦ not_isUnary_of_yields ?_ hy⟩
  · cases hs with
    | assignment ho => exact not_yields_assignment hk ho hy
    | @binary operator l r ho =>
      obtain ⟨power', hp⟩ := Option.isSome_iff_exists.1 ho.2
      exact TokenKind.tighter_of_left_lt hp hk (hy.1 power' hp)
    | _ => trivial
  · obtain ⟨tier, ht, -, -, rfl⟩ := TokenKind.exists_tier hk
    obtain rfl := Option.some.inj (hm.symm.trans ht)
    decide

theorem Canonical.inTiers {e : Expr} (hc : e.Canonical) (hs : e.SlotsRight) : e.InTiers := by
  cases hc with
  | @assignment operator target value hv hb =>
    obtain ⟨power, hp⟩ := hs.exists_power rfl
    cases hs with
    | assignment ho _ hvs =>
      exact ⟨TokenKind.precedence?_of_isAssignment ho, fitsRight hp hvs (hb power hp)⟩
  | @binary operator left right hl hr hb =>
    obtain ⟨power, hp⟩ := hs.exists_power rfl
    cases hs with
    | binary ho hls hrs =>
      obtain ⟨hy, hb⟩ := hb power hp
      exact ⟨ho.isInfix, fitsLeft hp hls hy, fitsRight hp hrs hb⟩
  | @unary operator operand ho hb =>
    cases hs with
    | unary _ hos =>
      cases operand with
      | assignment op target value =>
        cases hos with
        | assignment hk =>
          have hle := hb op rfl _ (TokenKind.bindingPower?_of_isAssignment hk)
          exact absurd hle (by decide)
      | binary op left right =>
        obtain ⟨power, hp⟩ := hos.exists_power rfl
        have hle := hb op rfl power hp
        obtain ⟨tier, ht, -, hu, rfl⟩ := TokenKind.exists_tier hp
        cases tier <;> first | exact ht | exact absurd rfl hu | exact absurd hle (by decide)
      | _ => trivial
  | _ => trivial

end Expr

/-- In every tree of an accepted text the operators are ordered by their tiers. -/
theorem inTiers_of_parse {source : String} {program : Program} (h : parse source = .ok program)
    {c : Construct} (hc : c ∈ program.constructs) {e x : Expr} (he : e ∈ c.expression?)
    (hx : x.PartOf e) : x.InTiers := by
  obtain ⟨hr, -⟩ := readsProgram_of_parse h
  have hcanonical := hr.canonical c hc e he
  have hslots := (hr.slotsRight c hc).of_expression? e he
  exact (hcanonical.of_partOf hx).inTiers (hslots.of_partOf hx)

theorem inTiers_of_parse_chain : ∃ program c e, parse "a - b - -c.d" = .ok program ∧
    c ∈ program.constructs ∧ e ∈ c.expression? ∧
    e.operator? = some ⟨.operation .subtraction, .onLine 1 6 6⟩ ∧ e.InTiers := by
  have hrun : (((parse "a - b - -c.d").toOption.bind (·.constructs.head?)).bind
      (·.expression?)).bind (·.operator?) =
        some ⟨.operation .subtraction, .onLine 1 6 6⟩ := by decide +kernel
  obtain ⟨e, hrun, ho⟩ := Option.bind_eq_some_iff.1 hrun
  obtain ⟨c, hrun, he⟩ := Option.bind_eq_some_iff.1 hrun
  obtain ⟨program, hrun, hc⟩ := Option.bind_eq_some_iff.1 hrun
  cases hp : parse "a - b - -c.d" with
  | error e => simp [hp, Except.toOption] at hrun
  | ok p =>
    obtain rfl : p = program := by simpa [hp, Except.toOption] using hrun
    have hmem := List.mem_of_head? hc
    exact ⟨p, c, e, rfl, hmem, he, ho, inTiers_of_parse hp hmem he .self⟩

end Linewise
