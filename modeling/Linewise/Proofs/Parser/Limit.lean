import Linewise.Proofs.Parser.Compositional

namespace Linewise.Parser

variable {α β : Type} {limit : Nat}

def limited (p : Parser) (limit : Nat) : Parser := { p with nestingLimit := some limit }

theorem limited_lexer (p : Parser) : (p.limited limit).lexer = p.lexer := rfl

theorem limited_deeper (p : Parser) :
    { p.limited limit with nestingDepth := (p.limited limit).nestingDepth + 1 } =
      { p with nestingDepth := p.nestingDepth + 1 }.limited limit := rfl

def tooDeep (limit : Nat) (span : Option Span) : Failure SyntaxError :=
  .rejected (.grammar ⟨.nestingTooDeep limit, span⟩)

inductive Limits (limit : Nat) : EStateM.Result (Failure SyntaxError) Parser α →
    EStateM.Result (Failure SyntaxError) Parser α → Prop
  | ok (a : α) {q : Parser} : q.nestingLimit = none → Limits limit (.ok a q) (.ok a (q.limited limit))
  | error (e : Failure SyntaxError) (q : Parser) : Limits limit (.error e q) (.error e (q.limited limit))
  | tooDeep (r : EStateM.Result (Failure SyntaxError) Parser α) (span : Option Span) (q : Parser) :
      Limits limit r (.error (tooDeep limit span) q)

namespace Action

theorem nested_of_allowed {x : Action α} {p : Parser}
    (h : p.nestingLimit.filter (· ≤ p.nestingDepth) = none) :
    nested x p = match x { p with nestingDepth := p.nestingDepth + 1 } with
      | .ok a q => .ok a { q with nestingDepth := q.nestingDepth - 1 }
      | .error e q => .error e { q with nestingDepth := q.nestingDepth - 1 } := by
  cases hx : x { p with nestingDepth := p.nestingDepth + 1 } with
  | ok a q => simp only [nested, h, hx]
  | error e q => simp only [nested, h, hx]

/-- Under a limit the step does what it does without one, or exceeds the limit. -/
def Obeys (limit : Nat) (x : Action α) : Prop :=
  ∀ p : Parser, p.nestingLimit = none → Limits limit (x p) (x (p.limited limit))

namespace Obeys

variable {x : Action α} {k : α → Action β}

theorem bind (hx : Obeys limit x) (hk : ∀ a, Obeys limit (k a)) : Obeys limit (x >>= k) := by
  intro p hp
  have h := hx p hp
  simp only [Bind.bind, EStateM.bind]
  generalize x p = r, x (p.limited limit) = r' at h
  cases h with
  | ok a hq => exact hk a _ hq
  | error e q => exact .error e q
  | tooDeep r span q => exact .tooDeep _ span q

theorem advance (b : Bool) : Obeys limit (advance b) := by
  intro p hp
  rw [advance_eq, advance_eq, limited_lexer]
  cases p.lexer.readToken b with
  | ok found l => cases found <;> exact .ok _ hp
  | error e l => exact .error (.rejected (.lexical e)) { p with lexer := l }

theorem unread : Obeys limit unread := by
  intro p hp
  rw [Action.unread, Action.unread, limited_lexer]
  cases p.lexer.unreadToken with
  | ok lexer => exact .ok () hp
  | error e => exact .error (.internal e) p

theorem modify {f : Parser → Parser} (hf : ∀ p : Parser, f (p.limited limit) = (f p).limited limit)
    (hn : ∀ p : Parser, (f p).nestingLimit = p.nestingLimit) :
    Obeys limit (modify f : Action Unit) := by
  intro p hp
  have h : Limits limit (.ok () (f p)) (.ok () ((f p).limited limit)) := .ok () ((hn p).trans hp)
  rw [← hf] at h
  exact h

theorem enclosed (hx : Obeys limit x) : Obeys limit (enclosed x) := by
  refine bind (modify (fun _ ↦ rfl) fun _ ↦ rfl) fun _ ↦ bind hx fun a ↦ ?_
  exact bind (modify (fun _ ↦ rfl) fun _ ↦ rfl) fun _ p hp ↦ .ok a hp

theorem nested (hx : Obeys limit x) : Obeys limit (Action.nested x) := by
  intro p hp
  have h := hx { p with nestingDepth := p.nestingDepth + 1 } hp
  rw [nested_of_allowed (by rw [hp]; rfl)]
  cases hl : (p.limited limit).nestingLimit.filter (· ≤ (p.limited limit).nestingDepth) with
  | some l =>
    obtain ⟨hsome, -⟩ := Option.filter_eq_some_iff.1 hl
    cases hsome
    simp only [Action.nested, hl]
    exact .tooDeep _ _ _
  | none =>
    rw [nested_of_allowed hl, limited_deeper]
    generalize x { p with nestingDepth := p.nestingDepth + 1 } = r,
      x ({ p with nestingDepth := p.nestingDepth + 1 }.limited limit) = r' at h
    cases h with
    | ok a hq => exact .ok a hq
    | error e q => exact .error e { q with nestingDepth := q.nestingDepth - 1 }
    | tooDeep r span q => exact .tooDeep _ span _

theorem compositional (limit : Nat) : Compositional (Obeys limit) where
  pure a _ hp := .ok a hp
  outOfFuel p _ := .error _ p
  fail _ _ p _ := .error _ p
  failAtLast _ p _ := .error _ p
  bind := bind
  continuesAcrossLines _ hp := .ok _ hp
  advance := advance
  unread := unread
  enclosed := enclosed
  nested := nested

theorem next (fuel : Nat) : Obeys limit (next fuel) := by
  have h := compositional limit
  refine bind (modify (fun _ ↦ rfl) fun _ ↦ rfl) fun _ ↦ bind (advance true) fun t ↦ ?_
  cases t with
  | none => exact h.pure false
  | some t =>
    refine bind (h.construct fuel t) fun c ↦ ?_
    exact bind (modify (fun _ ↦ rfl) fun _ ↦ rfl) fun _ ↦ h.pure true

theorem constructs (fuel : Nat) : Obeys limit (constructs fuel) := by
  have h := compositional limit
  induction fuel with
  | zero => exact h.outOfFuel
  | succ fuel ih =>
    refine bind (next (fuel + 1)) fun found ↦ ?_
    cases found with
    | false => exact h.pure []
    | true => exact bind (fun p hp ↦ .ok p.result hp) fun _ ↦ bind ih fun _ ↦ h.pure _

end Obeys

end Action

def unlimited (p : Parser) : Parser := { p with nestingLimit := none }

/-- A limit makes no difference to a parser, except that it may be exceeded. -/
theorem program_limited {p : Parser} (hp : p.nestingLimit = none) :
    (p.limited limit).program = p.program ∨ ∃ span, (p.limited limit).program = .error (tooDeep limit span) := by
  have h : Limits limit (Action.constructs p.fuel p)
      (Action.constructs (p.limited limit).fuel (p.limited limit)) := Action.Obeys.constructs p.fuel p hp
  rw [program, program]
  generalize Action.constructs p.fuel p = r,
    Action.constructs (p.limited limit).fuel (p.limited limit) = r' at h
  cases h with
  | ok a _ => exact .inl rfl
  | error e _ => exact .inl rfl
  | tooDeep r span _ => exact .inr ⟨span, rfl⟩

end Linewise.Parser
