import Linewise.Proofs.Parser.Compositional

namespace Linewise.Parser

variable {α β : Type}

/-- The counters are back where they were, apart from brackets that an error left open. -/
inductive Keeps (p : Parser) : EStateM.Result (Failure SyntaxError) Parser α → Prop
  | ok (a : α) {q : Parser} : q.nestingDepth = p.nestingDepth → q.openDelimiters = p.openDelimiters →
      Keeps p (.ok a q)
  | error (e : Failure SyntaxError) {q : Parser} : q.nestingDepth = p.nestingDepth → Keeps p (.error e q)

namespace Action

def Balanced (x : Action α) : Prop := ∀ p, Keeps p (x p)

namespace Balanced

variable {x : Action α} {k : α → Action β}

theorem bind (hx : Balanced x) (hk : ∀ a, Balanced (k a)) : Balanced (x >>= k) := by
  intro p
  have hp := hx p
  simp only [Bind.bind, EStateM.bind]
  generalize x p = r at hp
  cases hp with
  | error e hdepth => exact .error e hdepth
  | @ok a q hdepth hopen =>
    have hq := hk a q
    dsimp only
    generalize k a q = r at hq
    cases hq with
    | ok b hdepth' hopen' => exact .ok b (hdepth'.trans hdepth) (hopen'.trans hopen)
    | error e hdepth' => exact .error e (hdepth'.trans hdepth)

theorem advance (b : Bool) : Balanced (advance b) := by
  intro p
  rw [advance_eq]
  split
  · exact .ok _ rfl rfl
  · exact .ok _ rfl rfl
  · exact .error _ rfl

theorem unread : Balanced unread := by
  intro p
  rw [Action.unread]
  split
  · exact .ok _ rfl rfl
  · exact .error _ rfl

/-- Between brackets there is one bracket more, and after them one less. -/
theorem enclosed (hx : Balanced x) : Balanced (enclosed x) := by
  intro p
  have hp := hx { p with openDelimiters := p.openDelimiters + 1 }
  change Keeps p (EStateM.bind x _ { p with openDelimiters := p.openDelimiters + 1 })
  simp only [EStateM.bind]
  generalize x { p with openDelimiters := p.openDelimiters + 1 } = r at hp
  cases hp with
  | ok a hdepth hopen => exact .ok a hdepth (congrArg (· - 1) hopen)
  | error e hdepth => exact .error e hdepth

/-- Inside a level the depth is one more, and one less after it, come what may. -/
theorem nested (hx : Balanced x) : Balanced (nested x) := by
  intro p
  have hp := hx { p with nestingDepth := p.nestingDepth + 1 }
  rw [Action.nested]
  split
  · exact .error _ rfl
  · generalize x { p with nestingDepth := p.nestingDepth + 1 } = r at hp
    cases hp with
    | ok a hdepth hopen => exact .ok a (congrArg (· - 1) hdepth) hopen
    | error e hdepth => exact .error e (congrArg (· - 1) hdepth)

theorem compositional : Compositional Balanced where
  pure _ _ := .ok _ rfl rfl
  outOfFuel _ := .error _ rfl
  fail _ _ _ := .error _ rfl
  failAtLast _ _ := .error _ rfl
  bind := bind
  continuesAcrossLines _ := .ok _ rfl rfl
  advance := advance
  unread := unread
  enclosed := enclosed
  nested := nested

end Balanced

end Action

end Linewise.Parser
