import Linewise.Proofs.Calls
import Linewise.Proofs.Parser.Compositional

namespace Linewise.Parser.Action

variable {α β : Type}

/-- The property of a state is kept when tokens are read or given back, whatever the counters are. -/
structure Persistent (P : Parser → Prop) : Prop where
  readToken {p : Parser} (b : Bool) : P p → P { p with lexer := finalState (p.lexer.readToken b) }
  unreadToken {p : Parser} {l : Lexer} : P p → p.lexer.unreadToken = .ok l → P { p with lexer := l }
  counters {p : Parser} (openDelimiters nestingDepth : Nat) :
    P p → P { p with openDelimiters, nestingDepth }

def Keeps (P : Parser → Prop) (x : Action α) : Prop := ∀ p, P p → P (finalState (x p))

namespace Persistent

variable {P : Parser → Prop} (hP : Persistent P) {x : Action α} {k : α → Action β}

theorem bind (hx : Action.Keeps P x) (hk : ∀ a, Action.Keeps P (k a)) : Action.Keeps P (x >>= k) := by
  intro p h
  have hp := hx p h
  simp only [Bind.bind, EStateM.bind]
  generalize x p = r at hp
  cases r with
  | ok a q => exact hk a q hp
  | error e q => exact hp

include hP

theorem advance (b : Bool) : Action.Keeps P (advance b) := by
  intro p h
  have hp := hP.readToken b h
  rw [advance_eq]
  generalize p.lexer.readToken b = r at hp
  cases r with
  | ok found l => cases found <;> exact hp
  | error e l => exact hp

theorem unread : Action.Keeps P unread := by
  intro p h
  rw [Action.unread]
  split
  · next hl => exact hP.unreadToken h hl
  · exact h

theorem enclosed (hx : Action.Keeps P x) : Action.Keeps P (enclosed x) :=
  bind (fun p h ↦ hP.counters (p.openDelimiters + 1) p.nestingDepth h) fun _ ↦ bind hx fun _ ↦
    bind (fun p h ↦ hP.counters (p.openDelimiters - 1) p.nestingDepth h) fun _ _ h ↦ h

theorem nested (hx : Action.Keeps P x) : Action.Keeps P (nested x) := by
  intro p h
  have hp := hx _ (hP.counters p.openDelimiters (p.nestingDepth + 1) h)
  rw [Action.nested]
  split
  · exact h
  · generalize x { p with nestingDepth := p.nestingDepth + 1 } = r at hp
    cases r with
    | ok a q => exact hP.counters q.openDelimiters (q.nestingDepth - 1) hp
    | error e q => exact hP.counters q.openDelimiters (q.nestingDepth - 1) hp

theorem compositional : Compositional (Action.Keeps P) where
  pure _ _ h := h
  outOfFuel _ h := h
  failAtLast _ _ h := h
  fail _ _ _ h := h
  bind := bind
  continuesAcrossLines _ h := h
  advance := hP.advance
  unread := hP.unread
  enclosed := hP.enclosed
  nested := hP.nested

end Persistent

end Linewise.Parser.Action
