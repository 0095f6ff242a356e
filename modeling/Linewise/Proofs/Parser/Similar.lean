import Linewise.Proofs.Parser.Compositional
import Linewise.Proofs.SameInput

namespace Linewise.Parser

variable {α β : Type}

/-- Two parsers that differ at most in what their cursors remember and in the construct parsed last. -/
inductive Twin (p : Parser) : Parser → Prop
  | mk {lexer : Lexer} (result : Option Construct) : p.lexer.Twin lexer → Twin p { p with lexer, result }

namespace Action

def Similar (x : Action α) : Prop := ∀ p q, Twin p q → Paired Twin (x p) (x q)

namespace Similar

variable {x : Action α} {k : α → Action β}

theorem bind (hx : Similar x) (hk : ∀ a, Similar (k a)) : Similar (x >>= k) := by
  intro p q h
  have hp := hx p q h
  simp only [Bind.bind, EStateM.bind]
  generalize x p = r at hp
  generalize x q = r' at hp
  cases hp with
  | ok a h' => exact hk a _ _ h'
  | error e h' => exact .error e h'

theorem advance (b : Bool) : Similar (advance b) := by
  intro p q h
  obtain ⟨result, hl⟩ := h
  have hp := hl.readToken b
  rw [advance_eq, advance_eq]
  generalize p.lexer.readToken b = r at hp
  dsimp only
  generalize Lexer.readToken b _ = r' at hp
  cases hp with
  | ok found h' =>
    obtain ⟨hd⟩ := h'
    cases found with
    | false => exact .ok _ (.mk result (.withCursor hd))
    | true => exact .ok _ (.mk result (.withCursor hd))
  | error e h' => exact .error _ (.mk result h')

theorem unread : Similar unread := by
  intro p q h
  obtain ⟨result, hl⟩ := h
  have hp := hl.unreadToken
  rw [Action.unread, Action.unread]
  generalize p.lexer.unreadToken = r at hp
  dsimp only
  generalize Lexer.unreadToken _ = r' at hp
  cases hp with
  | ok h' => exact .ok () (.mk result h')
  | error e => exact .error _ (.mk result hl)

theorem counters {p q : Parser} (h : Twin p q) (f g : Nat → Nat) :
    Twin { p with openDelimiters := f p.openDelimiters, nestingDepth := g p.nestingDepth }
      { q with openDelimiters := f q.openDelimiters, nestingDepth := g q.nestingDepth } := by
  obtain ⟨result, hl⟩ := h
  exact .mk result hl

theorem enclosed (hx : Similar x) : Similar (enclosed x) :=
  bind (fun _ _ h ↦ .ok () (counters h (· + 1) id)) fun _ ↦ bind hx fun a ↦
    bind (fun _ _ h ↦ .ok () (counters h (· - 1) id)) fun _ _ _ h ↦ .ok a h

theorem nested (hx : Similar x) : Similar (nested x) := by
  intro p q h
  have hp := hx _ _ (counters h id (· + 1))
  obtain ⟨result, hl⟩ := h
  rw [Action.nested, Action.nested]
  dsimp only [id] at hp ⊢
  cases p.nestingLimit.filter (· ≤ p.nestingDepth) with
  | some limit =>
    obtain ⟨hd⟩ := hl
    exact .error _ (.mk result (.withCursor hd))
  | none =>
    generalize x { p with nestingDepth := p.nestingDepth + 1 } = r at hp
    dsimp only
    generalize x _ = r' at hp
    cases hp with
    | ok a h' => exact .ok a (counters h' id (· - 1))
    | error e h' => exact .error e (counters h' id (· - 1))

theorem failAtLast (cause : GrammarCause) :
    Similar (do fail cause ((← get).lexer.lastToken?.map (·.span)) : Action α) := by
  intro p q h
  obtain ⟨result, hl⟩ := h
  obtain ⟨hd⟩ := hl
  exact .error _ (.mk result (.withCursor hd))

theorem continuesAcrossLines : Similar continuesAcrossLines := by
  intro p q h
  obtain ⟨result, hl⟩ := h
  exact .ok _ (.mk result hl)

theorem compositional : Compositional Similar where
  pure a _ _ h := .ok a h
  outOfFuel _ _ h := .error _ h
  failAtLast := failAtLast
  fail _ _ _ _ h := .error _ h
  bind := bind
  continuesAcrossLines := continuesAcrossLines
  advance := advance
  unread := unread
  enclosed := enclosed
  nested := nested

end Similar

end Action

end Linewise.Parser
