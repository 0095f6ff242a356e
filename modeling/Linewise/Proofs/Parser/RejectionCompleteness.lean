import Linewise.Proofs.Parser.Completeness
import Linewise.Proofs.Parser.RejectionSoundness

namespace Linewise.Parser

open Upcoming

variable {α β : Type} {p q : Parser} {limit room : Nat} {e : SyntaxError}

namespace Action

def Fails (x : Action α) (p : Parser) (e : SyntaxError) : Prop := ∃ q, x p = .error (.rejected e) q

theorem Fails.bind {x : Action α} {f : α → Action β} (h : Fails x p e) : Fails (x >>= f) p e := by
  obtain ⟨q, hq⟩ := h
  exact ⟨q, bind_eq_error.2 (.inl hq)⟩

theorem Fails.of_ok {x : Action α} {f : α → Action β} {a : α} (h : x p = .ok a q)
    (hf : Fails (f a) q e) : Fails (x >>= f) p e := by
  obtain ⟨r, hr⟩ := hf
  exact ⟨r, bind_eq_error.2 (.inr ⟨a, q, h, hr⟩)⟩

theorem Fails.of_gives {x : Action α} {f : α → Action β} {a : α} {ys : List Upcoming}
    (h : Gives x p a ys) (hf : ∀ q, Moves p q → q.upcoming = ys → Fails (f a) q e) :
    Fails (x >>= f) p e := by
  obtain ⟨q, hq, hm, hu⟩ := h
  exact .of_ok hq (hf q hm hu)

theorem failExpected_fails {what : String} {t : Token} :
    Fails (failExpected what t : Action α) p (.grammar (.expected what t)) := ⟨p, rfl⟩

variable {wrong : Token → Option GrammarError}

theorem advance_fails {b : Bool} {absence : Option GrammarError} {f : Option Token → Action α}
    (h : Halts b absence wrong p.upcoming e)
    (hnone : ∀ q g, q.last? = p.last? → g ∈ absence → Fails (f none) q (.grammar g))
    (hsome : ∀ t q g, g ∈ wrong t → Fails (f (some t)) q (.grammar g)) :
    Fails (advance b >>= f) p e := by
  generalize hp : p.upcoming = xs at h
  cases h with
  | @lexical later e' reach =>
    have hd := p.lexer.readToken_delivers b
    rw [upcoming] at hp
    rw [hp] at hd
    refine Fails.bind ?_
    unfold Fails
    rw [advance_eq]
    cases hr : p.lexer.readToken b with
    | error e'' l =>
      rw [hr] at hd
      cases hd
      exact ⟨_, rfl⟩
    | ok found l =>
      rw [hr] at hd
      cases hd with
      | nothing reach' => exact absurd reach (reach' _ rfl)
  | absent hn hg =>
    rw [← hp] at hn
    obtain ⟨q, hq⟩ := exists_advance_none hn
    obtain ⟨hm, hu, -⟩ := advance_none hq
    exact .of_ok hq (hnone q _ (last?_eq hm (b := b) (by rw [hu, looked_of_not_inReach hn])) hg)
  | token hn hg =>
    subst hp
    obtain ⟨q, hq, -⟩ := exists_advance_some hn
    exact .of_ok hq (hsome _ q _ hg)

theorem advance_fails_lexically {b : Bool} {f : Option Token → Action α}
    (h : HaltsLexically b p.upcoming e) : Fails (advance b >>= f) p e :=
  advance_fails h (fun _ _ _ hg ↦ by cases hg) fun _ _ _ hg ↦ by cases hg

theorem matchToken_fails {kind : TokenKind} {b : Bool} (h : HaltsLexically b p.upcoming e) :
    Fails (matchToken kind b) p e := advance_fails_lexically h

theorem expectToken_fails {construct : String} {f : Token → Action α}
    (h : HaltsIn construct wrong p.upcoming e)
    (hsome : ∀ t q g, g ∈ wrong t → Fails (f t) q (.grammar g)) :
    Fails (expectToken construct >>= f) p e := by
  rw [expectToken, bind_assoc]
  refine advance_fails h (fun q g _ hg ↦ ?_) fun t q g hg ↦ ?_
  · cases hg
    exact ⟨q, rfl⟩
  · exact .of_ok rfl (hsome t q g hg)

theorem expectOperand_fails {f : Token → Action α}
    (h : Halts p.acrossLines (some (.noOperand p.acrossLines p.last?)) wrong p.upcoming e)
    (hsome : ∀ t q g, g ∈ wrong t → Fails (f t) q (.grammar g)) :
    Fails (expectOperand >>= f) p e := by
  rw [expectOperand, bind_assoc]
  unfold Fails
  rw [continuesAcrossLines_bind, bind_assoc]
  refine advance_fails h (fun q g hl hg ↦ ?_) fun t q g hg ↦ ?_
  · cases hg
    cases hb : p.acrossLines with
    | true => exact ⟨q, rfl⟩
    | false =>
      rw [← hl]
      exact ⟨q, rfl⟩
  · exact .of_ok rfl (hsome t q g hg)

theorem expectClosing_fails {kind : TokenKind} {construct what : String} {f : Token → Action α}
    (hwhat : "'" ++ kind.symbol?.getD "" ++ "'" = what)
    (h : HaltsIn construct (Token.require kind what) p.upcoming e) :
    Fails (expectClosing kind construct >>= f) p e := by
  refine Fails.bind (expectToken_fails h fun t q g hg ↦ ?_)
  by_cases hk : t.kind = kind
  · simp [Token.require, hk] at hg
  · simp only [Token.require, if_neg hk, Option.mem_def, Option.some.injEq] at hg
    rw [if_neg hk, hwhat, ← hg]
    exact failExpected_fails

theorem expectStatementEnd_fails (h : Halts false none Token.requireStatementEnd p.upcoming e) :
    Fails expectStatementEnd p e := by
  refine advance_fails h (fun _ _ _ hg ↦ by cases hg) fun t q g hg ↦ ?_
  by_cases hk : t.kind = .closeCurlyBrace
  · simp [Token.requireStatementEnd, Token.require, hk] at hg
  · simp only [Token.requireStatementEnd, Token.require, if_neg hk, Option.mem_def,
      Option.some.injEq] at hg
    simp only [if_neg hk, ← hg]
    exact failExpected_fails

theorem enclosed_fails {body : Action α}
    (h : ∀ q : Parser, q.acrossLines = true → q.upcoming = p.upcoming → q.last? = p.last? →
      (∀ limit room, p.HasRoom limit room → q.HasRoom limit room) → Fails body q e) :
    Fails (enclosed body) p e := by
  refine Fails.of_ok (a := ()) (q := { p with openDelimiters := p.openDelimiters + 1 }) rfl (Fails.bind ?_)
  exact h _ (by simp [acrossLines]) rfl rfl fun _ _ hr ↦ ⟨hr.nestingLimit, hr.depth⟩

theorem nested_fails_tooDeep {body : Action α} (hroom : p.HasRoom limit 0) :
    Fails (nested body) p (.grammar ⟨.nestingTooDeep limit, p.last?.map (·.span)⟩) := by
  have hd := hroom.depth
  have hl : p.nestingLimit.filter (· ≤ p.nestingDepth) = some limit := by
    rw [hroom.nestingLimit, Option.filter_some, if_pos (by simp; omega)]
  refine ⟨p, ?_⟩
  simp only [nested, hl]
  rfl

theorem nested_fails {body : Action α} (hroom : p.HasRoom limit (room + 1))
    (h : ∀ q : Parser, q.acrossLines = p.acrossLines → q.upcoming = p.upcoming → q.last? = p.last? →
      q.HasRoom limit room → Fails body q e) : Fails (nested body) p e := by
  have hd := hroom.depth
  obtain ⟨q, hq⟩ := h { p with nestingDepth := p.nestingDepth + 1 } rfl rfl rfl
    ⟨hroom.nestingLimit, by simp only; omega⟩
  have hl : p.nestingLimit.filter (· ≤ p.nestingDepth) = none := by
    rw [hroom.nestingLimit, Option.filter_some, if_neg (by simp; omega)]
  refine ⟨{ q with nestingDepth := q.nestingDepth - 1 }, ?_⟩
  simp only [nested, hl, hq]

end Action

end Linewise.Parser

namespace Linewise

open Upcoming Linewise.Parser Linewise.Parser.Action

/-- The last token before the goal is the one the parser has read last. -/
def Goal.Follows (p : Parser) : Goal → Prop
  | operand last | expression last _ | arguments last => p.last? = last
  | suffixes _ | operators _ _ => True

def Goal.enough (n : Nat) : Goal → Nat
  | expression _ _ | arguments _ => n + 1
  | _ => n

/-- The goal fails when it is parsed from `p` on: `f` is the fuel for nested expressions and `n` that of
the loop in progress. -/
def Goal.Fails (f n : Nat) (p : Parser) (e : SyntaxError) : Goal → Prop
  | operand _ => Action.Fails (Action.operand (Action.expression f) n) p e
  | suffixes start => Action.Fails (Action.suffixes (Action.expression f) n start) p e
  | operators least left => Action.Fails (Action.operators (Action.expression f) least n left) p e
  | expression _ least => Action.Fails (Action.expression f least) p e
  | arguments _ => Action.Fails (Action.arguments (Action.expression f) n) p e

namespace Parser

variable {p : Parser} {limit room : Nat} {e : SyntaxError}

theorem HasRoom.parses {b : Bool} {phrase : Phrase} {xs ys : List Upcoming}
    (hroom : p.HasRoom limit room) (h : ReadsWithin room b phrase xs ys) {f n : Nat}
    (hp : p.upcoming = xs) (hb : p.acrossLines = b) (hf : Parser.enough xs.length phrase ≤ f)
    (hn : xs.length < n) : Parses f n p ys phrase :=
  parses_of_reads h.1 hp hb hf hn ((hroom.fits_iff _).2 h.2)

def operandFrom (expr : Nested) (fuel : Nat) (token : Token) : Action Expr := do
  match token.kind with
  | .operation .multiplication => suffixes expr fuel (← dereference token)
  | .operation .subtraction | .logicalNot | .operation .bitwiseNot =>
    return .unary token (← expr BindingPower.unaryOperand)
  | .openParen => suffixes expr fuel (← group expr token)
  | .identifier text => suffixes expr fuel (.var ⟨⟨text, token.span⟩, none⟩)
  | _ => literalOperand expr fuel token

theorem operand_eq (expr : Nested) (fuel : Nat) :
    operand expr fuel = (do operandFrom expr fuel (← expectOperand)) := rfl

theorem operand_fails {expr : Nested} {fuel : Nat} {t : Token} {xs : List Upcoming}
    (hx : Next p.acrossLines p.upcoming t xs)
    (h : ∀ q, Moves p q → q.upcoming = xs → q.last? = some t → Fails (operandFrom expr fuel t) q e) :
    Fails (operand expr fuel) p e := by
  obtain ⟨q, hq, hm, hu⟩ := expectOperand_gives hx
  rw [operand_eq]
  exact .of_ok hq (h q hm hu (last?_of_expectOperand hq))

theorem operandFrom_fails {expr : Nested} {fuel : Nat} {t : Token} {g : GrammarError}
    (hg : g ∈ t.requireOperand) : Fails (operandFrom expr fuel t) p (.grammar g) := by
  obtain ⟨kind, span⟩ := t
  cases kind with
  | operation op => cases op with
    | multiplication | subtraction | bitwiseNot => cases hg
    | _ =>
      cases hg
      exact ⟨p, rfl⟩
  | identifier | char | string | integer | float | openParen | logicalNot => cases hg
  | _ =>
    cases hg
    exact ⟨p, rfl⟩

theorem dereference_fails {star : Token}
    (h : Halts p.acrossLines (some (.noOperand p.acrossLines p.last?))
      (Token.requireName "identifier after '*'") p.upcoming e) : Fails (dereference star) p e := by
  refine expectOperand_fails h fun t r g hg ↦ ?_
  cases hi : t.identifier? with
  | none =>
    simp only [Token.requireName, hi, Option.isSome_none, Bool.false_eq_true, if_false, Option.mem_def,
      Option.some.injEq] at hg
    rw [← hg]
    exact failExpected_fails
  | some name => simp [Token.requireName, hi] at hg

theorem join_fails {left right : Expr} {operator : Token} (ha : operator.kind.isAssignment = true)
    (hv : ∀ v, left ≠ .var v) :
    Fails (join left operator right) p (.grammar ⟨.invalidAssignmentTarget, some left.span⟩) := by
  cases left with
  | var v => exact absurd rfl (hv v)
  | _ =>
    refine ⟨p, ?_⟩
    simp only [join, if_pos ha]
    rfl

theorem suffixes_fails {expr : Nested} {m : Nat} {start : Expr} {t : Token} {ys : List Upcoming}
    (hx : Next p.acrossLines p.upcoming t ys)
    (h : ∀ q, Moves p q → q.upcoming = ys → q.last? = some t → Fails (do
      if t.kind = .openParen then
        suffixes expr m (← call expr (m + 1) start t)
      else if t.kind = .openSquareBracket then
        suffixes expr m (← index expr start t)
      else
        unread
        return start : Action Expr) q e) : Fails (suffixes expr (m + 1) start) p e := by
  obtain ⟨q, hq, hm, hu⟩ := advance_gives hx
  unfold Fails
  rw [suffixes, continuesAcrossLines_bind]
  exact Fails.of_ok hq (h q hm hu (last?_of_advance hq))

theorem operators_fails {expr : Nested} {least m : Nat} {left : Expr} {operator : Token}
    {power : BindingPower} {ys : List Upcoming} (hx : Next p.acrossLines p.upcoming operator ys)
    (hpower : operator.kind.bindingPower? = some power) (hle : least ≤ power.left)
    (h : ∀ q, Moves p q → q.upcoming = ys → q.last? = some operator → Fails (do
      let right ← expr power.right
      operators expr least m (← join left operator right) : Action Expr) q e) :
    Fails (operators expr least (m + 1) left) p e := by
  obtain ⟨q, hq, hm, hu⟩ := advance_gives hx
  unfold Fails
  rw [operators, continuesAcrossLines_bind]
  refine Fails.of_ok hq ?_
  simp only [hpower, if_neg (Nat.not_lt.2 hle)]
  exact h q hm hu (last?_of_advance hq)

/-- Every failure that the grammar accounts for happens, whatever the fuel, if there is enough. -/
theorem fails_of_rejects {b : Bool} {goal : Goal} {xs : List Upcoming}
    (h : Rejects limit room b goal xs e) {f n : Nat} (hp : p.upcoming = xs) (hb : p.acrossLines = b)
    (hroom : p.HasRoom limit room) (hlast : goal.Follows p) (hf : goal.enough xs.length ≤ f)
    (hn : xs.length < n) : goal.Fails f n p e := by
  -- As for what is read, either fuel stays above the number of tokens left. The last token before the goal is
  -- kept in view because an absence is reported there.
  induction h generalizing f n p with
  | operand h =>
    subst hp hb
    obtain rfl : p.last? = _ := hlast
    exact expectOperand_fails h fun t q g hg ↦ operandFrom_fails hg
  | @dereference room b last star xs ys e hx hk h =>
    subst hp hb
    refine operand_fails hx fun q hm hu hlast ↦ ?_
    rw [operandFrom]
    simp only [hk]
    rw [← hm.acrossLines, ← hlast, ← hu] at h
    exact Fails.bind (dereference_fails h)
  | @group room b last openToken xs ys e hx hk _ ih =>
    subst hp hb
    have hl := hx.length
    refine operand_fails hx fun q hm hu hlast ↦ ?_
    rw [operandFrom]
    simp only [hk]
    refine Fails.bind (enclosed_fails fun q₁ hb₁ hu₁ hl₁ hr₁ ↦ Fails.bind ?_)
    exact ih (f := f) (n := n) (hu₁.trans hu) hb₁ (hr₁ _ _ (hroom.moves hm))
      (hl₁.trans hlast) (by simp only [Goal.enough] at hf ⊢; omega) (by omega)
  | @groupEnd room b last openToken inner xs ys zs e hx hk hr h =>
    subst hp hb
    have hl := hx.length
    refine operand_fails hx fun q hm hu hlast ↦ ?_
    rw [operandFrom]
    simp only [hk]
    refine Fails.bind (enclosed_fails fun q₁ hb₁ hu₁ _ hr₁ ↦ ?_)
    have hi := (hr₁ _ _ (hroom.moves hm)).parses hr (f := f) (n := n) (hu₁.trans hu) hb₁
      (by simp only [Parser.enough, Goal.enough] at hf ⊢; omega) (by omega)
    refine Fails.of_gives hi fun q₂ _ hu₂ ↦ ?_
    rw [← hu₂] at h
    exact expectClosing_fails rfl h
  | @unary room b last operator xs ys e hx hk _ ih =>
    subst hp hb
    have hl := hx.length
    refine operand_fails hx fun q hm hu hlast ↦ ?_
    have hi := ih (f := f) (n := n) hu hm.acrossLines (hroom.moves hm) hlast
      (by simp only [Goal.enough] at hf ⊢; omega) (by omega)
    rw [operandFrom]
    rcases hk with hk | hk | hk <;>
      · simp only [hk]
        exact Fails.bind hi
  | @suffixed room b last start xs ys e hr _ ih =>
    have hl := hr.1.length_le
    obtain ⟨q, hm, hu, hq⟩ := hroom.parses hr hp hb (f := f) (n := n)
      (by simpa only [Parser.enough, Goal.enough] using hf) hn
    change Fails (operand (expression f) n) p e
    unfold Fails
    rw [hq]
    simp only [Goal.enough, Phrase.size] at hf hl
    exact ih hu (hm.acrossLines.trans hb) (hroom.moves hm) trivial (by simp only [Goal.enough]; omega)
      (by omega)
  | suffixes h =>
    subst hp hb
    obtain ⟨m, rfl⟩ : ∃ m, n = m + 1 := ⟨n - 1, by omega⟩
    change ∃ q, _
    rw [Action.suffixes, continuesAcrossLines_bind]
    exact advance_fails_lexically h
  | @call room b start openToken xs ys e hx hk h =>
    subst hp hb
    obtain ⟨m, rfl⟩ : ∃ m, n = m + 1 := ⟨n - 1, by omega⟩
    refine suffixes_fails hx fun q hm hu hlast ↦ ?_
    simp only [hk, if_true]
    refine Fails.bind (enclosed_fails fun q₁ _ hu₁ _ _ ↦ Fails.bind (matchToken_fails ?_))
    rw [hu₁, hu]
    exact h
  | @callArguments room b start openToken xs ys e hx hk hs _ ih =>
    subst hp hb
    obtain ⟨m, rfl⟩ : ∃ m, n = m + 1 := ⟨n - 1, by omega⟩
    have hl := hx.length
    refine suffixes_fails hx fun q hm hu hlast ↦ ?_
    simp only [hk, if_true]
    refine Fails.bind (enclosed_fails fun q₁ hb₁ hu₁ hl₁ hr₁ ↦ ?_)
    rw [← hu, ← hu₁] at hs
    refine Fails.of_gives (matchToken_stop_gives hs) fun q₂ hm₂ hu₂ ↦ Fails.bind ?_
    have hlast₂ := (last?_eq hm₂ hu₂).trans (hl₁.trans hlast)
    rw [hu₁, hu] at hu₂
    exact ih hu₂ (hm₂.acrossLines.trans hb₁) ((hr₁ _ _ (hroom.moves hm)).moves hm₂) hlast₂
      (by simp only [Goal.enough, length_looked] at hf ⊢; omega) (by rw [length_looked]; omega)
  | @index room b start openToken xs ys e hx hk _ ih =>
    subst hp hb
    obtain ⟨m, rfl⟩ : ∃ m, n = m + 1 := ⟨n - 1, by omega⟩
    have hl := hx.length
    refine suffixes_fails hx fun q hm hu hlast ↦ ?_
    simp only [hk, reduceCtorEq, if_false, if_true]
    refine Fails.bind (enclosed_fails fun q₁ hb₁ hu₁ hl₁ hr₁ ↦ Fails.bind ?_)
    exact ih (f := f) (n := m) (hu₁.trans hu) hb₁ (hr₁ _ _ (hroom.moves hm))
      (hl₁.trans hlast) (by simp only [Goal.enough] at hf ⊢; omega) (by omega)
  | @indexEnd room b start openToken i xs ys zs e hx hk hr h =>
    subst hp hb
    obtain ⟨m, rfl⟩ : ∃ m, n = m + 1 := ⟨n - 1, by omega⟩
    have hl := hx.length
    refine suffixes_fails hx fun q hm hu hlast ↦ ?_
    simp only [hk, reduceCtorEq, if_false, if_true]
    refine Fails.bind (enclosed_fails fun q₁ hb₁ hu₁ _ hr₁ ↦ ?_)
    have hi := (hr₁ _ _ (hroom.moves hm)).parses hr (f := f) (n := m) (hu₁.trans hu) hb₁
      (by simp only [Parser.enough, Goal.enough] at hf ⊢; omega) (by omega)
    refine Fails.of_gives hi fun q₂ _ hu₂ ↦ ?_
    rw [← hu₂] at h
    exact expectClosing_fails rfl h
  | @moreSuffixes room b start middle xs ys e hr _ ih =>
    have hl := hr.1.length_le
    obtain ⟨q, hm, hu, hq⟩ := hroom.parses hr hp hb (f := f) (n := n)
      (by simpa only [Parser.enough, Goal.enough] using hf) hn
    change ∃ r, _
    rw [hq]
    simp only [Goal.enough, Phrase.size] at hf hl
    exact ih (n := n - 1) hu (hm.acrossLines.trans hb) (hroom.moves hm) trivial
      (by simp only [Goal.enough]; omega) (by omega)
  | @argument room last xs e _ ih =>
    obtain ⟨m, rfl⟩ : ∃ m, n = m + 1 := ⟨n - 1, by omega⟩
    exact Fails.bind (ih (n := m + 1) hp hb hroom hlast hf hn)
  | @argumentEnd room last argument xs ys e hr h =>
    obtain ⟨m, rfl⟩ : ∃ m, n = m + 1 := ⟨n - 1, by omega⟩
    have hi := hroom.parses hr hp hb (f := f) (n := m + 1) hf hn
    refine Fails.of_gives hi fun q₁ _ hu₁ ↦ ?_
    rw [← hu₁] at h
    refine expectToken_fails h fun t q g hg ↦ ?_
    by_cases hk : t.kind = .comma ∨ t.kind = .closeParen
    · simp [Token.requireSeparator, hk] at hg
    · simp only [Token.requireSeparator, if_neg hk, Option.mem_def, Option.some.injEq] at hg
      rw [if_neg fun hc ↦ hk (.inl hc), if_neg fun hc ↦ hk (.inr hc), ← hg]
      exact failExpected_fails
  | @moreArguments room last argument comma xs ys zs e hr hx hk _ ih =>
    obtain ⟨m, rfl⟩ : ∃ m, n = m + 1 := ⟨n - 1, by omega⟩
    have hl := hr.1.length_le
    have hl' := hx.length
    simp only [Phrase.size] at hl
    have hi := hroom.parses hr hp hb (f := f) (n := m + 1) hf hn
    refine Fails.of_gives hi fun q₁ hm₁ hu₁ ↦ ?_
    rw [← hu₁] at hx
    obtain ⟨q₂, hq₂, hm₂, hu₂⟩ : Gives (expectToken "call arguments") q₁ comma zs := expectToken_gives hx
    refine .of_ok hq₂ ?_
    simp only [hk, if_true]
    have hm := hm₁.trans hm₂
    exact Fails.bind (ih (n := m) hu₂ (hm.acrossLines.trans hb) (hroom.moves hm)
      (last?_of_expectToken hq₂) (by simp only [Goal.enough] at hf ⊢; omega) (by omega))
  | operators h =>
    subst hp hb
    obtain ⟨m, rfl⟩ : ∃ m, n = m + 1 := ⟨n - 1, by omega⟩
    change ∃ q, _
    rw [Action.operators, continuesAcrossLines_bind]
    exact advance_fails_lexically h
  | @rightOperand room b least left operator power xs ys e hx hpower hle _ ih =>
    subst hp hb
    obtain ⟨m, rfl⟩ : ∃ m, n = m + 1 := ⟨n - 1, by omega⟩
    have hl := hx.length
    refine operators_fails hx hpower hle fun q hm hu hlast ↦ Fails.bind ?_
    exact ih (n := m) hu hm.acrossLines (hroom.moves hm) hlast
      (by simp only [Goal.enough] at hf ⊢; omega) (by omega)
  | @target room b least left right operator power xs ys zs hx hpower hle hr ha hv =>
    subst hp hb
    obtain ⟨m, rfl⟩ : ∃ m, n = m + 1 := ⟨n - 1, by omega⟩
    have hl := hx.length
    refine operators_fails hx hpower hle fun q hm hu hlast ↦ ?_
    have hi := (hroom.moves hm).parses hr (f := f) (n := m) hu hm.acrossLines
      (by simp only [Parser.enough, Goal.enough] at hf ⊢; omega) (by omega)
    exact Fails.of_gives hi fun q₁ _ _ ↦ Fails.bind (join_fails ha hv)
  | @moreOperators room b least left right joined operator power xs ys zs e hx hpower hle hr hj _ ih =>
    subst hp hb
    obtain ⟨m, rfl⟩ : ∃ m, n = m + 1 := ⟨n - 1, by omega⟩
    have hl := hx.length
    have hl' := hr.1.length_le
    simp only [Phrase.size] at hl'
    refine operators_fails hx hpower hle fun q hm hu hlast ↦ ?_
    have hi := (hroom.moves hm).parses hr (f := f) (n := m) hu hm.acrossLines
      (by simp only [Parser.enough, Goal.enough] at hf ⊢; omega) (by omega)
    refine Fails.of_gives hi fun q₁ hm₁ hu₁ ↦ ?_
    rw [join_of_joins hj, pure_bind]
    have hm' := hm.trans hm₁
    exact ih (n := m) hu₁ hm'.acrossLines (hroom.moves hm') trivial
      (by simp only [Goal.enough] at hf ⊢; omega) (by omega)
  | tooDeep =>
    obtain ⟨g, rfl⟩ : ∃ g, f = g + 1 := ⟨f - 1, by simp only [Goal.enough] at hf; omega⟩
    obtain rfl : p.last? = _ := hlast
    exact nested_fails_tooDeep hroom
  | @left room b last least xs e _ ih =>
    simp only [Goal.enough] at hf
    obtain ⟨g, rfl⟩ : ∃ g, f = g + 1 := ⟨f - 1, by omega⟩
    refine nested_fails hroom fun q hb₁ hu₁ hl₁ hr₁ ↦ Fails.bind ?_
    exact ih (f := g) (n := g + 1) (hu₁.trans hp) (hb₁.trans hb) hr₁ (hl₁.trans hlast)
      (by simp only [Goal.enough]; omega) (by omega)
  | @expression room b last least left xs ys e hr _ ih =>
    simp only [Goal.enough] at hf
    obtain ⟨g, rfl⟩ : ∃ g, f = g + 1 := ⟨f - 1, by omega⟩
    have hl := hr.1.length_le
    simp only [Phrase.size] at hl
    refine nested_fails hroom fun q hb₁ hu₁ hl₁ hr₁ ↦ ?_
    have hi := hr₁.parses hr (f := g) (n := g + 1) (hu₁.trans hp) (hb₁.trans hb)
      (by simp only [Parser.enough]; omega) (by omega)
    refine Fails.of_gives hi fun q₁ hm₁ hu₂ ↦ ?_
    exact ih (f := g) (n := g + 1) hu₂ ((hm₁.acrossLines.trans hb₁).trans hb) (hr₁.moves hm₁) trivial
      (by simp only [Goal.enough]; omega) (by omega)

end Parser

end Linewise
