import Linewise.Proofs.Need
import Linewise.Proofs.Parser.Moves

namespace Linewise

open Upcoming

def Phrase.size : Phrase → Nat
  | primary _ | suffix _ _ | operand _ | expression _ _ | arguments _ _ => 1
  | suffixes _ _ | operators _ _ _ => 0

namespace Upcoming

theorem Next.length {b : Bool} {xs ys : List Upcoming} {token : Token} (h : Next b xs token ys) :
    xs.length = ys.length + 1 := by
  obtain ⟨later, rfl, -⟩ := h
  rfl

@[simp]
theorem length_looked (b : Bool) (xs : List Upcoming) : (looked b xs).length = xs.length := by
  cases xs <;> rfl

end Upcoming

theorem Reads.length_le {b : Bool} {phrase : Phrase} {xs ys : List Upcoming}
    (h : Reads b phrase xs ys) : ys.length + phrase.size ≤ xs.length := by
  induction h with
  | literal hn | name hn =>
    have := hn.length
    simp only [Phrase.size]
    omega
  | dereference hn _ hm | emptyCall hn _ hm _ =>
    have := hn.length
    have := hm.length
    simp only [Phrase.size]
    omega
  | group hn _ _ hc _ ih | index hn _ _ hc _ ih =>
    have := hn.length
    have := hc.length
    simp only [Phrase.size] at ih ⊢
    omega
  | call hn _ _ _ ih =>
    have := hn.length
    simp only [Phrase.size, length_looked] at ih ⊢
    omega
  | noSuffix | noOperator => simp [Phrase.size]
  | moreSuffixes _ _ ih₁ ih₂ | suffixed _ _ ih₁ ih₂ | expression _ _ ih₁ ih₂ =>
    simp only [Phrase.size] at ih₁ ih₂ ⊢
    omega
  | unary hn _ _ ih =>
    have := hn.length
    simp only [Phrase.size] at ih ⊢
    omega
  | lastArgument _ hc _ ih =>
    have := hc.length
    simp only [Phrase.size] at ih ⊢
    omega
  | moreArguments _ hc _ _ ih₁ ih₂ =>
    have := hc.length
    simp only [Phrase.size] at ih₁ ih₂ ⊢
    omega
  | operator hn _ _ _ _ _ ih₁ ih₂ =>
    have := hn.length
    simp only [Phrase.size] at ih₁ ih₂ ⊢
    omega

namespace Parser

def Gives {α : Type} (x : Action α) (p : Parser) (a : α) (ys : List Upcoming) : Prop :=
  ∃ q, x p = .ok a q ∧ Moves p q ∧ q.upcoming = ys

variable {α β : Type} {p : Parser}

theorem Gives.bind {x : Action α} {f : α → Action β} {a : α} {b : β} {ys zs : List Upcoming}
    (hx : Gives x p a ys) (hf : ∀ q, Moves p q → q.upcoming = ys → Gives (f a) q b zs) :
    Gives (x >>= f) p b zs := by
  obtain ⟨q, h, hm, hu⟩ := hx
  obtain ⟨r, h', hm', hu'⟩ := hf q hm hu
  exact ⟨r, Action.bind_eq_ok.2 ⟨a, q, h, h'⟩, hm.trans hm', hu'⟩

theorem Gives.of_ok {x : Action α} {f : α → Action β} {q : Parser} {a : α} {b : β}
    {ys : List Upcoming} (h : x p = .ok a q) (hm : Moves p q) (hf : Gives (f a) q b ys) :
    Gives (x >>= f) p b ys := by
  obtain ⟨r, hr, hm', hu⟩ := hf
  exact ⟨r, Action.bind_eq_ok.2 ⟨a, q, h, hr⟩, hm.trans hm', hu⟩

theorem Gives.of_advance_unread {b : Bool} {token : Token} {f : Action α} {g : Option Token → Action α}
    {q r : Parser} {a : α} {ys : List Upcoming} (hg : g (some token) = (do Action.unread; f))
    (hq : Action.advance b p = .ok (some token) q) (hu : Action.unread q = .ok () r) (hm : Moves p r)
    (hf : Gives f r a ys) : Gives (Action.advance b >>= g) p a ys := by
  obtain ⟨s, hs, hm', hy⟩ := hf
  refine ⟨s, Action.bind_eq_ok.2 ⟨some token, q, hq, ?_⟩, hm.trans hm', hy⟩
  rw [hg]
  exact Action.bind_eq_ok.2 ⟨(), r, hu, hs⟩

theorem gives_pure {a : α} {ys : List Upcoming} (h : p.upcoming = ys) : Gives (pure a) p a ys :=
  ⟨p, rfl, .refl p, h⟩

namespace Action

theorem advance_gives {b : Bool} {token : Token} {ys : List Upcoming}
    (h : Next b p.upcoming token ys) : Gives (advance b) p (some token) ys := by
  obtain ⟨q, hq, hu⟩ := exists_advance_some h
  exact ⟨q, hq, (advance_some hq).1, hu⟩

/-- What is done when a phrase ends: the token that ends it, if there is one, is left. -/
theorem stop_gives {b : Bool} {ends : TokenKind → Prop} {f : Option Token → Action α} {a : α}
    (h : Stops b ends p.upcoming) (hnone : f none = pure a)
    (hsome : ∀ token : Token, ends token.kind → f (some token) = (do unread; pure a)) :
    Gives (advance b >>= f) p a (looked b p.upcoming) := by
  rcases h.nothing_or_next with hr | ⟨token, ys, hn, he⟩
  · obtain ⟨q, hq⟩ := exists_advance_none hr
    obtain ⟨hm, hu, -⟩ := advance_none hq
    refine ⟨q, bind_eq_ok.2 ⟨none, q, hq, by rw [hnone]; rfl⟩, hm, ?_⟩
    rw [hu, looked_of_not_inReach hr]
  · obtain ⟨q, r, hq, hu, hm, hl⟩ := exists_unread hn
    exact Gives.of_advance_unread (hsome token he) hq hu hm (gives_pure hl)

theorem expectToken_gives {construct : String} {token : Token} {ys : List Upcoming}
    (h : Next true p.upcoming token ys) : Gives (expectToken construct) p token ys :=
  (advance_gives h).bind fun _ _ hq ↦ gives_pure hq

theorem continuesAcrossLines_gives {f : Bool → Action α} {a : α} {ys : List Upcoming}
    (h : Gives (f p.acrossLines) p a ys) : Gives (continuesAcrossLines >>= f) p a ys := h

theorem expectOperand_gives {token : Token} {ys : List Upcoming}
    (h : Next p.acrossLines p.upcoming token ys) : Gives expectOperand p token ys :=
  continuesAcrossLines_gives ((advance_gives h).bind fun _ _ hq ↦ gives_pure hq)

theorem expectClosing_gives {kind : TokenKind} {construct : String} {token : Token}
    {ys : List Upcoming} (h : Next true p.upcoming token ys) (hk : token.kind = kind) :
    Gives (expectClosing kind construct) p token ys := by
  refine (expectToken_gives h).bind fun _ _ hq ↦ ?_
  rw [if_pos hk]
  exact gives_pure hq

theorem matchToken_gives {kind : TokenKind} {b : Bool} {token : Token} {ys : List Upcoming}
    (h : Next b p.upcoming token ys) (hk : token.kind = kind) :
    Gives (matchToken kind b) p (some token) ys := by
  refine (advance_gives h).bind fun _ _ hq ↦ ?_
  simp only [if_pos hk]
  exact gives_pure hq

theorem matchToken_stop_gives {kind : TokenKind} {b : Bool} (h : Stops b (· ≠ kind) p.upcoming) :
    Gives (matchToken kind b) p none (looked b p.upcoming) :=
  stop_gives h rfl fun token hk ↦ by simp only [if_neg hk]

theorem expectStatementEnd_gives (h : Stops false (· = .closeCurlyBrace) p.upcoming) :
    Gives expectStatementEnd p () p.upcoming := by
  rw [← looked_false p.upcoming]
  exact stop_gives h rfl fun token hk ↦ by simp only [if_pos hk, bind_pure_unit]

theorem enclosed_gives {body : Action α} {a : α} {ys : List Upcoming}
    (h : ∀ q : Parser, q.acrossLines = true → q.upcoming = p.upcoming → (∀ n, p.Fits n → q.Fits n) →
      Gives body q a ys) : Gives (enclosed body) p a ys := by
  obtain ⟨q, hq, hm, hu⟩ := h { p with openDelimiters := p.openDelimiters + 1 }
    (by simp [acrossLines]) rfl (fun _ hn ↦ hn)
  refine ⟨{ q with openDelimiters := q.openDelimiters - 1 }, ?_, ?_, hu⟩
  · exact bind_eq_ok.2 ⟨(), _, rfl, bind_eq_ok.2 ⟨a, q, hq, bind_eq_ok.2 ⟨(), _, rfl, rfl⟩⟩⟩
  · refine ⟨hm.contents, hm.result, ?_, hm.nestingDepth, hm.nestingLimit⟩
    simp [hm.openDelimiters]

theorem nested_gives {body : Action α} {a : α} {ys : List Upcoming} {n : Nat} (hn : 1 ≤ n)
    (hf : p.Fits (1 + n)) (h : ∀ q : Parser, q.acrossLines = p.acrossLines →
      q.upcoming = p.upcoming → q.Fits n → Gives body q a ys) : Gives (nested body) p a ys := by
  obtain ⟨q, hq, hm, hu⟩ := h { p with nestingDepth := p.nestingDepth + 1 } rfl rfl
    (fun limit hl ↦ by have := hf limit hl; simp only; omega)
  have hl : p.nestingLimit.filter (· ≤ p.nestingDepth) = none := by
    cases hc : p.nestingLimit with
    | none => rfl
    | some limit =>
      have := hf limit hc
      simp only [Option.filter_some, ite_eq_right_iff]
      simp
      omega
  refine ⟨{ q with nestingDepth := q.nestingDepth - 1 }, ?_, ?_, hu⟩
  · simp only [nested, hl, hq]
  · refine ⟨hm.contents, hm.result, hm.openDelimiters, ?_, hm.nestingLimit⟩
    simp [hm.nestingDepth]

end Action

/-- What it means for a phrase to be parsed from `p` on, leaving `ys`: `f` is the fuel for nested
expressions and `n` that of the loop in progress. -/
def Parses (f n : Nat) (p : Parser) (ys : List Upcoming) : Phrase → Prop
  | .primary start => ∃ q, Moves p q ∧ q.upcoming = ys ∧
      Action.operand (Action.expression f) n p = Action.suffixes (Action.expression f) n start q
  | .suffix start e => ∃ q, Moves p q ∧ q.upcoming = ys ∧
      Action.suffixes (Action.expression f) n start p =
        Action.suffixes (Action.expression f) (n - 1) e q
  | .suffixes start e => Gives (Action.suffixes (Action.expression f) n start) p e ys
  | .operand e => Gives (Action.operand (Action.expression f) n) p e ys
  | .operators least left e =>
    Gives (Action.operators (Action.expression f) least n left) p e ys
  | .expression least e => Gives (Action.expression f least) p e ys
  | .arguments args closeToken =>
    Gives (Action.arguments (Action.expression f) n) p (args, closeToken) ys

/-- The fuel for nested expressions that a phrase needs, given the number of tokens left. -/
def enough (n : Nat) : Phrase → Nat
  | .expression _ _ | .arguments _ _ => n + 1
  | _ => n

open Linewise.Parser.Action

theorem join_of_joins {left right e : Expr} {operator : Token} (h : left.Joins operator right e) :
    join left operator right = pure e := by
  cases h with
  | assignment hk => simp only [join, hk, if_true]
  | binary hk => simp only [join, hk, Bool.false_eq_true, if_false]

theorem literal_parses {f n : Nat} {p : Parser} {l : Literal} {ys : List Upcoming}
    (h : Next p.acrossLines p.upcoming l.token ys) : Parses f n p ys (.primary (.literal l)) := by
  obtain ⟨q, hq, hm, hu⟩ := expectOperand_gives h
  refine ⟨q, hm, hu, ?_⟩
  rw [operand, bind_of_ok hq]
  have hl := l.isLiteral
  have ho : Literal.ofToken? l.token = some l := by simp [Literal.ofToken?, hl]
  cases hk : l.token.kind <;> simp only [hk, TokenKind.isLiteral, Bool.false_eq_true] at hl ⊢ <;>
    simp only [ho]

theorem name_parses {f n : Nat} {p : Parser} {name : Identifier} {ys : List Upcoming}
    (h : Next p.acrossLines p.upcoming name.token ys) :
    Parses f n p ys (.primary (.var ⟨name, none⟩)) := by
  obtain ⟨q, hq, hm, hu⟩ := expectOperand_gives h
  refine ⟨q, hm, hu, ?_⟩
  rw [operand, bind_of_ok hq]
  rfl

theorem dereference_parses {f n : Nat} {p : Parser} {star : Token} {name : Identifier}
    {ys zs : List Upcoming} (h : Next p.acrossLines p.upcoming star ys)
    (hk : star.kind = .operation .multiplication) (hn : Next p.acrossLines ys name.token zs) :
    Parses f n p zs (.primary (.var ⟨name, some star⟩)) := by
  obtain ⟨q, hq, hm, hu⟩ := expectOperand_gives h
  rw [← hu, ← hm.acrossLines] at hn
  obtain ⟨r, hr, hm', hu'⟩ := expectOperand_gives hn
  have hd : dereference star q = .ok (.var ⟨name, some star⟩) r := by
    rw [dereference, bind_of_ok hr]
    rfl
  refine ⟨r, hm.trans hm', hu', ?_⟩
  rw [operand, bind_of_ok hq]
  simp only [hk]
  rw [bind_of_ok hd]

theorem bracketed_gives {x : Action Expr} {kind : TokenKind} {construct : String} {build : Expr → Token → Expr}
    {inner : Expr} {closeToken : Token} {ys zs : List Upcoming}
    (hx : ∀ q : Parser, q.acrossLines = true → q.upcoming = p.upcoming → (∀ n, p.Fits n → q.Fits n) →
      Gives x q inner ys) (hc : Next true ys closeToken zs) (hk : closeToken.kind = kind) :
    Gives (enclosed do
      let e ← x
      let token ← expectClosing kind construct
      return build e token) p (build inner closeToken) zs := by
  refine enclosed_gives fun q hb hu hf ↦ (hx q hb hu hf).bind fun q₁ _ hu₁ ↦ ?_
  rw [← hu₁] at hc
  exact (expectClosing_gives hc hk).bind fun q₂ _ hu₂ ↦ gives_pure hu₂

theorem group_parses {f n : Nat} {openToken : Token} {e : Expr} {ys zs : List Upcoming}
    (hx : Next p.acrossLines p.upcoming openToken ys) (hk : openToken.kind = .openParen)
    (h : ∀ q, Moves p q → q.upcoming = ys → Gives (group (expression f) openToken) q e zs) :
    Parses f n p zs (.primary e) := by
  obtain ⟨q, hq, hm, hu⟩ := expectOperand_gives hx
  obtain ⟨r, hr, hm', hu'⟩ := h q hm hu
  refine ⟨r, hm.trans hm', hu', ?_⟩
  rw [operand, bind_of_ok hq]
  simp only [hk]
  rw [bind_of_ok hr]

theorem call_parses {f n : Nat} {callee e : Expr} {openToken : Token} {ys zs : List Upcoming}
    (hx : Next p.acrossLines p.upcoming openToken ys) (hk : openToken.kind = .openParen)
    (h : ∀ q, Moves p q → q.upcoming = ys → Gives (call (expression f) (n + 1) callee openToken) q e zs) :
    Parses f (n + 1) p zs (.suffix callee e) := by
  obtain ⟨q, hq, hm, hu⟩ := advance_gives hx
  obtain ⟨r, hr, hm', hu'⟩ := h q hm hu
  refine ⟨r, hm.trans hm', hu', ?_⟩
  rw [suffixes, continuesAcrossLines_bind, bind_of_ok hq]
  simp only [hk, if_true]
  rw [bind_of_ok hr, Nat.add_sub_cancel]

theorem index_parses {f n : Nat} {target e : Expr} {openToken : Token} {ys zs : List Upcoming}
    (hx : Next p.acrossLines p.upcoming openToken ys) (hk : openToken.kind = .openSquareBracket)
    (h : ∀ q, Moves p q → q.upcoming = ys → Gives (index (expression f) target openToken) q e zs) :
    Parses f (n + 1) p zs (.suffix target e) := by
  obtain ⟨q, hq, hm, hu⟩ := advance_gives hx
  obtain ⟨r, hr, hm', hu'⟩ := h q hm hu
  refine ⟨r, hm.trans hm', hu', ?_⟩
  rw [suffixes, continuesAcrossLines_bind, bind_of_ok hq]
  simp only [hk, if_true, reduceCtorEq, if_false]
  rw [bind_of_ok hr, Nat.add_sub_cancel]

theorem parses_of_reads {b : Bool} {phrase : Phrase} {xs ys : List Upcoming}
    (h : Reads b phrase xs ys) {f n : Nat} {p : Parser} (hp : p.upcoming = xs)
    (hb : p.acrossLines = b) (hf : enough xs.length phrase ≤ f) (hn : xs.length < n)
    (hfits : p.Fits phrase.need) : Parses f n p ys phrase := by
  -- The fuel falls by one on each level of nesting and in each round of a loop. Both take at least one token,
  -- so either fuel stays above the number of tokens left.
  induction h generalizing f n p with
  | literal hx =>
    subst hp hb
    exact literal_parses hx
  | name hx =>
    subst hp hb
    exact name_parses hx
  | dereference hx hk hy =>
    subst hp hb
    exact dereference_parses hx hk hy
  | @group b openToken closeToken inner xs ys zs ws hx hk hr hc hck ih =>
    subst hp hb
    have hl := hx.length
    refine group_parses hx hk fun q hm hu ↦ bracketed_gives (fun q₁ hb₁ hu₁ hf₁ ↦ ?_) hc hck
    exact ih (f := f) (n := n) (hu₁.trans hu) hb₁ (by simp only [enough] at hf ⊢; omega) (by omega)
      (hf₁ _ (hm.fits hfits))
  | @emptyCall b callee openToken closeToken xs ys zs hx hk hc hck =>
    subst hp hb
    obtain ⟨m, rfl⟩ : ∃ m, n = m + 1 := ⟨n - 1, by omega⟩
    refine call_parses hx hk fun q hm hu ↦ enclosed_gives fun q₁ hb₁ hu₁ hf₁ ↦ ?_
    rw [← hu, ← hu₁] at hc
    exact (matchToken_gives hc hck).bind fun q₂ _ hu₂ ↦ gives_pure hu₂
  | @call b callee openToken closeToken args xs ys zs hx hk hs hr ih =>
    subst hp hb
    obtain ⟨m, rfl⟩ : ∃ m, n = m + 1 := ⟨n - 1, by omega⟩
    have hl := hx.length
    refine call_parses hx hk fun q hm hu ↦ enclosed_gives fun q₁ hb₁ hu₁ hf₁ ↦ ?_
    rw [← hu, ← hu₁] at hs
    refine (matchToken_stop_gives hs).bind fun q₂ hm₂ hu₂ ↦ ?_
    rw [hu₁, hu] at hu₂
    have hi := ih (f := f) (n := m + 1) hu₂ (hm₂.acrossLines.trans hb₁)
      (by simp only [enough, length_looked] at hf ⊢; omega)
      (by rw [length_looked]; omega)
      (hm₂.fits (hf₁ _ (hm.fits (hfits.mono (Nat.le_max_right _ _)))))
    exact Gives.bind hi fun q₃ _ hu₃ ↦ gives_pure hu₃
  | @index b target i openToken closeToken xs ys zs ws hx hk hr hc hck ih =>
    subst hp hb
    obtain ⟨m, rfl⟩ : ∃ m, n = m + 1 := ⟨n - 1, by omega⟩
    have hl := hx.length
    refine index_parses hx hk fun q hm hu ↦ bracketed_gives (fun q₁ hb₁ hu₁ hf₁ ↦ ?_) hc hck
    exact ih (f := f) (n := m) (hu₁.trans hu) hb₁ (by simp only [enough] at hf ⊢; omega) (by omega)
      (hf₁ _ (hm.fits (hfits.mono (Nat.le_max_right _ _))))
  | @noSuffix b e xs hs =>
    subst hp hb
    obtain ⟨m, rfl⟩ : ∃ m, n = m + 1 := ⟨n - 1, by omega⟩
    refine continuesAcrossLines_gives (stop_gives hs rfl fun token ⟨ho, hi⟩ ↦ ?_)
    simp only [if_neg ho, if_neg hi]
  | @moreSuffixes b start middle e xs ys zs hr hr' ih₁ ih₂ =>
    have hl := hr.length_le
    simp only [Phrase.size] at hl
    have hmiddle : middle.need ≤ e.need := hr'.need_le
    obtain ⟨q, hm, hu, hq⟩ := ih₁ hp hb hf hn (hfits.mono hmiddle)
    simp only [enough] at hf
    have hg := ih₂ (f := f) (n := n - 1) hu (hm.acrossLines.trans hb)
      (by simp only [enough]; omega) (by omega) (hm.fits hfits)
    obtain ⟨r, hr, hm', hu'⟩ := hg
    exact ⟨r, hq.trans hr, hm.trans hm', hu'⟩
  | @suffixed b start e xs ys zs hr hr' ih₁ ih₂ =>
    have hl := hr.length_le
    simp only [Phrase.size] at hl
    have hstart : start.need ≤ e.need := hr'.need_le
    obtain ⟨q, hm, hu, hq⟩ := ih₁ hp hb hf hn (hfits.mono hstart)
    simp only [enough] at hf
    have hg := ih₂ (f := f) (n := n) hu (hm.acrossLines.trans hb)
      (by simp only [enough]; omega) (by omega) (hm.fits hfits)
    obtain ⟨r, hr, hm', hu'⟩ := hg
    exact ⟨r, hq.trans hr, hm.trans hm', hu'⟩
  | @unary b operator e xs ys zs hx hk hr ih =>
    subst hp hb
    have hl := hx.length
    simp only [enough] at hf
    refine (expectOperand_gives hx).bind fun q hm hu ↦ ?_
    have hi := ih (f := f) (n := n) hu hm.acrossLines (by simp only [enough]; omega) (by omega)
      (hm.fits hfits)
    have hg := Gives.bind (f := fun a ↦ pure (Expr.unary operator a)) hi fun q₁ _ hu₁ ↦
      gives_pure hu₁
    rcases hk with hk | hk | hk
    all_goals simpa only [hk] using hg
  | @lastArgument argument closeToken xs ys zs hr hc hck ih =>
    obtain ⟨m, rfl⟩ : ∃ m, n = m + 1 := ⟨n - 1, by omega⟩
    have hi := ih (f := f) (n := m + 1) hp hb hf hn (hfits.mono (Nat.le_max_left _ _))
    refine Gives.bind hi fun q _ hu ↦ ?_
    rw [← hu] at hc
    refine (expectToken_gives hc).bind fun q₁ _ hu₁ ↦ ?_
    simp only [hck, reduceCtorEq, if_true, if_false]
    exact gives_pure hu₁
  | @moreArguments argument comma closeToken args xs ys zs ws hr hc hck hr' ih₁ ih₂ =>
    obtain ⟨m, rfl⟩ : ∃ m, n = m + 1 := ⟨n - 1, by omega⟩
    have hl := hr.length_le
    have hl' := hc.length
    simp only [Phrase.size] at hl
    have hi := ih₁ (f := f) (n := m + 1) hp hb hf hn (hfits.mono (Nat.le_max_left _ _))
    refine Gives.bind hi fun q hm hu ↦ ?_
    rw [← hu] at hc
    refine (expectToken_gives hc).bind fun q₁ hm₁ hu₁ ↦ ?_
    simp only [hck, if_true]
    simp only [enough] at hf
    have hm' := hm.trans hm₁
    have hi' := ih₂ (f := f) (n := m) hu₁ (hm'.acrossLines.trans hb)
      (by simp only [enough]; omega) (by omega) (hm'.fits (hfits.mono (Nat.le_max_right _ _)))
    exact Gives.bind hi' fun q₂ _ hu₂ ↦ gives_pure hu₂
  | @noOperator b least e xs hs =>
    subst hp hb
    obtain ⟨m, rfl⟩ : ∃ m, n = m + 1 := ⟨n - 1, by omega⟩
    refine continuesAcrossLines_gives (stop_gives hs rfl fun token he ↦ ?_)
    cases hk : token.kind.bindingPower? with
    | none => simp only [hk]
    | some power => simp only [hk, if_pos (he power hk)]
  | @operator b least left right joined e operator power xs ys zs ws hx hk hle hr hj hr' ih₁ ih₂ =>
    subst hp hb
    obtain ⟨m, rfl⟩ : ∃ m, n = m + 1 := ⟨n - 1, by omega⟩
    have hl := hx.length
    have hl' := hr.length_le
    simp only [Phrase.size] at hl'
    simp only [enough] at hf
    have hjoined : joined.need ≤ e.need := hr'.need_le
    have hright := (Expr.need_le_of_joins hj).2
    refine continuesAcrossLines_gives ((advance_gives hx).bind fun q hm hu ↦ ?_)
    simp only [hk, if_neg (Nat.not_lt.2 hle)]
    have hi := ih₁ (f := f) (n := m + 1) hu hm.acrossLines (by simp only [enough]; omega)
      (by omega) (hm.fits (hfits.mono (Nat.le_trans hright hjoined)))
    refine Gives.bind hi fun q₁ hm₁ hu₁ ↦ ?_
    have hm' := hm.trans hm₁
    have hi' := ih₂ (f := f) (n := m) hu₁ hm'.acrossLines (by simp only [enough]; omega)
      (by omega) (hm'.fits hfits)
    rw [join_of_joins hj, pure_bind]
    exact hi'
  | @expression b least left e xs ys zs hr hr' ih₁ ih₂ =>
    simp only [enough] at hf
    obtain ⟨g, rfl⟩ : ∃ g, f = g + 1 := ⟨f - 1, by omega⟩
    have hl := hr.length_le
    simp only [Phrase.size] at hl
    have hleft : left.need ≤ e.need := hr'.need_le
    refine nested_gives (Expr.one_le_need e) hfits fun q hb₁ hu₁ hf₁ ↦ ?_
    have hi := ih₁ (f := g) (n := g + 1) (hu₁.trans hp) (hb₁.trans hb)
      (by simp only [enough]; omega) (by omega) (hf₁.mono hleft)
    refine Gives.bind hi fun q₁ hm₁ hu₂ ↦ ?_
    exact ih₂ (f := g) (n := g + 1) hu₂ ((hm₁.acrossLines.trans hb₁).trans hb)
      (by simp only [enough]; omega) (by omega) (hm₁.fits hf₁)

end Parser

end Linewise
