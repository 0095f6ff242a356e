import Linewise.Proofs.Need
import Linewise.Proofs.Parser.Moves

namespace Linewise.Parser.Action

open Upcoming

variable {α : Type} {p q : Parser}

theorem expectToken_ok {construct : String} {token : Token}
    (h : expectToken construct p = .ok token q) :
    Moves p q ∧ Next true p.upcoming token q.upcoming := by
  obtain ⟨r, p₁, h₁, h₂⟩ := bind_eq_ok.1 h
  cases r with
  | none => exact absurd h₂ fail_ne_ok
  | some t =>
    obtain ⟨rfl, rfl⟩ := pure_eq_ok.1 h₂
    obtain ⟨hm, hn, -⟩ := advance_some h₁
    exact ⟨hm, hn⟩

theorem matchToken_some {kind : TokenKind} {b : Bool} {token : Token}
    (h : matchToken kind b p = .ok (some token) q) :
    Moves p q ∧ Next b p.upcoming token q.upcoming ∧ token.kind = kind := by
  obtain ⟨r, p₁, h₁, h₂⟩ := bind_eq_ok.1 h
  cases r with
  | none => cases (pure_eq_ok.1 h₂).1
  | some t =>
    by_cases hk : t.kind = kind
    · simp only [if_pos hk] at h₂
      obtain ⟨ht, rfl⟩ := pure_eq_ok.1 h₂
      cases ht
      obtain ⟨hm, hn, -⟩ := advance_some h₁
      exact ⟨hm, hn, hk⟩
    · simp only [if_neg hk] at h₂
      obtain ⟨-, p₂, -, h₃⟩ := bind_eq_ok.1 h₂
      cases (pure_eq_ok.1 h₃).1

theorem matchToken_none {kind : TokenKind} {b : Bool} (h : matchToken kind b p = .ok none q) :
    Moves p q ∧ q.upcoming = looked b p.upcoming ∧ Stops b (· ≠ kind) p.upcoming := by
  obtain ⟨r, p₁, h₁, h₂⟩ := bind_eq_ok.1 h
  cases r with
  | none =>
    obtain ⟨-, rfl⟩ := pure_eq_ok.1 h₂
    exact stops_of_advance_none h₁
  | some t =>
    by_cases hk : t.kind = kind
    · simp only [if_pos hk] at h₂
      cases (pure_eq_ok.1 h₂).1
    · simp only [if_neg hk] at h₂
      obtain ⟨_, p₂, h₃, h₄⟩ := bind_eq_ok.1 h₂
      obtain ⟨-, rfl⟩ := pure_eq_ok.1 h₄
      exact stops_of_unread (· ≠ kind) h₁ h₃ hk

theorem expectStatementEnd_ok (h : expectStatementEnd p = .ok () q) :
    Moves p q ∧ q.upcoming = p.upcoming ∧ Stops false (· = .closeCurlyBrace) p.upcoming := by
  obtain ⟨r, p₁, h₁, h₂⟩ := bind_eq_ok.1 h
  cases r with
  | none =>
    obtain ⟨-, rfl⟩ := pure_eq_ok.1 h₂
    simpa using stops_of_advance_none h₁
  | some t =>
    by_cases hk : t.kind = .closeCurlyBrace
    · simp only [if_pos hk] at h₂
      simpa using stops_of_unread (· = .closeCurlyBrace) h₁ h₂ hk
    · simp only [if_neg hk] at h₂
      exact absurd h₂ failExpected_ne_ok

theorem advance_of_expectOperand {token : Token} (h : expectOperand p = .ok token q) :
    advance p.acrossLines p = .ok (some token) q := by
  rw [expectOperand, continuesAcrossLines_bind] at h
  obtain ⟨r, p₁, h₁, h₂⟩ := bind_eq_ok.1 h
  cases r with
  | none =>
    by_cases hb : p.acrossLines = true
    · simp only [if_pos hb] at h₂
      exact absurd h₂ fail_ne_ok
    · simp only [if_neg hb] at h₂
      obtain ⟨_, _, _, h₃⟩ := bind_eq_ok.1 h₂
      exact absurd h₃ fail_ne_ok
  | some t =>
    obtain ⟨rfl, rfl⟩ := pure_eq_ok.1 h₂
    exact h₁

theorem expectOperand_ok {token : Token} (h : expectOperand p = .ok token q) :
    Moves p q ∧ Next p.acrossLines p.upcoming token q.upcoming := by
  obtain ⟨hm, hn, -⟩ := advance_some (advance_of_expectOperand h)
  exact ⟨hm, hn⟩

theorem expectClosing_ok {kind : TokenKind} {construct : String} {token : Token}
    (h : expectClosing kind construct p = .ok token q) :
    Moves p q ∧ Next true p.upcoming token q.upcoming ∧ token.kind = kind := by
  obtain ⟨t, p₁, h₁, h₂⟩ := bind_eq_ok.1 h
  by_cases hk : t.kind = kind
  · simp only [if_pos hk] at h₂
    obtain ⟨rfl, rfl⟩ := pure_eq_ok.1 h₂
    obtain ⟨hm, hn⟩ := expectToken_ok h₁
    exact ⟨hm, hn, hk⟩
  · simp only [if_neg hk] at h₂
    exact absurd h₂ failExpected_ne_ok

theorem enclosed_ok {body : Action α} {a : α} (h : enclosed body p = .ok a q) :
    ∃ p₁ q₁, body p₁ = .ok a q₁ ∧ p₁.acrossLines = true ∧ p₁.upcoming = p.upcoming ∧
      q.upcoming = q₁.upcoming ∧ (Moves p₁ q₁ → Moves p q) ∧ ∀ n, p₁.Fits n → p.Fits n := by
  obtain ⟨_, p₁, h₁, h₂⟩ := bind_eq_ok.1 h
  obtain ⟨a', q₁, hb, h₃⟩ := bind_eq_ok.1 h₂
  obtain ⟨_, q₂, h₄, h₅⟩ := bind_eq_ok.1 h₃
  obtain ⟨rfl, rfl⟩ := pure_eq_ok.1 h₅
  cases h₁
  cases h₄
  refine ⟨_, q₁, hb, ?_, rfl, rfl, fun hm ↦ ⟨hm.contents, hm.result, ?_, hm.nestingDepth,
    hm.nestingLimit⟩, fun _ hn ↦ hn⟩
  · simp [acrossLines]
  · simp [hm.openDelimiters]

theorem nested_ok {body : Action α} {a : α} (h : nested body p = .ok a q) :
    ∃ p₁ q₁, body p₁ = .ok a q₁ ∧ p₁.acrossLines = p.acrossLines ∧ p₁.upcoming = p.upcoming ∧
      q.upcoming = q₁.upcoming ∧ (Moves p₁ q₁ → Moves p q) ∧ p₁.Fits 1 ∧
      ∀ n, p₁.Fits n → p.Fits (1 + n) := by
  unfold nested at h
  split at h
  · cases h
  · next hlimit =>
    split at h
    · next q₁ hb =>
      cases h
      refine ⟨_, q₁, hb, rfl, rfl, rfl, fun hm ↦ ⟨hm.contents, hm.result, hm.openDelimiters, ?_,
        hm.nestingLimit⟩, fun limit hl ↦ ?_, fun n hn limit hl ↦ ?_⟩
      · simp [hm.nestingDepth]
      · have hlt : ¬ limit ≤ p.nestingDepth := by
          simpa using Option.filter_eq_none_iff.1 hlimit limit hl
        simp only
        omega
      · have := hn limit hl
        simp only at this
        omega
    · cases h

/-- A phrase at the front of `xs` has been parsed, as far as the nesting limit allows. -/
structure Parsed (b : Bool) (phrase : Phrase) (xs : List Upcoming) (p q : Parser) : Prop where
  moves : Moves p q
  reads : Reads b phrase xs q.upcoming
  fits : p.Fits phrase.need

def Accepts (x : Action α) (phrase : α → Phrase) (p : Parser) : Prop :=
  ∀ a q, x p = .ok a q → Parsed p.acrossLines (phrase a) p.upcoming p q

theorem dereference_accepts {xs : List Upcoming} {star : Token} {e : Expr}
    (hn : Next p.acrossLines xs star p.upcoming) (hk : star.kind = .operation .multiplication)
    (hf : p.Fits 1) (h : dereference star p = .ok e q) :
    Parsed p.acrossLines (.primary e) xs p q := by
  obtain ⟨t, p₁, h₁, h₂⟩ := bind_eq_ok.1 h
  obtain ⟨hm, ht⟩ := expectOperand_ok h₁
  cases hi : t.identifier? with
  | none =>
    simp only [hi] at h₂
    exact absurd h₂ failExpected_ne_ok
  | some n =>
    simp only [hi] at h₂
    obtain ⟨rfl, rfl⟩ := pure_eq_ok.1 h₂
    rw [← Token.token_of_identifier? hi] at ht
    exact ⟨hm, .dereference hn hk ht, hf⟩

theorem join_ok {left right e : Expr} {operator : Token}
    (h : join left operator right p = .ok e q) : p = q ∧ left.Joins operator right e := by
  unfold join at h
  by_cases ha : operator.kind.isAssignment = true
  · rw [if_pos ha] at h
    split at h
    · obtain ⟨rfl, rfl⟩ := pure_eq_ok.1 h
      exact ⟨rfl, .assignment ha⟩
    · exact absurd h fail_ne_ok
  · rw [if_neg ha] at h
    obtain ⟨rfl, rfl⟩ := pure_eq_ok.1 h
    exact ⟨rfl, .binary (by simpa using ha)⟩

section

variable {expr : Nested} (hexpr : ∀ least p, Accepts (expr least) (.expression least) p)
include hexpr

theorem arguments_accepts (fuel : Nat) (hb : p.acrossLines = true) :
    Accepts (arguments expr fuel) (fun r ↦ .arguments r.1 r.2) p := by
  induction fuel generalizing p with
  | zero => exact fun _ _ h ↦ by cases h
  | succ fuel ih =>
    rintro ⟨args, closeToken⟩ q h
    obtain ⟨a, p₁, h₁, h₂⟩ := bind_eq_ok.1 h
    obtain ⟨t, p₂, h₃, h₄⟩ := bind_eq_ok.1 h₂
    obtain ⟨hm₁, hr₁, hf₁⟩ := hexpr 0 p a p₁ h₁
    obtain ⟨hm₂, hn⟩ := expectToken_ok h₃
    have hm := hm₁.trans hm₂
    rw [hb] at hr₁ ⊢
    by_cases hc : t.kind = .comma
    · simp only [if_pos hc] at h₄
      obtain ⟨⟨more, c⟩, p₃, h₅, h₆⟩ := bind_eq_ok.1 h₄
      obtain ⟨hr, rfl⟩ := pure_eq_ok.1 h₆
      cases hr
      obtain ⟨hm₃, hr₂, hf₂⟩ := ih (hm.acrossLines.trans hb) _ _ h₅
      rw [hm.acrossLines, hb] at hr₂
      exact ⟨hm.trans hm₃, .moreArguments hr₁ hn hc hr₂, hf₁.max ((hm.fits_iff _).1 hf₂)⟩
    · simp only [if_neg hc] at h₄
      by_cases hk : t.kind = .closeParen
      · simp only [if_pos hk] at h₄
        obtain ⟨hr, rfl⟩ := pure_eq_ok.1 h₄
        cases hr
        exact ⟨hm, .lastArgument hr₁ hn hk, hf₁.mono (Nat.max_le.2 ⟨Nat.le_refl _, Nat.zero_le _⟩)⟩
      · simp only [if_neg hk] at h₄
        exact absurd h₄ failExpected_ne_ok

theorem call_accepts {b : Bool} {xs : List Upcoming} {callee : Expr} {openToken : Token}
    (fuel : Nat) (hn : Next b xs openToken p.upcoming) (hk : openToken.kind = .openParen)
    (hf : p.Fits callee.need) {e : Expr} (h : call expr fuel callee openToken p = .ok e q) :
    Parsed b (.suffix callee e) xs p q := by
  obtain ⟨p₁, q₁, h₁, hb, hp, hq, hm, hfits⟩ := enclosed_ok h
  obtain ⟨r, p₂, h₂, h₃⟩ := bind_eq_ok.1 h₁
  rw [← hp] at hn
  cases r with
  | none =>
    obtain ⟨⟨args, c⟩, p₃, h₄, h₅⟩ := bind_eq_ok.1 h₃
    obtain ⟨rfl, rfl⟩ := pure_eq_ok.1 h₅
    obtain ⟨hm₁, hl, hs⟩ := matchToken_none h₂
    obtain ⟨hm₂, hr, hf₂⟩ := arguments_accepts hexpr fuel (hm₁.acrossLines.trans hb) _ _ h₄
    rw [hm₁.acrossLines, hb, hl] at hr
    exact ⟨hm (hm₁.trans hm₂), hq ▸ .call hn hk hs hr, hf.max (hfits _ ((hm₁.fits_iff _).1 hf₂))⟩
  | some c =>
    obtain ⟨rfl, rfl⟩ := pure_eq_ok.1 h₃
    obtain ⟨hm₁, hc, hck⟩ := matchToken_some h₂
    exact ⟨hm hm₁, hq ▸ .emptyCall hn hk hc hck, hf.mono (Nat.max_le.2 ⟨Nat.le_refl _, Nat.zero_le _⟩)⟩

theorem bracketed_ok {kind : TokenKind} {construct : String} {build : Expr → Token → Expr} {e : Expr}
    (h : enclosed (do
      let inner ← expr 0
      let closeToken ← expectClosing kind construct
      return build inner closeToken) p = .ok e q) :
    ∃ inner closeToken ys, e = build inner closeToken ∧ Moves p q ∧
      Reads true (.expression 0 inner) p.upcoming ys ∧ Next true ys closeToken q.upcoming ∧
        closeToken.kind = kind ∧ p.Fits (1 + inner.need) := by
  obtain ⟨p₁, q₁, h₁, hb, hp, hq, hm, hfits⟩ := enclosed_ok h
  obtain ⟨inner, p₂, h₂, h₃⟩ := bind_eq_ok.1 h₁
  obtain ⟨c, p₃, h₄, h₅⟩ := bind_eq_ok.1 h₃
  obtain ⟨rfl, rfl⟩ := pure_eq_ok.1 h₅
  obtain ⟨hm₁, hr, hf₁⟩ := hexpr 0 p₁ inner p₂ h₂
  obtain ⟨hm₂, hc, hck⟩ := expectClosing_ok h₄
  rw [hb, hp] at hr
  exact ⟨inner, c, p₂.upcoming, rfl, hm (hm₁.trans hm₂), hr, hq ▸ hc, hck, hfits _ hf₁⟩

theorem index_accepts {b : Bool} {xs : List Upcoming} {target : Expr} {openToken : Token}
    (hn : Next b xs openToken p.upcoming) (hk : openToken.kind = .openSquareBracket)
    (hf : p.Fits target.need) {e : Expr} (h : index expr target openToken p = .ok e q) :
    Parsed b (.suffix target e) xs p q := by
  obtain ⟨i, c, ys, rfl, hm, hr, hc, hck, hfits⟩ := bracketed_ok hexpr h
  exact ⟨hm, .index hn hk hr hc hck, hf.max hfits⟩

theorem group_accepts {b : Bool} {xs : List Upcoming} {openToken : Token}
    (hn : Next b xs openToken p.upcoming) (hk : openToken.kind = .openParen)
    {e : Expr} (h : group expr openToken p = .ok e q) : Parsed b (.primary e) xs p q := by
  obtain ⟨inner, c, ys, rfl, hm, hr, hc, hck, hfits⟩ := bracketed_ok hexpr h
  exact ⟨hm, .group hn hk hr hc hck, hfits⟩

theorem suffixes_accepts (fuel : Nat) {start : Expr} (hf : p.Fits start.need) :
    Accepts (suffixes expr fuel start) (.suffixes start) p := by
  induction fuel generalizing p start with
  | zero => exact fun _ _ h ↦ by cases h
  | succ fuel ih =>
    intro e q h
    rw [suffixes, continuesAcrossLines_bind] at h
    obtain ⟨r, p₁, h₁, h₂⟩ := bind_eq_ok.1 h
    cases r with
    | none =>
      obtain ⟨rfl, rfl⟩ := pure_eq_ok.1 h₂
      obtain ⟨hm, hl, hs⟩ := stops_of_advance_none h₁
      exact ⟨hm, hl ▸ .noSuffix hs, hf⟩
    | some t =>
      obtain ⟨hm₁, hn, -⟩ := advance_some h₁
      by_cases hp : t.kind = .openParen
      · simp only [if_pos hp] at h₂
        obtain ⟨middle, p₂, h₃, h₄⟩ := bind_eq_ok.1 h₂
        obtain ⟨hm₂, hr₁, hf₁⟩ := call_accepts hexpr (fuel + 1) hn hp (hm₁.fits hf) h₃
        obtain ⟨hm₃, hr₂, hf₂⟩ := ih (hm₂.fits hf₁) _ _ h₄
        have hm := hm₁.trans hm₂
        rw [hm.acrossLines] at hr₂
        exact ⟨hm.trans hm₃, .moreSuffixes hr₁ hr₂, (hm.fits_iff _).1 hf₂⟩
      · simp only [if_neg hp] at h₂
        by_cases hs : t.kind = .openSquareBracket
        · simp only [if_pos hs] at h₂
          obtain ⟨middle, p₂, h₃, h₄⟩ := bind_eq_ok.1 h₂
          obtain ⟨hm₂, hr₁, hf₁⟩ := index_accepts hexpr hn hs (hm₁.fits hf) h₃
          obtain ⟨hm₃, hr₂, hf₂⟩ := ih (hm₂.fits hf₁) _ _ h₄
          have hm := hm₁.trans hm₂
          rw [hm.acrossLines] at hr₂
          exact ⟨hm.trans hm₃, .moreSuffixes hr₁ hr₂, (hm.fits_iff _).1 hf₂⟩
        · simp only [if_neg hs] at h₂
          obtain ⟨_, p₂, h₃, h₄⟩ := bind_eq_ok.1 h₂
          obtain ⟨rfl, rfl⟩ := pure_eq_ok.1 h₄
          obtain ⟨hm, hl, hstop⟩ := stops_of_unread
            (fun k ↦ k ≠ .openParen ∧ k ≠ .openSquareBracket) h₁ h₃ ⟨hp, hs⟩
          exact ⟨hm, hl ▸ .noSuffix hstop, hf⟩

theorem operand_accepts (fuel : Nat) (hf : p.Fits 1) : Accepts (operand expr fuel) .operand p := by
  intro e q h
  obtain ⟨t, p₁, h₁, h₂⟩ := bind_eq_ok.1 h
  obtain ⟨hm₁, hn⟩ := expectOperand_ok h₁
  have suffixed {start : Expr} {p₂ : Parser} (hm : Moves p₁ p₂)
      (hr : Reads p.acrossLines (.primary start) p.upcoming p₂.upcoming) (hf : p₁.Fits start.need)
      (hs : suffixes expr fuel start p₂ = .ok e q) :
      Parsed p.acrossLines (.operand e) p.upcoming p q := by
    obtain ⟨hm₂, hr₂, hf₂⟩ := suffixes_accepts hexpr fuel (hm.fits hf) e q hs
    have hm := hm₁.trans hm
    rw [hm.acrossLines] at hr₂
    exact ⟨hm.trans hm₂, .suffixed hr hr₂, (hm.fits_iff _).1 hf₂⟩
  have unary (hk : t.kind.IsUnary)
      (hu : (do return .unary t (← expr BindingPower.unaryOperand) : Action Expr) p₁ = .ok e q) :
      Parsed p.acrossLines (.operand e) p.upcoming p q := by
    obtain ⟨x, p₂, h₃, h₄⟩ := bind_eq_ok.1 hu
    obtain ⟨rfl, rfl⟩ := pure_eq_ok.1 h₄
    obtain ⟨hm₂, hr, hf₂⟩ := hexpr _ p₁ x p₂ h₃
    rw [hm₁.acrossLines] at hr
    exact ⟨hm₁.trans hm₂, .unary hn hk hr, (hm₁.fits_iff _).1 hf₂⟩
  have literal (hl : literalOperand expr fuel t p₁ = .ok e q) :
      Parsed p.acrossLines (.operand e) p.upcoming p q := by
    cases hl' : Literal.ofToken? t with
    | none =>
      simp only [literalOperand, hl'] at hl
      exact absurd hl failExpected_ne_ok
    | some l =>
      simp only [literalOperand, hl'] at hl
      rw [← Literal.token_of_ofToken? hl'] at hn
      exact suffixed (.refl p₁) (.literal hn) (hm₁.fits hf) hl
  cases hk : t.kind with
  | identifier text =>
    have ht : t = Identifier.token ⟨text, t.span⟩ := by rw [Identifier.token, ← hk]
    simp only [hk] at h₂
    rw [ht] at hn
    exact suffixed (.refl p₁) (.name hn) (hm₁.fits hf) h₂
  | openParen =>
    simp only [hk] at h₂
    obtain ⟨start, p₂, h₃, h₄⟩ := bind_eq_ok.1 h₂
    obtain ⟨hm, hr, hf₃⟩ := group_accepts hexpr hn hk h₃
    exact suffixed hm hr hf₃ h₄
  | logicalNot =>
    simp only [hk] at h₂
    exact unary (.inr (.inl hk)) h₂
  | operation op =>
    cases op with
    | multiplication =>
      simp only [hk] at h₂
      obtain ⟨start, p₂, h₃, h₄⟩ := bind_eq_ok.1 h₂
      rw [← hm₁.acrossLines] at hn
      obtain ⟨hm, hr, hf₃⟩ := dereference_accepts hn hk (hm₁.fits hf) h₃
      rw [hm₁.acrossLines] at hr
      exact suffixed hm hr hf₃ h₄
    | subtraction =>
      simp only [hk] at h₂
      exact unary (.inl hk) h₂
    | bitwiseNot =>
      simp only [hk] at h₂
      exact unary (.inr (.inr hk)) h₂
    | _ =>
      simp only [hk] at h₂
      exact literal h₂
  | _ =>
    simp only [hk] at h₂
    exact literal h₂

theorem operators_accepts (fuel least : Nat) {left : Expr} (hf : p.Fits left.need) :
    Accepts (operators expr least fuel left) (.operators least left) p := by
  induction fuel generalizing p left with
  | zero => exact fun _ _ h ↦ by cases h
  | succ fuel ih =>
    intro e q h
    rw [operators, continuesAcrossLines_bind] at h
    obtain ⟨r, p₁, h₁, h₂⟩ := bind_eq_ok.1 h
    cases r with
    | none =>
      obtain ⟨rfl, rfl⟩ := pure_eq_ok.1 h₂
      obtain ⟨hm, hl, hs⟩ := stops_of_advance_none h₁
      exact ⟨hm, hl ▸ .noOperator hs, hf⟩
    | some t =>
      obtain ⟨hm₁, hn, -⟩ := advance_some h₁
      have stop (hp : ∀ power ∈ t.kind.bindingPower?, power.left < least)
          (hu : (do unread; return left : Action Expr) p₁ = .ok e q) :
          Parsed p.acrossLines (.operators least left e) p.upcoming p q := by
        obtain ⟨_, p₂, h₃, h₄⟩ := bind_eq_ok.1 hu
        obtain ⟨rfl, rfl⟩ := pure_eq_ok.1 h₄
        obtain ⟨hm, hl, hs⟩ := stops_of_unread
          (fun k ↦ ∀ power ∈ k.bindingPower?, power.left < least) h₁ h₃ hp
        exact ⟨hm, hl ▸ .noOperator hs, hf⟩
      cases hp : t.kind.bindingPower? with
      | none =>
        simp only [hp] at h₂
        exact stop (by simp [hp]) h₂
      | some power =>
        simp only [hp] at h₂
        by_cases hlt : power.left < least
        · simp only [if_pos hlt] at h₂
          exact stop (by simpa [hp] using hlt) h₂
        · simp only [if_neg hlt] at h₂
          obtain ⟨right, p₂, h₃, h₄⟩ := bind_eq_ok.1 h₂
          obtain ⟨joined, p₃, h₅, h₆⟩ := bind_eq_ok.1 h₄
          obtain ⟨hm₂, hr₁, hf₁⟩ := hexpr _ p₁ right p₂ h₃
          obtain ⟨rfl, hj⟩ := join_ok h₅
          have hm := hm₁.trans hm₂
          have hjoined := (hf.max ((hm₁.fits_iff _).1 hf₁)).mono (Expr.need_of_joins hj)
          obtain ⟨hm₃, hr₂, hf₂⟩ := ih (hm.fits hjoined) _ _ h₆
          rw [hm₁.acrossLines] at hr₁
          rw [hm.acrossLines] at hr₂
          exact ⟨hm.trans hm₃, .operator hn hp (Nat.le_of_not_lt hlt) hr₁ hj hr₂,
            (hm.fits_iff _).1 hf₂⟩

end

/-- Every expression that the parser accepts follows the grammar. -/
theorem expression_accepts (fuel least : Nat) :
    Accepts (expression fuel least) (.expression least) p := by
  induction fuel generalizing least p with
  | zero => exact fun _ _ h ↦ by cases h
  | succ fuel ih =>
    intro e q h
    obtain ⟨p₁, q₁, h₁, hb, hp, hq, hm, hone, hfits⟩ := nested_ok h
    obtain ⟨left, p₂, h₂, h₃⟩ := bind_eq_ok.1 h₁
    obtain ⟨hm₁, hr₁, hf₁⟩ := operand_accepts (fun least p ↦ ih least) (fuel + 1) hone left p₂ h₂
    obtain ⟨hm₂, hr₂, hf₂⟩ :=
      operators_accepts (fun least p ↦ ih least) (fuel + 1) least (hm₁.fits hf₁) e q₁ h₃
    rw [hm₁.acrossLines] at hr₂
    rw [← hp, ← hb]
    exact ⟨hm (hm₁.trans hm₂), hq ▸ .expression hr₁ hr₂, hfits _ ((hm₁.fits_iff _).1 hf₂)⟩

end Linewise.Parser.Action
