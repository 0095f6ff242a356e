import Linewise.Proofs.Parser.Soundness

namespace Linewise.Parser.Action

open Upcoming

variable {p q : Parser}

theorem parameterType_ok {type : Option Identifier} (h : parameterType p = .ok type q) :
    Moves p q ∧ ReadsType .colon type p.upcoming q.upcoming := by
  obtain ⟨r, p₁, h₁, h₂⟩ := bind_eq_ok.1 h
  cases r with
  | none =>
    obtain ⟨rfl, rfl⟩ := pure_eq_ok.1 h₂
    obtain ⟨hm, hl, hs⟩ := matchToken_none h₁
    exact ⟨hm, hl ▸ .absent hs⟩
  | some colon =>
    obtain ⟨hm₁, hn₁, hk⟩ := matchToken_some h₁
    obtain ⟨t, p₂, h₃, h₄⟩ := bind_eq_ok.1 h₂
    obtain ⟨hm₂, hn₂⟩ := expectToken_ok h₃
    cases hi : t.identifier? with
    | none =>
      simp only [hi] at h₄
      exact absurd h₄ failExpected_ne_ok
    | some n =>
      simp only [hi] at h₄
      obtain ⟨rfl, rfl⟩ := pure_eq_ok.1 h₄
      rw [← Token.token_of_identifier? hi] at hn₂
      exact ⟨hm₁.trans hm₂, .given hn₁ hk hn₂⟩

theorem parameters_ok {fuel : Nat} {slot : ParameterSlot} {r : List Parameter × Token}
    (h : parameters fuel slot p = .ok r q) :
    Moves p q ∧ ReadsParameters slot r.1 r.2 p.upcoming q.upcoming := by
  induction fuel generalizing p slot r with
  | zero => cases h
  | succ fuel ih =>
    obtain ⟨t, p₁, h₁, h₂⟩ := bind_eq_ok.1 h
    obtain ⟨hm₁, hn⟩ := expectToken_ok h₁
    have close (hk : t.kind = .closeParen) (hs : slot ≠ .name)
        (hc : (pure ([], t) : Action _) p₁ = .ok r q) :
        Moves p q ∧ ReadsParameters slot r.1 r.2 p.upcoming q.upcoming := by
      obtain ⟨rfl, rfl⟩ := pure_eq_ok.1 hc
      exact ⟨hm₁, .close hn hk hs⟩
    have parameter {text : String} (hk : t.kind = .identifier text) (hs : slot ≠ .commaOrClose)
        (hc : parametersFrom fuel ⟨text, t.span⟩ p₁ = .ok r q) :
        Moves p q ∧ ReadsParameters slot r.1 r.2 p.upcoming q.upcoming := by
      obtain ⟨type, p₂, h₃, h₄⟩ := bind_eq_ok.1 hc
      obtain ⟨⟨more, closeParen⟩, p₃, h₅, h₆⟩ := bind_eq_ok.1 h₄
      obtain ⟨rfl, rfl⟩ := pure_eq_ok.1 h₆
      obtain ⟨hm₂, ht⟩ := parameterType_ok h₃
      obtain ⟨hm₃, hr⟩ := ih h₅
      have hi : t = Identifier.token ⟨text, t.span⟩ := by rw [Identifier.token, ← hk]
      rw [hi] at hn
      exact ⟨(hm₁.trans hm₂).trans hm₃, .parameter hs hn ht hr⟩
    cases hk : t.kind with
    | closeParen =>
      cases slot with
      | name =>
        simp only [hk] at h₂
        exact absurd h₂ failExpected_ne_ok
      | nameOrClose =>
        simp only [hk] at h₂
        exact close hk (by decide) h₂
      | commaOrClose =>
        simp only [hk] at h₂
        exact close hk (by decide) h₂
    | comma =>
      cases slot with
      | commaOrClose =>
        simp only [hk] at h₂
        obtain ⟨hm₂, hr⟩ := ih h₂
        exact ⟨hm₁.trans hm₂, .comma hn hk hr⟩
      | name =>
        simp only [hk] at h₂
        exact absurd h₂ fail_ne_ok
      | nameOrClose =>
        simp only [hk] at h₂
        exact absurd h₂ fail_ne_ok
    | identifier text =>
      cases slot with
      | commaOrClose =>
        simp only [hk] at h₂
        exact absurd h₂ failExpected_ne_ok
      | name =>
        simp only [hk] at h₂
        exact parameter hk (by decide) h₂
      | nameOrClose =>
        simp only [hk] at h₂
        exact parameter hk (by decide) h₂
    | _ =>
      cases slot <;>
        · simp only [hk] at h₂
          exact absurd h₂ failExpected_ne_ok

theorem functionName_ok {n : Identifier} (h : functionName p = .ok n q) :
    Moves p q ∧ Next true p.upcoming n.token q.upcoming := by
  obtain ⟨t, p₁, h₁, h₂⟩ := bind_eq_ok.1 h
  obtain ⟨hm, hn⟩ := expectToken_ok h₁
  cases hk : t.kind with
  | identifier text =>
    simp only [hk] at h₂
    obtain ⟨rfl, rfl⟩ := pure_eq_ok.1 h₂
    refine ⟨hm, ?_⟩
    rw [Identifier.token, ← hk]
    exact hn
  | keyword word =>
    simp only [hk] at h₂
    exact absurd h₂ fail_ne_ok
  | _ =>
    simp only [hk] at h₂
    exact absurd h₂ failExpected_ne_ok

theorem returnType_ok {r : Option Identifier × Token} (h : returnType p = .ok r q) :
    Moves p q ∧ ∃ ys, ReadsType .arrow r.1 p.upcoming ys ∧ Next true ys r.2 q.upcoming := by
  obtain ⟨t, p₁, h₁, h₂⟩ := bind_eq_ok.1 h
  obtain ⟨hm₁, hn₁⟩ := expectToken_ok h₁
  by_cases hk : t.kind = .arrow
  · simp only [if_pos hk] at h₂
    obtain ⟨type, p₂, h₃, h₄⟩ := bind_eq_ok.1 h₂
    obtain ⟨hm₂, hn₂⟩ := expectToken_ok h₃
    cases hi : type.identifier? with
    | none =>
      simp only [hi] at h₄
      exact absurd h₄ failExpected_ne_ok
    | some n =>
      simp only [hi] at h₄
      obtain ⟨bodyOpen, p₃, h₅, h₆⟩ := bind_eq_ok.1 h₄
      obtain ⟨rfl, rfl⟩ := pure_eq_ok.1 h₆
      obtain ⟨hm₃, hn₃⟩ := expectToken_ok h₅
      rw [← Token.token_of_identifier? hi] at hn₂
      exact ⟨(hm₁.trans hm₂).trans hm₃, p₂.upcoming, .given hn₁ hk hn₂, hn₃⟩
  · simp only [if_neg hk] at h₂
    obtain ⟨rfl, rfl⟩ := pure_eq_ok.1 h₂
    refine ⟨hm₁, looked true p.upcoming, .absent ?_, hn₁.looked⟩
    exact hn₁.stops hk

theorem functionHeader_ok {fuel : Nat} {keyword : Token} {f : FunctionHeader}
    (h : functionHeader fuel keyword p = .ok f q) :
    Moves p q ∧ ∀ xs, Next true xs keyword p.upcoming → keyword.kind = .keyword "fn" →
      ReadsConstruct xs (.function f) q.upcoming := by
  obtain ⟨name, p₁, h₁, h₂⟩ := bind_eq_ok.1 h
  obtain ⟨openParen, p₂, h₃, h₄⟩ := bind_eq_ok.1 h₂
  obtain ⟨hm₁, hn₁⟩ := functionName_ok h₁
  obtain ⟨hm₂, hn₂⟩ := expectToken_ok h₃
  by_cases ho : openParen.kind = .openParen
  · simp only [ho, ne_eq, not_true_eq_false, if_false] at h₄
    obtain ⟨⟨params, closeParen⟩, p₃, h₅, h₆⟩ := bind_eq_ok.1 h₄
    obtain ⟨⟨type, bodyOpen⟩, p₄, h₇, h₈⟩ := bind_eq_ok.1 h₆
    obtain ⟨hm₃, hr₃⟩ := parameters_ok h₅
    obtain ⟨hm₄, ys, hr₄, hn₄⟩ := returnType_ok h₇
    by_cases hb : bodyOpen.kind = .openCurlyBrace
    · simp only [hb, not_true_eq_false, if_false] at h₈
      obtain ⟨rfl, rfl⟩ := pure_eq_ok.1 h₈
      exact ⟨((hm₁.trans hm₂).trans hm₃).trans hm₄, fun xs hn hk ↦
        .function hn hk hn₁ hn₂ ho hr₃ hr₄ hn₄ hb⟩
    · simp only [hb, not_false_eq_true, if_true] at h₈
      obtain ⟨_, _, h₉, -⟩ := bind_eq_ok.1 h₈
      exact absurd h₉ failExpected_ne_ok
  · simp only [ne_eq, ho, not_false_eq_true, if_true] at h₄
    obtain ⟨_, _, h₅, -⟩ := bind_eq_ok.1 h₄
    exact absurd h₅ failExpected_ne_ok

theorem expressionStatement_ok {fuel : Nat} {e : Expr} (hb : p.acrossLines = false)
    (h : expressionStatement fuel p = .ok e q) :
    Moves p q ∧ Reads false (.expression 0 e) p.upcoming q.upcoming ∧
      Stops false (· = .closeCurlyBrace) q.upcoming ∧ p.Fits (1 + e.need) := by
  obtain ⟨e', p₁, h₁, h₂⟩ := bind_eq_ok.1 h
  obtain ⟨_, p₂, h₃, h₄⟩ := bind_eq_ok.1 h₂
  obtain ⟨rfl, rfl⟩ := pure_eq_ok.1 h₄
  obtain ⟨hm₁, hr, hf⟩ := expression_accepts fuel 0 e' p₁ h₁
  obtain ⟨hm₂, hu, hs⟩ := expectStatementEnd_ok h₃
  rw [hb] at hr
  rw [hu]
  exact ⟨hm₁.trans hm₂, hr, hs, hf⟩

def FitsConstruct (p : Parser) (c : Construct) : Prop := ∀ e ∈ c.expression?, p.Fits (1 + e.need)

theorem returnStatement_ok {fuel : Nat} {keyword : Token} {c : Construct}
    (hb : p.acrossLines = false) (h : returnStatement fuel keyword p = .ok c q) :
    Moves p q ∧ FitsConstruct p c ∧ ∀ xs, Next true xs keyword p.upcoming →
      keyword.kind = .keyword "return" → ReadsConstruct xs c q.upcoming := by
  obtain ⟨r, p₁, h₁, h₂⟩ := bind_eq_ok.1 h
  cases r with
  | none =>
    obtain ⟨_, p₂, h₃, h₄⟩ := bind_eq_ok.1 h₂
    obtain ⟨rfl, rfl⟩ := pure_eq_ok.1 h₄
    obtain ⟨hm₁, hu₁, -⟩ := advance_none h₁
    obtain ⟨hm₂, hu₂, hs⟩ := expectStatementEnd_ok h₃
    rw [hu₁] at hs
    rw [hu₂, hu₁]
    exact ⟨hm₁.trans hm₂, fun e he ↦ (by cases he), fun xs hn hk ↦ .returnNothing hn hk hs⟩
  | some t =>
    obtain ⟨_, p₂, h₃, h₄⟩ := bind_eq_ok.1 h₂
    obtain ⟨p₂', hu, hm₁, hl⟩ := unread_of_advance h₁
    obtain rfl : p₂' = p₂ := by
      rw [hu] at h₃
      cases h₃
      rfl
    rw [looked_false] at hl
    by_cases hk : t.kind = .closeCurlyBrace
    · simp only [if_pos hk] at h₄
      obtain ⟨_, p₃, h₅, h₆⟩ := bind_eq_ok.1 h₄
      obtain ⟨rfl, rfl⟩ := pure_eq_ok.1 h₆
      obtain ⟨hm₂, hu₂, hs⟩ := expectStatementEnd_ok h₅
      rw [hl] at hs
      rw [hu₂, hl]
      exact ⟨hm₁.trans hm₂, fun e he ↦ (by cases he), fun xs hn hw ↦ .returnNothing hn hw hs⟩
    · simp only [if_neg hk] at h₄
      obtain ⟨e, p₃, h₅, h₆⟩ := bind_eq_ok.1 h₄
      obtain ⟨rfl, rfl⟩ := pure_eq_ok.1 h₆
      obtain ⟨-, hnext, -⟩ := advance_some h₁
      obtain ⟨hm₂, hr, hs, hf⟩ := expressionStatement_ok (hm₁.acrossLines.trans hb) h₅
      rw [hl] at hr
      refine ⟨hm₁.trans hm₂, fun e' he ↦ ?_, fun xs hn hw ↦ .returnValue hn hw hnext hk hr hs⟩
      cases he
      exact (hm₁.fits_iff _).1 hf

theorem keywordConstruct_ok {fuel : Nat} {keyword : Token} {word : String} {c : Construct}
    {xs : List Upcoming} (hb : p.acrossLines = false) (hn : Next true xs keyword p.upcoming)
    (hk : keyword.kind = .keyword word) (h : keywordConstruct fuel keyword word p = .ok c q) :
    Moves p q ∧ FitsConstruct p c ∧ ReadsConstruct xs c q.upcoming := by
  unfold keywordConstruct at h
  by_cases hf : word = "fn"
  · simp only [if_pos hf] at h
    obtain ⟨f, p₁, h₁, h₂⟩ := bind_eq_ok.1 h
    obtain ⟨rfl, rfl⟩ := pure_eq_ok.1 h₂
    obtain ⟨hm, hr⟩ := functionHeader_ok h₁
    exact ⟨hm, fun e he ↦ (by cases he), hr xs hn (hf ▸ hk)⟩
  simp only [if_neg hf] at h
  by_cases hr : word = "return"
  · simp only [if_pos hr] at h
    obtain ⟨hm, hfits, hc⟩ := returnStatement_ok hb h
    exact ⟨hm, hfits, hc xs hn (hr ▸ hk)⟩
  simp only [if_neg hr] at h
  by_cases hp : word = "pass"
  · simp only [if_pos hp] at h
    obtain ⟨_, p₁, h₁, h₂⟩ := bind_eq_ok.1 h
    obtain ⟨rfl, rfl⟩ := pure_eq_ok.1 h₂
    obtain ⟨hm, hu, hs⟩ := expectStatementEnd_ok h₁
    exact ⟨hm, fun e he ↦ (by cases he), hu ▸ .pass hn (hp ▸ hk) hs⟩
  simp only [if_neg hp] at h
  by_cases hw : word = "break"
  · simp only [if_pos hw] at h
    obtain ⟨_, p₁, h₁, h₂⟩ := bind_eq_ok.1 h
    obtain ⟨rfl, rfl⟩ := pure_eq_ok.1 h₂
    obtain ⟨hm, hu, hs⟩ := expectStatementEnd_ok h₁
    exact ⟨hm, fun e he ↦ (by cases he), hu ▸ .break hn (hw ▸ hk) hs⟩
  · simp only [if_neg hw] at h
    exact absurd h fail_ne_ok

theorem construct_ok {fuel : Nat} {token : Token} {c : Construct} {p₀ : Parser}
    (hb : p₀.acrossLines = false) (ha : advance true p₀ = .ok (some token) p)
    (h : construct fuel token p = .ok c q) :
    Moves p₀ q ∧ FitsConstruct p₀ c ∧ ReadsConstruct p₀.upcoming c q.upcoming := by
  obtain ⟨hm₀, hn, -⟩ := advance_some ha
  have expression (hs : (if startsExpression token.kind then (do
          unread
          return .expression (← expressionStatement fuel))
        else fail (.unexpected token.kind.describe) (some token.span) : Action Construct) p =
          .ok c q) : Moves p₀ q ∧ FitsConstruct p₀ c ∧ ReadsConstruct p₀.upcoming c q.upcoming := by
    by_cases hk : startsExpression token.kind = true
    · simp only [if_pos hk] at hs
      obtain ⟨_, p₁, h₁, h₂⟩ := bind_eq_ok.1 hs
      obtain ⟨e, p₂, h₃, h₄⟩ := bind_eq_ok.1 h₂
      obtain ⟨rfl, rfl⟩ := pure_eq_ok.1 h₄
      obtain ⟨p₁', hu, hm₁, hl⟩ := unread_of_advance ha
      obtain rfl : p₁' = p₁ := by
        rw [hu] at h₁
        cases h₁
        rfl
      obtain ⟨hm₂, hr, hstop, hf⟩ := expressionStatement_ok (hm₁.acrossLines.trans hb) h₃
      rw [hl, hn.looked_eq] at hr
      refine ⟨hm₁.trans hm₂, fun e' he ↦ ?_, .expression hn hk hr hstop⟩
      cases he
      exact (hm₁.fits_iff _).1 hf
    · simp only [if_neg hk] at hs
      exact absurd hs fail_ne_ok
  cases hk : token.kind with
  | keyword word =>
    simp only [construct, hk] at h
    obtain ⟨hm, hf, hr⟩ := keywordConstruct_ok (hm₀.acrossLines.trans hb) hn hk h
    exact ⟨hm₀.trans hm, fun e he ↦ (hm₀.fits_iff _).1 (hf e he), hr⟩
  | openCurlyBrace =>
    simp only [construct, hk] at h
    obtain ⟨rfl, rfl⟩ := pure_eq_ok.1 h
    exact ⟨hm₀, fun e he ↦ (by cases he), .openBrace hn hk⟩
  | closeCurlyBrace =>
    simp only [construct, hk] at h
    obtain ⟨rfl, rfl⟩ := pure_eq_ok.1 h
    exact ⟨hm₀, fun e he ↦ (by cases he), .closeBrace hn hk⟩
  | _ =>
    refine expression ?_
    simp only [construct, hk] at h ⊢
    exact h

theorem next_false {fuel : Nat} (h : next fuel p = .ok false q) :
    Moves (begun p) q ∧ p.upcoming = [] ∧ q.upcoming = [] := by
  obtain ⟨_, p₀, h₀, h₁⟩ := bind_eq_ok.1 h
  cases h₀
  obtain ⟨r, p₁, h₂, h₃⟩ := bind_eq_ok.1 h₁
  cases r with
  | none =>
    obtain ⟨-, rfl⟩ := pure_eq_ok.1 h₃
    obtain ⟨hm, hu, hn⟩ := advance_none h₂
    have he : (begun p).upcoming = [] := by
      change ∀ i ∈ (begun p).upcoming.head?, ¬ i.InReach true at hn
      cases hc : (begun p).upcoming with
      | nil => rfl
      | cons i xs => exact absurd (inReach_true i) (hn i (by rw [hc]; rfl))
    exact ⟨hm, upcoming_begun p ▸ he, hu.trans he⟩
  | some token =>
    obtain ⟨c, p₂, h₄, h₅⟩ := bind_eq_ok.1 h₃
    obtain ⟨_, p₃, h₆, h₇⟩ := bind_eq_ok.1 h₅
    cases (pure_eq_ok.1 h₇).1

theorem next_true {fuel : Nat} (h : next fuel p = .ok true q) :
    ∃ c r, Moves (begun p) r ∧ q = { r with result := some c } ∧ FitsConstruct p c ∧
      ReadsConstruct p.upcoming c q.upcoming := by
  obtain ⟨_, p₀, h₀, h₁⟩ := bind_eq_ok.1 h
  cases h₀
  obtain ⟨r, p₁, h₂, h₃⟩ := bind_eq_ok.1 h₁
  cases r with
  | none => cases (pure_eq_ok.1 h₃).1
  | some token =>
    obtain ⟨c, r, h₄, h₅⟩ := bind_eq_ok.1 h₃
    obtain ⟨_, p₃, h₆, h₇⟩ := bind_eq_ok.1 h₅
    obtain ⟨-, rfl⟩ := pure_eq_ok.1 h₇
    cases h₆
    obtain ⟨hm, hf, hr⟩ := construct_ok rfl h₂ h₄
    exact ⟨c, r, hm, rfl, hf, upcoming_begun p ▸ hr⟩

theorem constructs_ok {fuel : Nat} {cs : List Construct} (h : constructs fuel p = .ok cs q) :
    ReadsProgram p.upcoming cs ∧ ∀ c ∈ cs, FitsConstruct p c := by
  induction fuel generalizing p cs with
  | zero => cases h
  | succ fuel ih =>
    obtain ⟨found, p₁, h₁, h₂⟩ := bind_eq_ok.1 h
    cases found with
    | false =>
      obtain ⟨rfl, -⟩ := pure_eq_ok.1 h₂
      rw [(next_false h₁).2.1]
      exact ⟨.done, by simp⟩
    | true =>
      obtain ⟨result, p₂, h₃, h₄⟩ := bind_eq_ok.1 h₂
      obtain ⟨more, p₃, h₅, h₆⟩ := bind_eq_ok.1 h₄
      obtain ⟨rfl, rfl⟩ := pure_eq_ok.1 h₆
      obtain ⟨c, r, hm, rfl, hf, hr⟩ := next_true h₁
      cases h₃
      obtain ⟨hmore, hfits⟩ := ih h₅
      refine ⟨.construct hr hmore, List.forall_mem_cons.2 ⟨hf, fun c hc e he ↦ ?_⟩⟩
      exact (hm.fits_iff _).1 (hfits c hc e he)

end Linewise.Parser.Action

namespace Linewise

/-- Every program that is parsed follows the grammar, and no expression in it is nested too
deeply. -/
theorem readsProgram_of_parse {source : String} {program : Program}
    (h : parse source = .ok program) :
    ReadsProgram (Parser.ofSource source).upcoming program.constructs ∧
      ∀ c ∈ program.constructs, ∀ e ∈ c.expression?, e.need ≤ Parser.maxNesting := by
  unfold parse Parser.program at h
  split at h
  · next cs q hc =>
    cases h
    obtain ⟨hr, hfits⟩ := Parser.Action.constructs_ok hc
    refine ⟨hr, fun c hcm e he ↦ ?_⟩
    have := hfits c hcm e he Parser.maxNesting rfl
    simp only [Parser.ofSource, Parser.ofLexer] at this
    omega
  · cases h

end Linewise
