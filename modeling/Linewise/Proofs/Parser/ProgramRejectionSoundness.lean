import Linewise.Proofs.Parser.ProgramCompleteness
import Linewise.Proofs.Parser.RejectionSoundness

namespace Linewise.Parser

open Upcoming

variable {α β : Type} {p q : Parser} {limit room : Nat}

namespace Action

variable {R : SyntaxError → Prop}

theorem requireName_refuses {what construct : String} {xs : List Upcoming} {t : Token} {β : Type}
    {f : Identifier → Action β} (hn : Next true xs t p.upcoming)
    (hf : ∀ n : Identifier, n.token = t → Refuses (f n) p R)
    (hR : ∀ e, HaltsIn construct (Token.requireName what) xs e → R e) :
    Refuses (match t.identifier? with
      | some n => f n
      | none => failExpected what t) p R := by
  cases hi : t.identifier? with
  | none => exact .failExpected (hR _ (.token hn (by simp [Token.requireName, hi])))
  | some n => exact hf n (Token.token_of_identifier? hi)

theorem parameterType_refuses :
    Refuses parameterType p (RejectsType .colon "parameters" "parameter type" p.upcoming) := by
  refine ((matchToken_refuses .colon true).imp fun e he ↦ .mark he).bind fun r p₁ h₁ ↦ ?_
  cases r with
  | none => exact ⟨(matchToken_none h₁).1.contents, .pure _⟩
  | some colon =>
    obtain ⟨hm, hn, hk⟩ := matchToken_some h₁
    refine ⟨hm.contents, ?_⟩
    refine ((expectToken_refuses _ (Token.requireName "parameter type")).imp fun e he ↦
      .name hn hk he).bind fun t p₂ h₂ ↦ ?_
    obtain ⟨hm₂, hn₂⟩ := expectToken_ok h₂
    exact ⟨hm₂.contents, requireName_refuses hn₂ (fun n _ ↦ .pure _) fun e he ↦ .name hn hk he⟩

theorem parameters_refuses (fuel : Nat) (slot : ParameterSlot) :
    Refuses (parameters fuel slot) p (RejectsParameters slot p.upcoming) := by
  induction fuel generalizing p slot with
  | zero => exact .internal
  | succ fuel ih =>
    refine ((expectToken_refuses _ (Token.requireSlot slot)).imp fun e he ↦ .slot he).bind
      fun t p₁ h₁ ↦ ?_
    obtain ⟨hm₁, hn⟩ := expectToken_ok h₁
    refine ⟨hm₁.contents, ?_⟩
    have wrong {e : GrammarError} (he : e ∈ t.requireSlot slot) :
        RejectsParameters slot p.upcoming (.grammar e) := .slot (.token hn he)
    have parameter {text : String} (hk : t.kind = .identifier text) (hs : slot ≠ .commaOrClose) :
        Refuses (parametersFrom fuel ⟨text, t.span⟩) p₁ (RejectsParameters slot p.upcoming) := by
      have hi : t = Identifier.token ⟨text, t.span⟩ := by rw [Identifier.token, ← hk]
      rw [hi] at hn
      refine (parameterType_refuses.imp fun e he ↦ .type hs hn he).bind fun type p₂ h₂ ↦ ?_
      obtain ⟨hm₂, ht⟩ := parameterType_ok h₂
      refine ⟨hm₂.contents, ?_⟩
      refine ((ih .commaOrClose).imp fun e he ↦ .parameter hs hn ht he).bind fun r p₃ h₃ ↦ ?_
      exact ⟨(parameters_ok h₃).1.contents, .pure _⟩
    cases hk : t.kind with
    | closeParen =>
      cases slot with
      | name => exact .failExpected (wrong (by simp [Token.requireSlot, hk]))
      | nameOrClose | commaOrClose => exact .pure _
    | comma =>
      cases slot with
      | commaOrClose => exact (ih .name).imp fun e he ↦ .comma hn hk he
      | name | nameOrClose =>
        exact .fail (by simp [GrammarCause.code]) (wrong (by simp [Token.requireSlot, hk]))
    | identifier text =>
      cases slot with
      | commaOrClose => exact .failExpected (wrong (by simp [Token.requireSlot, hk]))
      | name | nameOrClose => exact parameter hk (by decide)
    | _ =>
      cases slot <;> exact .failExpected (wrong (by simp [Token.requireSlot, hk]))

theorem functionName_refuses :
    Refuses functionName p
      (HaltsIn "function declaration" Token.requireFunctionName p.upcoming) := by
  refine (expectToken_refuses _ _).bind fun t p₁ h₁ ↦ ?_
  obtain ⟨hm, hn⟩ := expectToken_ok h₁
  refine ⟨hm.contents, ?_⟩
  cases hk : t.kind with
  | identifier text => exact .pure _
  | keyword word =>
    exact .fail (by simp [GrammarCause.code]) (.token hn (by simp [Token.requireFunctionName, hk]))
  | _ => exact .failExpected (.token hn (by simp [Token.requireFunctionName, hk]))

theorem returnType_refuses (wrong : Token → Option GrammarError) :
    Refuses returnType p fun e ↦
      RejectsType .arrow "function declaration" "return type after '->'" p.upcoming e ∨
        ∃ type ys, ReadsType .arrow type p.upcoming ys ∧ HaltsIn "function declaration" wrong ys e := by
  have first : Refuses (expectToken "function declaration") p fun e ↦
      RejectsType .arrow "function declaration" "return type after '->'" p.upcoming e ∨
        ∃ type ys, ReadsType .arrow type p.upcoming ys ∧ HaltsIn "function declaration" wrong ys e := by
    refine (expectToken_refuses _ fun _ ↦ none).imp fun e he ↦ ?_
    generalize p.upcoming = xs at he
    cases he with
    | lexical reach => exact .inl (.mark (.lexical reach))
    | absent hn he =>
      refine .inr ⟨none, looked true xs, .absent fun i hi reach ↦ absurd reach (hn i hi), ?_⟩
      rw [looked_of_not_inReach hn]
      exact .absent hn he
    | token _ he => cases he
  refine first.bind fun t p₁ h₁ ↦ ?_
  obtain ⟨hm₁, hn₁⟩ := expectToken_ok h₁
  refine ⟨hm₁.contents, ?_⟩
  by_cases hk : t.kind = .arrow
  · simp only [if_pos hk]
    refine ((expectToken_refuses _ (Token.requireName "return type after '->'")).imp fun e he ↦
      .inl (.name hn₁ hk he)).bind fun type p₂ h₂ ↦ ?_
    obtain ⟨hm₂, hn₂⟩ := expectToken_ok h₂
    refine ⟨hm₂.contents, ?_⟩
    cases hi : type.identifier? with
    | none =>
      exact .failExpected (.inl (.name hn₁ hk (.token hn₂ (by simp [Token.requireName, hi]))))
    | some n =>
      rw [← Token.token_of_identifier? hi] at hn₂
      refine ((expectToken_refuses _ wrong).imp fun e he ↦
        .inr ⟨some n, p₂.upcoming, .given hn₁ hk hn₂, he⟩).bind fun bodyOpen p₃ h₃ ↦ ?_
      exact ⟨(expectToken_ok h₃).1.contents, .pure _⟩
  · simp only [if_neg hk]
    exact .pure _

theorem functionHeader_refuses (fuel : Nat) (keyword : Token) :
    Refuses (functionHeader fuel keyword) p (RejectsHeader p.upcoming) := by
  refine (functionName_refuses.imp fun e he ↦ .name he).bind fun name p₁ h₁ ↦ ?_
  obtain ⟨hm₁, hn₁⟩ := functionName_ok h₁
  refine ⟨hm₁.contents, ?_⟩
  refine ((expectToken_refuses _ (Token.require .openParen "'('")).imp fun e he ↦
    .openParen hn₁ he).bind fun openParen p₂ h₂ ↦ ?_
  obtain ⟨hm₂, hn₂⟩ := expectToken_ok h₂
  refine ⟨hm₂.contents, ?_⟩
  by_cases ho : openParen.kind = .openParen
  · simp only [ho, ne_eq, not_true_eq_false, if_false]
    refine ((parameters_refuses fuel .nameOrClose).imp fun e he ↦
      .parameters hn₁ hn₂ ho he).bind fun params p₃ h₃ ↦ ?_
    obtain ⟨hm₃, hr₃⟩ := parameters_ok h₃
    refine ⟨hm₃.contents, ?_⟩
    refine ((returnType_refuses
      (Token.require .openCurlyBrace "'\x7b' (as start of function body)")).imp fun e he ↦ ?_).bind
      fun type p₄ h₄ ↦ ?_
    · rcases he with he | ⟨type, ys, ht, he⟩
      · exact .returnType hn₁ hn₂ ho hr₃ he
      · exact .bodyOpen hn₁ hn₂ ho hr₃ ht he
    obtain ⟨hm₄, ys, hr₄, hn₄⟩ := returnType_ok h₄
    refine ⟨hm₄.contents, ?_⟩
    by_cases hb : type.2.kind = .openCurlyBrace
    · simp only [hb, not_true_eq_false, if_false]
      exact .pure _
    · simp only [hb, not_false_eq_true, if_true]
      refine Refuses.bind (.failExpected ?_) fun _ _ h ↦ absurd h failExpected_ne_ok
      exact .bodyOpen hn₁ hn₂ ho hr₃ hr₄ (.token hn₄ (if_neg hb))
  · simp only [ne_eq, ho, not_false_eq_true, if_true]
    refine Refuses.bind (.failExpected ?_) fun _ _ h ↦ absurd h failExpected_ne_ok
    exact .openParen hn₁ (.token hn₂ (if_neg ho))

theorem expressionStatement_refuses (fuel : Nat) (hb : p.acrossLines = false)
    (hroom : p.HasRoom limit limit) :
    Refuses (expressionStatement fuel) p (RejectsStatement limit p.last? p.upcoming) := by
  have he := expression_refuses fuel 0 hroom
  rw [hb] at he
  refine (he.imp fun e he ↦ .expression he).bind fun value p₁ h₁ ↦ ?_
  have hp := expression_accepts fuel 0 value p₁ h₁
  rw [hb] at hp
  refine ⟨hp.moves.contents, ?_⟩
  refine (expectStatementEnd_refuses.imp fun e he ↦
    .statementEnd (hroom.readsWithin hp) he).bind fun _ p₂ h₂ ↦ ?_
  exact ⟨(expectStatementEnd_ok h₂).1.contents, .pure _⟩

theorem expectStatementEnd_refuses_none (h : Stops false (· = .closeCurlyBrace) p.upcoming) :
    Refuses expectStatementEnd p R := by
  obtain ⟨q, hq, -⟩ := expectStatementEnd_gives h
  intro e r hr
  rw [hq] at hr
  cases hr

theorem returnStatement_refuses (fuel : Nat) {keyword : Token} {xs : List Upcoming}
    (hb : p.acrossLines = false) (hroom : p.HasRoom limit limit) (hlast : p.last? = some keyword)
    (hn : Next true xs keyword p.upcoming) (hk : keyword.kind = .keyword "return") :
    Refuses (returnStatement fuel keyword) p (RejectsConstruct limit xs) := by
  have nothing {q : Parser} (hs : Stops false (· = .closeCurlyBrace) q.upcoming) :
      Refuses (do expectStatementEnd; return .returnStatement keyword none : Action Construct) q
        (RejectsConstruct limit xs) :=
    (expectStatementEnd_refuses_none hs).bind fun _ _ h ↦
      ⟨(expectStatementEnd_ok h).1.contents, .pure _⟩
  refine ((advance_refuses false none fun _ ↦ none).imp fun e he ↦ .returned hn hk he).bind
    fun r p₁ h₁ ↦ ?_
  cases r with
  | none =>
    obtain ⟨hm₁, hu₁, hs₁⟩ := advance_none h₁
    refine ⟨hm₁.contents, nothing ?_⟩
    rw [hu₁]
    exact fun i hi reach ↦ absurd reach (hs₁ i hi)
  | some t =>
    obtain ⟨hm₁, hn₁, -⟩ := advance_some h₁
    refine ⟨hm₁.contents, unread_refuses.bind fun _ p₂ h₂ ↦ ?_⟩
    obtain ⟨p₂', hu, hm, hl⟩ := unread_of_advance h₁
    obtain rfl : p₂' = p₂ := by
      rw [hu] at h₂
      cases h₂
      rfl
    refine ⟨hm.contents.trans hm₁.contents.symm, ?_⟩
    by_cases hc : t.kind = .closeCurlyBrace
    · simp only [if_pos hc]
      refine nothing ?_
      rw [hl, looked_false]
      exact hn₁.stops hc
    · simp only [if_neg hc]
      have hvalue := expressionStatement_refuses fuel (hm.acrossLines.trans hb) (hroom.moves hm)
      rw [last?_eq hm hl, hl, looked_false, hlast] at hvalue
      refine (hvalue.imp fun e he ↦ .returnValue hn hk hn₁ hc he).bind fun value p₃ h₃ ↦ ?_
      exact ⟨(expressionStatement_ok (hm.acrossLines.trans hb) h₃).1.contents, .pure _⟩

theorem keywordConstruct_refuses (fuel : Nat) {keyword : Token} {word : String} {xs : List Upcoming}
    (hb : p.acrossLines = false) (hroom : p.HasRoom limit limit) (hlast : p.last? = some keyword)
    (hn : Next true xs keyword p.upcoming) (hk : keyword.kind = .keyword word) :
    Refuses (keywordConstruct fuel keyword word) p (RejectsConstruct limit xs) := by
  have single {w : String} {c : Construct} (hw : keyword.kind = .keyword w)
      (h : w = "pass" ∨ w = "break") :
      Refuses (do expectStatementEnd; return c : Action Construct) p (RejectsConstruct limit xs) := by
    have hk : keyword.kind = .keyword "pass" ∨ keyword.kind = .keyword "break" := by
      rcases h with rfl | rfl
      · exact .inl hw
      · exact .inr hw
    refine (expectStatementEnd_refuses.imp fun e he ↦ .word hn hk he).bind fun _ p₁ h₁ ↦ ?_
    exact ⟨(expectStatementEnd_ok h₁).1.contents, .pure _⟩
  unfold keywordConstruct
  by_cases hf : word = "fn"
  · rw [if_pos hf]
    refine ((functionHeader_refuses fuel keyword).imp fun e he ↦ .function hn (hf ▸ hk) he).bind
      fun f p₁ h₁ ↦ ?_
    exact ⟨(functionHeader_ok h₁).1.contents, .pure _⟩
  rw [if_neg hf]
  by_cases hr : word = "return"
  · rw [if_pos hr]
    exact returnStatement_refuses fuel hb hroom hlast hn (hr ▸ hk)
  rw [if_neg hr]
  by_cases hp : word = "pass"
  · rw [if_pos hp]
    exact single hk (.inl hp)
  rw [if_neg hp]
  by_cases hw : word = "break"
  · rw [if_pos hw]
    exact single hk (.inr hw)
  · rw [if_neg hw]
    refine .fail (by simp [GrammarCause.code]) (.start (.token hn ?_))
    simp [Token.requireConstruct, hk, hf, hr, hp, hw]

theorem construct_refuses (fuel : Nat) {token : Token} {p₀ : Parser} (hb : p₀.acrossLines = false)
    (hroom : p₀.HasRoom limit limit) (hlast : p₀.last? = none)
    (ha : advance true p₀ = .ok (some token) p) :
    Refuses (construct fuel token) p (RejectsConstruct limit p₀.upcoming) := by
  obtain ⟨hm, hn, -⟩ := advance_some ha
  have expression (hs : token.requireConstruct =
      if startsExpression token.kind then none
      else some ⟨.unexpected token.kind.describe, some token.span⟩) :
      Refuses (if startsExpression token.kind then (do
          unread
          return .expression (← expressionStatement fuel))
        else fail (.unexpected token.kind.describe) (some token.span) : Action Construct) p
        (RejectsConstruct limit p₀.upcoming) := by
    by_cases hk : startsExpression token.kind = true
    · rw [if_pos hk]
      refine unread_refuses.bind fun _ p₁ h₁ ↦ ?_
      obtain ⟨p₁', hu, hm₁, hl⟩ := unread_of_advance ha
      obtain rfl : p₁' = p₁ := by
        rw [hu] at h₁
        cases h₁
        rfl
      refine ⟨hm₁.contents.trans hm.contents.symm, ?_⟩
      have hvalue := expressionStatement_refuses fuel (hm₁.acrossLines.trans hb) (hroom.moves hm₁)
      rw [last?_eq hm₁ hl, hl, hn.looked_eq, hlast] at hvalue
      refine (hvalue.imp fun e he ↦ .expression hn hk he).bind fun value p₂ h₂ ↦ ?_
      exact ⟨(expressionStatement_ok (hm₁.acrossLines.trans hb) h₂).1.contents, .pure _⟩
    · rw [if_neg hk] at hs ⊢
      exact .fail (by simp [GrammarCause.code]) (.start (.token hn hs))
  cases hk : token.kind with
  | keyword word =>
    simp only [construct, hk]
    exact keywordConstruct_refuses fuel (hm.acrossLines.trans hb) (hroom.moves hm)
      (last?_of_advance ha) hn hk
  | openCurlyBrace | closeCurlyBrace =>
    simp only [construct, hk]
    exact .pure _
  | _ =>
    have hexpression := expression (by simp only [Token.requireConstruct, hk])
    simp only [construct, hk] at hexpression ⊢
    exact hexpression

theorem next_refuses {fuel : Nat} (hroom : p.HasRoom limit limit) :
    Refuses (next fuel) (begun p) (RejectsConstruct limit p.upcoming) := by
  have hbegun : (begun p).HasRoom limit limit := ⟨hroom.nestingLimit, hroom.depth⟩
  rw [← upcoming_begun p]
  -- A construct that has begun begins anew as it is.
  refine Refuses.bind (fun _ _ h ↦ by cases h) fun _ p₀ h₀ ↦ ?_
  obtain rfl : begun p = p₀ := by
    cases h₀
    rfl
  refine ⟨rfl, ((advance_refuses true none _).imp fun e he ↦ .start he).bind fun r p₁ h₁ ↦ ?_⟩
  cases r with
  | none => exact ⟨(advance_none h₁).1.contents, .pure _⟩
  | some token =>
    refine ⟨(advance_some h₁).1.contents, ?_⟩
    have hc := construct_refuses fuel rfl hbegun rfl h₁
    intro e r h
    rcases bind_eq_error.1 h with h | ⟨c, p₂, -, h⟩
    · exact hc e r h
    · rcases bind_eq_error.1 h with h | ⟨_, _, -, h⟩ <;> cases h

theorem next_error {fuel : Nat} {e : SyntaxError} (hroom : p.HasRoom limit limit)
    (h : next fuel p = .error (.rejected e) q) : RejectsConstruct limit p.upcoming e ∧
      (e.code = .P0002 → p.upcoming.map (·.content) = q.tokens.toList.map .ok ∧ q.upcoming = []) := by
  obtain ⟨hR, hend⟩ := next_refuses hroom e q h
  refine ⟨hR, fun he ↦ ?_⟩
  obtain ⟨hc, hu⟩ := hend he
  have hbegun : (begun p).contents = p.upcoming.map (·.content) := by
    rw [contents, upcoming_begun]
    rfl
  rw [← hbegun, ← hc, contents, hu]
  simp

theorem constructs_error {fuel : Nat} {e : SyntaxError} (hroom : p.HasRoom limit limit)
    (h : constructs fuel p = .error (.rejected e) q) : RejectsProgram limit p.upcoming e := by
  induction fuel generalizing p with
  | zero => cases h
  | succ fuel ih =>
    rcases bind_eq_error.1 h with h | ⟨found, p₁, h₁, h⟩
    · exact .here (next_error hroom h).1
    · cases found with
      | false => cases h
      | true =>
        rcases bind_eq_error.1 h with h | ⟨result, p₂, h₂, h⟩
        · cases h
        · cases h₂
          obtain ⟨c, r, hm, rfl, hf, hr⟩ := next_true h₁
          rcases bind_eq_error.1 h with h | ⟨_, _, -, h⟩
          · have hrest := ih (p := { r with result := none })
              ⟨hm.nestingLimit.trans hroom.nestingLimit, hm.nestingDepth.symm ▸ hroom.depth⟩ h
            refine .later hr (fun value hv ↦ ?_) hrest
            have := (hroom.fits_iff _).1 (hf value hv)
            omega
          · cases h

end Action

end Linewise.Parser

namespace Linewise

open Linewise.Parser

theorem hasRoom_ofSource (source : String) : (Parser.ofSource source).HasRoom maxNesting maxNesting :=
  ⟨rfl, Nat.zero_add _⟩

/-- Every text that is rejected follows the grammar of rejected texts, with the error it is rejected
with. -/
theorem rejectsProgram_of_parse {source : String} {e : SyntaxError}
    (h : parse source = .error (.rejected e)) :
    RejectsProgram maxNesting (Parser.ofSource source).upcoming e := by
  unfold parse Parser.program at h
  split at h
  · cases h
  · next hc =>
    cases h
    exact Action.constructs_error (hasRoom_ofSource source) hc

end Linewise
