import Linewise.Proofs.Parser.ProgramRejectionSoundness
import Linewise.Proofs.Parser.RejectionCompleteness

namespace Linewise.Parser

open Upcoming

variable {α : Type} {p : Parser} {limit : Nat} {e : SyntaxError}

namespace Action

theorem requireName_fails {what : String} {t : Token} {g : GrammarError} (hg : g ∈ t.requireName what) :
    t.identifier? = none ∧ Fails (failExpected what t : Action α) p (.grammar g) := by
  cases hi : t.identifier? with
  | none =>
    simp only [Token.requireName, hi, Option.isSome_none, Bool.false_eq_true, if_false,
      Option.mem_def, Option.some.injEq] at hg
    rw [← hg]
    exact ⟨rfl, failExpected_fails⟩
  | some name => simp [Token.requireName, hi] at hg

theorem parameterType_fails (h : RejectsType .colon "parameters" "parameter type" p.upcoming e) :
    Fails parameterType p e := by
  generalize hp : p.upcoming = xs at h
  cases h with
  | mark h =>
    subst hp
    exact Fails.bind (matchToken_fails h)
  | name hn hk h =>
    subst hp
    refine Fails.of_gives (matchToken_gives hn hk) fun q _ hu ↦ ?_
    rw [← hu] at h
    refine expectToken_fails h fun t q g hg ↦ ?_
    obtain ⟨hi, hf⟩ := requireName_fails hg
    simp only [hi]
    exact hf

theorem parameters_fails {fuel : Nat} {slot : ParameterSlot} {xs : List Upcoming}
    (h : RejectsParameters slot xs e) (hp : p.upcoming = xs) (hf : xs.length < fuel) :
    Fails (parameters fuel slot) p e := by
  induction h generalizing p fuel with
  | @slot slot xs e h =>
    obtain ⟨n, rfl⟩ : ∃ n, fuel = n + 1 := ⟨fuel - 1, by omega⟩
    subst hp
    refine expectToken_fails h fun t q g hg ↦ ?_
    obtain ⟨kind, span⟩ := t
    cases kind with
    | closeParen | comma | identifier =>
      cases slot <;> cases hg
      all_goals exact ⟨q, rfl⟩
    | _ =>
      cases slot <;> cases hg <;> exact ⟨q, rfl⟩
  | @comma comma xs ys e hn hk _ ih =>
    obtain ⟨n, rfl⟩ : ∃ n, fuel = n + 1 := ⟨fuel - 1, by omega⟩
    have hl := hn.length
    subst hp
    refine Fails.of_gives (expectToken_gives hn) fun q _ hu ↦ ?_
    simp only [hk]
    exact ih hu (by omega)
  | @type slot name xs ys e hs hn h =>
    obtain ⟨n, rfl⟩ : ∃ n, fuel = n + 1 := ⟨fuel - 1, by omega⟩
    subst hp
    refine Fails.of_gives (expectToken_gives hn) fun q _ hu ↦ ?_
    rw [← hu] at h
    have hfrom : Fails (parametersFrom n name) q e := Fails.bind (parameterType_fails h)
    cases slot with
    | commaOrClose => exact absurd rfl hs
    | nameOrClose | name => exact hfrom
  | @parameter slot name type xs ys zs e hs hn ht _ ih =>
    obtain ⟨n, rfl⟩ : ∃ n, fuel = n + 1 := ⟨fuel - 1, by omega⟩
    have hl := hn.length
    have hl' := ht.length_le
    subst hp
    refine Fails.of_gives (expectToken_gives hn) fun q _ hu ↦ ?_
    rw [← hu] at ht
    have hfrom : Fails (parametersFrom n name) q e :=
      Fails.of_gives (parameterType_gives ht) fun q₁ _ hu₁ ↦ Fails.bind (ih hu₁ (by omega))
    cases slot with
    | commaOrClose => exact absurd rfl hs
    | nameOrClose | name => exact hfrom

theorem functionName_fails
    (h : HaltsIn "function declaration" Token.requireFunctionName p.upcoming e) :
    Fails functionName p e := by
  refine expectToken_fails h fun t q g hg ↦ ?_
  obtain ⟨kind, span⟩ := t
  cases kind <;> cases hg <;> exact ⟨q, rfl⟩

theorem returnType_fails
    (h : RejectsType .arrow "function declaration" "return type after '->'" p.upcoming e) :
    Fails returnType p e := by
  generalize hp : p.upcoming = xs at h
  cases h with
  | mark h =>
    have h' : HaltsIn "function declaration" (fun _ ↦ none) xs e := by
      cases h with
      | lexical reach => exact .lexical reach
      | absent _ hg => cases hg
      | token _ hg => cases hg
    subst hp
    exact expectToken_fails h' fun _ _ _ hg ↦ by cases hg
  | name hn hk h =>
    subst hp
    refine Fails.of_gives (expectToken_gives hn) fun q _ hu ↦ ?_
    rw [← hu] at h
    simp only [hk, if_true]
    refine expectToken_fails h fun t q g hg ↦ ?_
    obtain ⟨hi, hf⟩ := requireName_fails hg
    simp only [hi]
    exact hf

theorem returnType_fails_after {type : Option Identifier} {ys : List Upcoming}
    (ht : ReadsType .arrow type p.upcoming ys)
    (h : HaltsIn "function declaration" (fun _ ↦ none) ys e) : Fails returnType p e := by
  generalize hp : p.upcoming = xs at ht
  cases ht with
  | absent =>
    have h' : HaltsIn "function declaration" (fun _ ↦ none) p.upcoming e := hp ▸ h.of_looked
    exact expectToken_fails h' fun _ _ _ hg ↦ by cases hg
  | given hn hk hn' =>
    subst hp
    refine Fails.of_gives (expectToken_gives hn) fun q _ hu ↦ ?_
    simp only [hk, if_true]
    rw [← hu] at hn'
    refine Fails.of_gives (expectToken_gives hn') fun q₁ _ hu₁ ↦ ?_
    rw [← hu₁] at h
    exact expectToken_fails h fun _ _ _ hg ↦ by cases hg

theorem bodyOpen_fails {type : Option Identifier} {ys : List Upcoming}
    {wrong : Token → Option GrammarError} {f : Option Identifier × Token → Action α}
    (ht : ReadsType .arrow type p.upcoming ys) (h : HaltsIn "function declaration" wrong ys e)
    (hsome : ∀ t q g, g ∈ wrong t → Fails (f (type, t)) q (.grammar g)) :
    Fails (returnType >>= f) p e := by
  cases h with
  | lexical reach => exact Fails.bind (returnType_fails_after ht (.lexical reach))
  | absent hn hg => exact Fails.bind (returnType_fails_after ht (.absent hn hg))
  | token hn hg => exact Fails.of_gives (returnType_gives ht hn) fun q _ _ ↦ hsome _ q _ hg

theorem functionHeader_fails {fuel : Nat} {keyword : Token} (h : RejectsHeader p.upcoming e)
    (hf : p.upcoming.length < fuel) : Fails (functionHeader fuel keyword) p e := by
  generalize hp : p.upcoming = xs at h
  cases h with
  | name h =>
    subst hp
    exact Fails.bind (functionName_fails h)
  | openParen hn₁ h =>
    subst hp
    refine Fails.of_gives (functionName_gives hn₁) fun q _ hu ↦ ?_
    rw [← hu] at h
    refine expectToken_fails h fun t q g hg ↦ ?_
    by_cases hk : t.kind = .openParen
    · simp [Token.require, hk] at hg
    · simp only [Token.require, if_neg hk, Option.mem_def, Option.some.injEq] at hg
      simp only [ne_eq, hk, not_false_eq_true, if_true, ← hg]
      exact Fails.bind failExpected_fails
  | parameters hn₁ hn₂ hk h =>
    have hl₁ := hn₁.length
    have hl₂ := hn₂.length
    subst hp
    refine Fails.of_gives (functionName_gives hn₁) fun q _ hu ↦ ?_
    rw [← hu] at hn₂
    refine Fails.of_gives (expectToken_gives hn₂) fun q₁ _ hu₁ ↦ ?_
    simp only [hk, ne_eq, not_true_eq_false, if_false]
    exact Fails.bind (parameters_fails h hu₁ (by omega))
  | returnType hn₁ hn₂ hk hr h =>
    have hl₁ := hn₁.length
    have hl₂ := hn₂.length
    subst hp
    refine Fails.of_gives (functionName_gives hn₁) fun q _ hu ↦ ?_
    rw [← hu] at hn₂
    refine Fails.of_gives (expectToken_gives hn₂) fun q₁ _ hu₁ ↦ ?_
    simp only [hk, ne_eq, not_true_eq_false, if_false]
    refine Fails.of_gives (parameters_gives hr hu₁ (by omega)) fun q₂ _ hu₂ ↦ ?_
    rw [← hu₂] at h
    exact Fails.bind (returnType_fails h)
  | bodyOpen hn₁ hn₂ hk hr ht h =>
    have hl₁ := hn₁.length
    have hl₂ := hn₂.length
    subst hp
    refine Fails.of_gives (functionName_gives hn₁) fun q _ hu ↦ ?_
    rw [← hu] at hn₂
    refine Fails.of_gives (expectToken_gives hn₂) fun q₁ _ hu₁ ↦ ?_
    simp only [hk, ne_eq, not_true_eq_false, if_false]
    refine Fails.of_gives (parameters_gives hr hu₁ (by omega)) fun q₂ _ hu₂ ↦ ?_
    rw [← hu₂] at ht
    refine bodyOpen_fails ht h fun t q₃ g hg ↦ ?_
    by_cases hk : t.kind = .openCurlyBrace
    · simp [Token.require, hk] at hg
    · simp only [Token.require, if_neg hk, Option.mem_def, Option.some.injEq] at hg
      simp only [hk, not_false_eq_true, if_true, ← hg]
      exact Fails.bind failExpected_fails

theorem expressionStatement_fails {fuel : Nat} {last : Option Token} (hb : p.acrossLines = false)
    (hroom : p.HasRoom limit limit) (hlast : p.last? = last) (hf : p.upcoming.length < fuel)
    (h : RejectsStatement limit last p.upcoming e) : Fails (expressionStatement fuel) p e := by
  cases h with
  | expression h =>
    exact Fails.bind (fails_of_rejects (n := fuel) h rfl hb hroom hlast hf hf)
  | statementEnd hr h =>
    refine Fails.of_gives (hroom.parses (n := fuel) hr rfl hb hf hf) fun q _ hu ↦ ?_
    rw [← hu] at h
    exact Fails.bind (expectStatementEnd_fails h)

theorem returnStatement_fails {fuel : Nat} {keyword : Token} {token : Token} {zs : List Upcoming}
    (hb : p.acrossLines = false) (hroom : p.HasRoom limit limit) (hlast : p.last? = some keyword)
    (hf : p.upcoming.length < fuel) (hn : Next false p.upcoming token zs)
    (hk : token.kind ≠ .closeCurlyBrace) (h : RejectsStatement limit keyword p.upcoming e) :
    Fails (returnStatement fuel keyword) p e := by
  obtain ⟨q, r, hq, hu, hm, hl⟩ := exists_unread hn
  have hlast' := (last?_eq hm hl).trans hlast
  rw [looked_false] at hl
  rw [← hl] at h hf
  refine Fails.of_ok hq (Fails.of_ok hu ?_)
  rw [if_neg hk]
  exact Fails.bind (expressionStatement_fails (hm.acrossLines.trans hb) (hroom.moves hm) hlast' hf h)

theorem requireConstruct_fails {fuel : Nat} {t : Token} {g : GrammarError}
    (hg : g ∈ t.requireConstruct) : Fails (construct fuel t) p (.grammar g) := by
  cases hk : t.kind with
  | keyword word =>
    by_cases hw : word ∈ ["fn", "return", "pass", "break"]
    · simp [Token.requireConstruct, hk, hw] at hg
    · simp only [Token.requireConstruct, hk, if_neg hw, Option.mem_def, Option.some.injEq] at hg
      simp only [List.mem_cons, List.not_mem_nil, or_false, not_or] at hw
      obtain ⟨hfn, hreturn, hpass, hbreak⟩ := hw
      simp only [construct, hk, keywordConstruct, if_neg hfn, if_neg hreturn, if_neg hpass,
        if_neg hbreak, ← hg]
      exact ⟨p, rfl⟩
  | openCurlyBrace | closeCurlyBrace => simp [Token.requireConstruct, hk] at hg
  | _ =>
    simp only [Token.requireConstruct, hk, Option.mem_def, Option.ite_none_left_eq_some,
      Option.some.injEq] at hg
    obtain ⟨hs, rfl⟩ := hg
    simp only [construct, hk, if_neg hs]
    exact ⟨p, rfl⟩

theorem construct_fails {fuel : Nat} (hb : p.acrossLines = false) (hroom : p.HasRoom limit limit)
    (hlast : p.last? = none) (hf : p.upcoming.length < fuel)
    (h : RejectsConstruct limit p.upcoming e) : HaltsLexically true p.upcoming e ∨
      ∃ token q, advance true p = .ok (some token) q ∧ Fails (construct fuel token) q e := by
  have first {token : Token} {ys : List Upcoming} (hn : Next true p.upcoming token ys)
      (hg : ∀ q, Moves p q → q.upcoming = ys → q.last? = some token → q.upcoming.length < fuel →
        Fails (construct fuel token) q e) :
      ∃ token q, advance true p = .ok (some token) q ∧ Fails (construct fuel token) q e := by
    have hl := hn.length
    obtain ⟨q, hq, hm, hu⟩ := advance_gives hn
    exact ⟨token, q, hq, hg q hm hu (last?_of_advance hq) (by rw [hu]; omega)⟩
  generalize hp : p.upcoming = xs at h
  cases h with
  | start h =>
    cases h with
    | lexical reach => exact .inl (.lexical reach)
    | absent _ hg => cases hg
    | @token t _ ys g hn hg =>
      subst hp
      refine .inr (first hn fun q _ _ _ _ ↦ ?_)
      exact requireConstruct_fails hg
  | word hn hk h =>
    subst hp
    refine .inr (first hn fun q _ hu _ _ ↦ ?_)
    rw [← hu] at h
    rcases hk with hk | hk <;>
      · rw [construct_keyword hk]
        simp only [keywordConstruct, String.reduceEq, if_true, if_false]
        exact Fails.bind (expectStatementEnd_fails h)
  | returned hn hk h =>
    subst hp
    refine .inr (first hn fun q _ hu _ _ ↦ ?_)
    rw [← hu] at h
    rw [construct_keyword hk]
    simp only [keywordConstruct, String.reduceEq, if_true, if_false]
    exact advance_fails_lexically h
  | returnValue hn hk hn' hc h =>
    subst hp
    refine .inr (first hn fun q hm hu hl hlen ↦ ?_)
    rw [← hu] at hn' h
    rw [construct_keyword hk]
    simp only [keywordConstruct, String.reduceEq, if_true, if_false]
    exact returnStatement_fails (hm.acrossLines.trans hb) (hroom.moves hm) hl hlen hn' hc h
  | function hn hk h =>
    subst hp
    refine .inr (first hn fun q _ hu _ hlen ↦ ?_)
    rw [← hu] at h
    rw [construct_keyword hk]
    simp only [keywordConstruct, if_true]
    exact Fails.bind (functionHeader_fails h hlen)
  | @expression token xs ys e hn hk h =>
    subst hp
    have hlen := hn.length
    obtain ⟨q, r, hq, hu, hm, hl⟩ := exists_unread hn
    have hlast' := (last?_eq hm hl).trans hlast
    rw [hn.looked_eq] at hl
    rw [← hl] at h
    refine .inr ⟨token, q, hq, ?_⟩
    rw [construct_expression hk]
    refine Fails.of_ok hu (Fails.bind ?_)
    refine expressionStatement_fails (hm.acrossLines.trans hb) (hroom.moves hm) hlast' ?_ h
    rw [hl, List.length_cons]
    omega

theorem next_fails {fuel : Nat} (hroom : p.HasRoom limit limit) (hf : p.upcoming.length < fuel)
    (h : RejectsConstruct limit p.upcoming e) : Fails (next fuel) p e := by
  rw [← upcoming_begun p] at h hf
  refine Fails.of_ok (a := ()) (q := begun p) rfl ?_
  rcases construct_fails (p := begun p) rfl ⟨hroom.nestingLimit, hroom.depth⟩ rfl hf h with h | ⟨token, q, hq, h⟩
  · exact advance_fails_lexically h
  · exact Fails.of_ok hq (Fails.bind h)

theorem constructs_fails {fuel : Nat} {xs : List Upcoming} (h : RejectsProgram limit xs e)
    (hp : p.upcoming = xs) (hroom : p.HasRoom limit limit) (hf : xs.length < fuel) :
    Fails (constructs fuel) p e := by
  induction h generalizing p fuel with
  | here h =>
    subst hp
    obtain ⟨n, rfl⟩ : ∃ n, fuel = n + 1 := ⟨fuel - 1, by omega⟩
    exact Fails.bind (next_fails hroom hf h)
  | later hc hfits _ ih =>
    subst hp
    obtain ⟨n, rfl⟩ : ∃ n, fuel = n + 1 := ⟨fuel - 1, by omega⟩
    have hl := hc.length_lt
    obtain ⟨r, hr, hm, hu⟩ := next_of_reads hc hf fun value hv ↦
      (hroom.fits_iff _).2 (by have := hfits value hv; omega)
    refine Fails.of_ok hr (Fails.of_ok (a := some _) (q := { r with result := none }) rfl ?_)
    refine Fails.bind (ih (p := { r with result := none }) hu ?_ (by omega))
    exact ⟨hm.nestingLimit.trans hroom.nestingLimit, hm.nestingDepth.symm ▸ hroom.depth⟩

end Action

end Linewise.Parser

namespace Linewise

open Linewise.Parser

/-- A text is rejected with an error if and only if the grammar of rejected texts gives that error. -/
theorem parse_rejected_iff {source : String} {e : SyntaxError} :
    parse source = .error (.rejected e) ↔
      RejectsProgram maxNesting (Parser.ofSource source).upcoming e := by
  refine ⟨rejectsProgram_of_parse, fun h ↦ ?_⟩
  have hl : (Parser.ofSource source).upcoming.length < (Parser.ofSource source).fuel :=
    Nat.lt_succ_of_le (Parser.ofSource source).lexer.length_upcoming_le
  obtain ⟨q, hq⟩ := Action.constructs_fails h rfl (hasRoom_ofSource source) hl
  simp only [parse, Parser.program, hq]

end Linewise
