import Linewise.Proofs.Parser.Completeness

namespace Linewise

open Upcoming

theorem ReadsType.length_le {mark : TokenKind} {type : Option Identifier} {xs ys : List Upcoming}
    (h : ReadsType mark type xs ys) : ys.length ≤ xs.length := by
  cases h with
  | absent => simp
  | given hn _ hn' =>
    have := hn.length
    have := hn'.length
    omega

theorem ReadsParameters.length_lt {slot : Parser.Action.ParameterSlot} {params : List Parameter}
    {closeParen : Token} {xs ys : List Upcoming}
    (h : ReadsParameters slot params closeParen xs ys) : ys.length < xs.length := by
  induction h with
  | close hn =>
    have := hn.length
    omega
  | comma hn _ _ ih =>
    have := hn.length
    omega
  | parameter _ hn ht _ ih =>
    have := hn.length
    have := ht.length_le
    omega

theorem ReadsConstruct.length_lt {c : Construct} {xs ys : List Upcoming}
    (h : ReadsConstruct xs c ys) : ys.length < xs.length := by
  cases h with
  | openBrace hn | closeBrace hn | pass hn | «break» hn | returnNothing hn =>
    have := hn.length
    omega
  | returnValue hn _ _ _ hr =>
    have := hn.length
    have := hr.length_le
    omega
  | function hn _ hn₁ hn₂ _ hr ht hn₃ =>
    have := hn.length
    have := hn₁.length
    have := hn₂.length
    have := hr.length_lt
    have := ht.length_le
    have := hn₃.length
    omega
  | expression hn _ hr =>
    have := hn.length
    have := hr.length_le
    simp only [Phrase.size, List.length_cons] at this
    omega

namespace Parser.Action

variable {p : Parser}

theorem parameterType_gives {type : Option Identifier} {ys : List Upcoming}
    (h : ReadsType .colon type p.upcoming ys) : Gives parameterType p type ys := by
  generalize hp : p.upcoming = xs at h
  cases h with
  | absent hs =>
    subst hp
    exact (matchToken_stop_gives hs).bind fun _ _ hu ↦ gives_pure hu
  | given hn hk hn' =>
    subst hp
    refine (matchToken_gives hn hk).bind fun q _ hu ↦ ?_
    rw [← hu] at hn'
    exact (expectToken_gives hn').bind fun _ _ hu₁ ↦ gives_pure hu₁

theorem parameters_gives {fuel : Nat} {slot : ParameterSlot} {params : List Parameter}
    {closeParen : Token} {xs ys : List Upcoming}
    (h : ReadsParameters slot params closeParen xs ys) (hp : p.upcoming = xs)
    (hf : xs.length ≤ fuel) : Gives (parameters fuel slot) p (params, closeParen) ys := by
  induction h generalizing p fuel with
  | @close slot closeParen xs ys hn hk hs =>
    have hl := hn.length
    obtain ⟨n, rfl⟩ : ∃ n, fuel = n + 1 := ⟨fuel - 1, by omega⟩
    subst hp
    refine (expectToken_gives hn).bind fun q _ hu ↦ ?_
    cases slot with
    | name => exact absurd rfl hs
    | nameOrClose | commaOrClose =>
      simp only [hk]
      exact gives_pure hu
  | @comma comma closeParen params xs ys zs hn hk _ ih =>
    have hl := hn.length
    obtain ⟨n, rfl⟩ : ∃ n, fuel = n + 1 := ⟨fuel - 1, by omega⟩
    subst hp
    refine (expectToken_gives hn).bind fun q _ hu ↦ ?_
    simp only [hk]
    exact ih hu (by omega)
  | @parameter slot name type params closeParen xs ys zs ws hs hn ht hr ih =>
    have hl := hn.length
    have hl' := ht.length_le
    obtain ⟨n, rfl⟩ : ∃ n, fuel = n + 1 := ⟨fuel - 1, by omega⟩
    subst hp
    refine (expectToken_gives hn).bind fun q _ hu ↦ ?_
    rw [← hu] at ht
    have hg : Gives (parametersFrom n name) q (⟨name, type⟩ :: params, closeParen) ws := by
      refine (parameterType_gives ht).bind fun q₁ _ hu₁ ↦ ?_
      exact (ih hu₁ (by omega)).bind fun _ _ hu₂ ↦ gives_pure hu₂
    cases slot with
    | commaOrClose => exact absurd rfl hs
    | nameOrClose | name => exact hg

theorem functionName_gives {name : Identifier} {ys : List Upcoming}
    (h : Next true p.upcoming name.token ys) : Gives functionName p name ys :=
  (expectToken_gives h).bind fun _ _ hu ↦ gives_pure hu

theorem returnType_gives {type : Option Identifier} {token : Token} {ys zs : List Upcoming}
    (h : ReadsType .arrow type p.upcoming ys) (hn : Next true ys token zs) :
    Gives returnType p (type, token) zs := by
  generalize hp : p.upcoming = xs at h
  cases h with
  | absent hs =>
    have hx := hn.of_looked
    subst hp
    have hk : token.kind ≠ .arrow := by
      obtain ⟨later, hu, hr⟩ := hx
      obtain ⟨t, ht, hk⟩ := hs _ (by rw [hu]; rfl) hr
      cases ht
      exact hk
    refine (expectToken_gives hx).bind fun q _ hu ↦ ?_
    rw [if_neg hk]
    exact gives_pure hu
  | @given arrow name _ as bs hx hk hy =>
    subst hp
    refine (expectToken_gives hx).bind fun q _ hu ↦ ?_
    rw [if_pos hk]
    rw [← hu] at hy
    refine (expectToken_gives hy).bind fun q₁ _ hu₁ ↦ ?_
    rw [← hu₁] at hn
    exact (expectToken_gives hn).bind fun _ _ hu₂ ↦ gives_pure hu₂

theorem expressionStatement_gives {fuel : Nat} {e : Expr} {ys : List Upcoming}
    (hb : p.acrossLines = false) (h : Reads false (.expression 0 e) p.upcoming ys)
    (hs : Stops false (· = .closeCurlyBrace) ys) (hf : p.upcoming.length < fuel)
    (hfits : p.Fits (1 + e.need)) : Gives (expressionStatement fuel) p e ys := by
  have he := parses_of_reads (f := fuel) (n := fuel) h rfl hb hf hf hfits
  refine Gives.bind he fun q _ hu ↦ ?_
  rw [← hu] at hs
  exact (expectStatementEnd_gives hs).bind fun _ _ hu₁ ↦ gives_pure (hu₁.trans hu)

theorem functionHeader_gives {fuel : Nat} {f : FunctionHeader} {bs cs ds es ys : List Upcoming}
    (hn : Next true p.upcoming f.name.token bs) (ho : Next true bs f.openParen cs)
    (hok : f.openParen.kind = .openParen)
    (hr : ReadsParameters .nameOrClose f.parameters f.closeParen cs ds)
    (ht : ReadsType .arrow f.returnType ds es) (hc : Next true es f.bodyOpen ys)
    (hck : f.bodyOpen.kind = .openCurlyBrace) (hf : p.upcoming.length < fuel) :
    Gives (functionHeader fuel f.keyword) p f ys := by
  have hl := hn.length
  have hl' := ho.length
  refine (functionName_gives hn).bind fun p₁ _ hu₁ ↦ ?_
  rw [← hu₁] at ho
  refine (expectToken_gives ho).bind fun p₂ _ hu₂ ↦ ?_
  simp only [hok, ne_eq, not_true_eq_false, if_false]
  refine (parameters_gives hr hu₂ (by omega)).bind fun p₃ _ hu₃ ↦ ?_
  rw [← hu₃] at ht
  refine (returnType_gives ht hc).bind fun p₄ _ hu₄ ↦ ?_
  simp only [hck, not_true_eq_false, if_false]
  exact gives_pure hu₄

theorem returnNothing_gives {fuel : Nat} {keyword : Token}
    (hs : Stops false (· = .closeCurlyBrace) p.upcoming) :
    Gives (returnStatement fuel keyword) p (.returnStatement keyword none) p.upcoming := by
  rcases hs.nothing_or_next with hr | ⟨token, ys, hn, hk⟩
  · obtain ⟨q, hq⟩ := exists_advance_none hr
    obtain ⟨hm, hu, -⟩ := advance_none hq
    rw [← hu] at hs ⊢
    refine Gives.of_ok hq hm ?_
    exact (expectStatementEnd_gives hs).bind fun _ _ hu₁ ↦ gives_pure hu₁
  · obtain ⟨q, r, hq, hu, hm, hl⟩ := exists_unread hn
    rw [looked_false] at hl
    rw [← hl] at hs ⊢
    refine Gives.of_advance_unread rfl hq hu hm ?_
    rw [if_pos hk]
    exact (expectStatementEnd_gives hs).bind fun _ _ hu₁ ↦ gives_pure hu₁

theorem returnValue_gives {fuel : Nat} {keyword token : Token} {e : Expr} {ys zs : List Upcoming}
    (hb : p.acrossLines = false) (hn : Next false p.upcoming token zs)
    (hk : token.kind ≠ .closeCurlyBrace) (hr : Reads false (.expression 0 e) p.upcoming ys)
    (hs : Stops false (· = .closeCurlyBrace) ys) (hf : p.upcoming.length < fuel)
    (hfits : p.Fits (1 + e.need)) :
    Gives (returnStatement fuel keyword) p (.returnStatement keyword (some e)) ys := by
  obtain ⟨q, r, hq, hu, hm, hl⟩ := exists_unread hn
  rw [looked_false] at hl
  rw [← hl] at hr hf
  refine Gives.of_advance_unread rfl hq hu hm ?_
  rw [if_neg hk]
  exact (expressionStatement_gives (hm.acrossLines.trans hb) hr hs hf (hm.fits hfits)).bind
    fun _ _ hu₁ ↦ gives_pure hu₁

theorem construct_keyword {fuel : Nat} {token : Token} {word : String}
    (hk : token.kind = .keyword word) : construct fuel token = keywordConstruct fuel token word := by
  simp only [construct, hk]

theorem construct_expression {fuel : Nat} {token : Token}
    (hk : startsExpression token.kind = true) : construct fuel token = (do
      unread
      return .expression (← expressionStatement fuel)) := by
  unfold construct
  split
  · next h =>
    rw [h] at hk
    cases hk
  · next h =>
    rw [h] at hk
    cases hk
  · next h =>
    rw [h] at hk
    cases hk
  · rw [if_pos hk]

theorem construct_gives {fuel : Nat} {c : Construct} {ys : List Upcoming}
    (hb : p.acrossLines = false) (h : ReadsConstruct p.upcoming c ys)
    (hf : p.upcoming.length < fuel) (hfits : ∀ e ∈ c.expression?, p.Fits (1 + e.need)) :
    ∃ token q r, advance true p = .ok (some token) q ∧ construct fuel token q = .ok c r ∧
      Moves p r ∧ r.upcoming = ys := by
  -- Every construct but an expression goes on behind its first token; an expression gives the token back.
  have first {token : Token} {zs : List Upcoming} (hn : Next true p.upcoming token zs)
      (hg : ∀ q, Moves p q → q.upcoming = zs → q.upcoming.length < fuel →
        Gives (construct fuel token) q c ys) :
      ∃ token q r, advance true p = .ok (some token) q ∧ construct fuel token q = .ok c r ∧
        Moves p r ∧ r.upcoming = ys := by
    obtain ⟨q, hq, hm, hu⟩ := advance_gives hn
    have hl := hn.length
    obtain ⟨r, hr, hm', hu'⟩ := hg q hm hu (by rw [hu]; omega)
    exact ⟨token, q, r, hq, hr, hm.trans hm', hu'⟩
  generalize hp : p.upcoming = xs at h
  cases h with
  | openBrace hn hk =>
    subst hp
    refine first hn fun q _ hu _ ↦ ?_
    simp only [construct, hk]
    exact gives_pure hu
  | closeBrace hn hk =>
    subst hp
    refine first hn fun q _ hu _ ↦ ?_
    simp only [construct, hk]
    exact gives_pure hu
  | pass hn hk hs =>
    subst hp
    refine first hn fun q _ hu _ ↦ ?_
    rw [← hu] at hs
    rw [construct_keyword hk]
    simp only [keywordConstruct, String.reduceEq, if_true, if_false]
    exact (expectStatementEnd_gives hs).bind fun _ _ hu₁ ↦ gives_pure (hu₁.trans hu)
  | «break» hn hk hs =>
    subst hp
    refine first hn fun q _ hu _ ↦ ?_
    rw [← hu] at hs
    rw [construct_keyword hk]
    simp only [keywordConstruct, String.reduceEq, if_true, if_false]
    exact (expectStatementEnd_gives hs).bind fun _ _ hu₁ ↦ gives_pure (hu₁.trans hu)
  | returnNothing hn hk hs =>
    subst hp
    refine first hn fun q _ hu _ ↦ ?_
    rw [construct_keyword hk]
    simp only [keywordConstruct, String.reduceEq, if_true, if_false]
    subst hu
    exact returnNothing_gives hs
  | returnValue hn hk hn' hk' hr hs =>
    subst hp
    refine first hn fun q hm hu hl ↦ ?_
    rw [construct_keyword hk]
    simp only [keywordConstruct, String.reduceEq, if_true, if_false]
    subst hu
    exact returnValue_gives (hm.acrossLines.trans hb) hn' hk' hr hs hl
      (hm.fits (hfits _ rfl))
  | function hn hk hn₁ hn₂ hk₂ hr ht hn₃ hk₃ =>
    subst hp
    refine first hn fun q _ hu hl ↦ ?_
    rw [construct_keyword hk]
    simp only [keywordConstruct, if_true]
    rw [← hu] at hn₁
    exact (functionHeader_gives hn₁ hn₂ hk₂ hr ht hn₃ hk₃ hl).bind fun _ _ hu₁ ↦ gives_pure hu₁
  | @expression token e xs zs ws hn hk hr hs =>
    subst hp
    obtain ⟨q, r, hq, hu, hm, hl⟩ := exists_unread hn
    have hll := hn.length
    rw [hn.looked_eq] at hl
    rw [← hl] at hr
    have hlr : r.upcoming.length < fuel := by
      rw [hl, List.length_cons]
      omega
    obtain ⟨s, hs', hm', hu'⟩ := expressionStatement_gives (hm.acrossLines.trans hb) hr hs hlr
      (hm.fits (hfits e rfl))
    refine ⟨token, q, s, hq, ?_, hm.trans hm', hu'⟩
    rw [construct_expression hk]
    exact bind_eq_ok.2 ⟨(), r, hu, bind_eq_ok.2 ⟨e, s, hs', rfl⟩⟩

theorem next_of_reads {fuel : Nat} {c : Construct} {ys : List Upcoming}
    (h : ReadsConstruct p.upcoming c ys) (hf : p.upcoming.length < fuel)
    (hfits : ∀ e ∈ c.expression?, p.Fits (1 + e.need)) :
    ∃ r, next fuel p = .ok true { r with result := some c } ∧ Moves (begun p) r ∧
      r.upcoming = ys := by
  rw [← upcoming_begun p] at h hf
  obtain ⟨token, q, r, hq, hr, hm, hu⟩ := construct_gives (p := begun p) rfl h hf hfits
  refine ⟨r, ?_, hm, hu⟩
  refine bind_eq_ok.2 ⟨(), begun p, rfl, bind_eq_ok.2 ⟨some token, q, hq, ?_⟩⟩
  exact bind_eq_ok.2 ⟨c, r, hr, rfl⟩

theorem next_of_nothing (fuel : Nat) (h : p.upcoming = []) : ∃ q, next fuel p = .ok false q := by
  rw [← upcoming_begun p] at h
  obtain ⟨q, hq⟩ := exists_advance_none (b := true) (p := begun p) (by simp [h])
  exact ⟨q, bind_eq_ok.2 ⟨(), begun p, rfl, bind_eq_ok.2 ⟨none, q, hq, rfl⟩⟩⟩

theorem constructs_of_reads (fuel : Nat) {cs : List Construct} {xs : List Upcoming}
    (h : ReadsProgram xs cs) (hp : p.upcoming = xs) (hf : xs.length < fuel)
    (hfits : ∀ c ∈ cs, ∀ e ∈ c.expression?, p.Fits (1 + e.need)) : ∃ q, constructs fuel p = .ok cs q := by
  induction h generalizing p fuel with
  | done =>
    obtain ⟨n, rfl⟩ : ∃ n, fuel = n + 1 := ⟨fuel - 1, by omega⟩
    obtain ⟨q, hq⟩ := next_of_nothing (n + 1) hp
    exact ⟨q, bind_eq_ok.2 ⟨false, q, hq, rfl⟩⟩
  | @construct c cs xs ys hc _ ih =>
    obtain ⟨n, rfl⟩ : ∃ n, fuel = n + 1 := ⟨fuel - 1, by omega⟩
    have hl := hc.length_lt
    subst hp
    obtain ⟨r, hr, hm, hu⟩ := next_of_reads hc hf (hfits c List.mem_cons_self)
    obtain ⟨q, hq⟩ := ih n (p := { r with result := none }) hu (by omega) fun d hd e he ↦
      hm.fits (hfits d (List.mem_cons_of_mem c hd) e he)
    refine ⟨q, bind_eq_ok.2 ⟨true, _, hr, ?_⟩⟩
    exact bind_eq_ok.2 ⟨some c, _, rfl, bind_eq_ok.2 ⟨cs, q, hq, rfl⟩⟩

end Parser.Action

/-- A text that follows the grammar is parsed, if no expression is nested too deeply. -/
theorem parse_of_readsProgram {source : String} {cs : List Construct}
    (h : ReadsProgram (Parser.ofSource source).upcoming cs)
    (hneed : ∀ c ∈ cs, ∀ e ∈ c.expression?, e.need ≤ Parser.maxNesting) : parse source = .ok ⟨cs⟩ := by
  have hl := (Parser.ofSource source).lexer.length_upcoming_le
  obtain ⟨q, hq⟩ := Parser.Action.constructs_of_reads (Parser.ofSource source).fuel h rfl
    (Nat.lt_succ_of_le hl) fun c hc e he limit hlimit ↦ by
      cases hlimit
      have := hneed c hc e he
      change 0 + (1 + e.need) ≤ Parser.maxNesting + 1
      omega
  simp only [parse, Parser.program, hq]

end Linewise
