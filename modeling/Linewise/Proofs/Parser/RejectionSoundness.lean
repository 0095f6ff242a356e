import Linewise.Proofs.Parser.ProgramSoundness
import Linewise.Proofs.Rejection

namespace Linewise.Parser

open Upcoming

variable {α β : Type} {p q : Parser} {limit room : Nat}

def last? (p : Parser) : Option Token := p.lexer.lastToken?

structure HasRoom (limit room : Nat) (p : Parser) : Prop where
  nestingLimit : p.nestingLimit = some limit
  depth : p.nestingDepth + room = limit

namespace HasRoom

theorem moves (h : p.HasRoom limit room) (hm : Moves p q) : q.HasRoom limit room :=
  ⟨hm.nestingLimit.trans h.nestingLimit, hm.nestingDepth.symm ▸ h.depth⟩

theorem fits_iff (h : p.HasRoom limit room) (n : Nat) : p.Fits n ↔ n ≤ room + 1 := by
  have hd := h.depth
  simp only [Fits, h.nestingLimit, Option.mem_def, Option.some.injEq, forall_eq']
  omega

theorem readsWithin {phrase : Phrase} {b : Bool} {xs : List Upcoming} (h : p.HasRoom limit room)
    (hp : Action.Parsed b phrase xs p q) : ReadsWithin room b phrase xs q.upcoming :=
  ⟨hp.reads, (h.fits_iff _).1 hp.fits⟩

end HasRoom

namespace Action

theorem bind_eq_error {x : Action α} {f : α → Action β} {r : Parser} {e : Failure SyntaxError} :
    (x >>= f) p = .error e r ↔ x p = .error e r ∨ ∃ a q, x p = .ok a q ∧ f a q = .error e r := by
  simp only [bind, EStateM.bind]
  cases x p with
  | ok a q =>
    refine ⟨fun h ↦ .inr ⟨a, q, rfl, h⟩, ?_⟩
    rintro (h | ⟨a', q', h, h'⟩)
    · cases h
    · cases h
      exact h'
  | error e' q => simp

/-- Whenever the step rejects the text, it does so with an error of the given sort; and where a construct
is unterminated, nothing is left to read. -/
def Refuses (x : Action α) (p : Parser) (R : SyntaxError → Prop) : Prop :=
  ∀ e q, x p = .error (.rejected e) q →
    R e ∧ (e.code = .P0002 → q.contents = p.contents ∧ q.upcoming = [])

namespace Refuses

variable {x : Action α} {f : α → Action β} {R R' : SyntaxError → Prop}

theorem imp (h : Refuses x p R) (hR : ∀ e, R e → R' e) : Refuses x p R' :=
  fun e q hx ↦ ⟨hR e (h e q hx).1, (h e q hx).2⟩

theorem bind (hx : Refuses x p R)
    (hf : ∀ a q, x p = .ok a q → q.contents = p.contents ∧ Refuses (f a) q R) :
    Refuses (x >>= f) p R := by
  intro e r h
  rcases bind_eq_error.1 h with h | ⟨a, q, hq, h⟩
  · exact hx e r h
  · obtain ⟨hc, hr⟩ := hf a q hq
    obtain ⟨hR, hend⟩ := hr e r h
    exact ⟨hR, fun he ↦ ⟨(hend he).1.trans hc, (hend he).2⟩⟩

theorem pure (a : α) : Refuses (pure a) p R := fun _ _ h ↦ by cases h

theorem fail {cause : GrammarCause} {span : Option Span} (hc : cause.code ≠ .P0002)
    (hR : R (.grammar ⟨cause, span⟩)) : Refuses (fail cause span : Action α) p R := by
  intro e q h
  cases h
  exact ⟨hR, fun he ↦ absurd he hc⟩

theorem failExpected {what : String} {t : Token} (hR : R (.grammar (.expected what t))) :
    Refuses (failExpected what t : Action α) p R := fail (by simp [GrammarCause.code]) hR

theorem internal {e : InternalError} : Refuses (throw (.internal e) : Action α) p R :=
  fun _ _ h ↦ by cases h

end Refuses

variable {R : SyntaxError → Prop}

theorem advance_refuses (b : Bool) (absence : Option GrammarError)
    (wrong : Token → Option GrammarError) :
    Refuses (advance b) p (Halts b absence wrong p.upcoming) := by
  intro e q h
  rw [advance_eq] at h
  have hd := p.lexer.readToken_delivers b
  cases hr : p.lexer.readToken b with
  | ok found l => cases found <;> simp [hr] at h
  | error e' l =>
    rw [hr] at hd h
    cases h
    rw [upcoming]
    generalize p.lexer.upcoming = items at hd
    cases hd with
    | failure reach =>
      exact ⟨.lexical reach, fun he ↦ absurd he (e'.cause.code_ne)⟩

theorem unread_refuses : Refuses unread p R := by
  intro e q h
  unfold unread at h
  split at h <;> cases h

theorem giveBack_refuses (a : α) : Refuses (do unread; return a : Action α) p R := by
  intro e r h
  rcases bind_eq_error.1 h with h | ⟨_, _, -, h⟩
  · exact unread_refuses e r h
  · cases h

theorem upcoming_eq_nil {xs : List Upcoming} (h : ∀ i ∈ xs.head?, ¬ i.InReach true) : xs = [] := by
  cases xs with
  | nil => rfl
  | cons i xs => exact absurd (inReach_true i) (h i rfl)

theorem last?_of_advance {b : Bool} {token : Token} (h : advance b p = .ok (some token) q) :
    q.last? = some token := by
  obtain ⟨-, -, ht, -⟩ := advance_some h
  have ht : q.lexer.tokens = p.lexer.tokens.push token := ht
  simp [last?, Lexer.lastToken?, ht]

/-- Where the same lies ahead as before, the same has been read. -/
theorem tokens_eq (hm : Moves p q)
    (hu : q.upcoming.map (·.content) = p.upcoming.map (·.content)) : q.tokens = p.tokens := by
  have hc := hm.contents
  rw [contents, contents, hu] at hc
  have hl := List.append_cancel_right hc
  exact Array.toList_inj.1 ((List.map_inj_right fun _ _ h ↦ Except.ok.inj h).1 hl)

theorem last?_eq (hm : Moves p q) {b : Bool} (hu : q.upcoming = looked b p.upcoming) :
    q.last? = p.last? := by
  have ht : q.lexer.tokens = p.lexer.tokens := tokens_eq hm (by rw [hu, map_content_looked])
  simp only [last?, Lexer.lastToken?, ht]

theorem expectToken_refuses (construct : String) (wrong : Token → Option GrammarError) :
    Refuses (expectToken construct) p (HaltsIn construct wrong p.upcoming) := by
  refine (advance_refuses true _ wrong).bind fun r q hq ↦ ?_
  cases r with
  | some token => exact ⟨(advance_some hq).1.contents, .pure token⟩
  | none =>
    obtain ⟨hm, hu, hn⟩ := advance_none hq
    refine ⟨hm.contents, fun e r h ↦ ?_⟩
    cases h
    exact ⟨.absent hn rfl, fun _ ↦ ⟨rfl, hu.trans (upcoming_eq_nil hn)⟩⟩

theorem last?_of_expectToken {construct : String} {token : Token}
    (h : expectToken construct p = .ok token q) : q.last? = some token := by
  obtain ⟨r, p₁, h₁, h₂⟩ := bind_eq_ok.1 h
  cases r with
  | none => exact absurd h₂ fail_ne_ok
  | some t =>
    obtain ⟨rfl, rfl⟩ := pure_eq_ok.1 h₂
    exact last?_of_advance h₁

theorem matchToken_refuses (kind : TokenKind) (b : Bool) :
    Refuses (matchToken kind b) p (HaltsLexically b p.upcoming) := by
  refine (advance_refuses b none fun _ ↦ none).bind fun r q hq ↦ ?_
  cases r with
  | none => exact ⟨(advance_none hq).1.contents, .pure none⟩
  | some token =>
    refine ⟨(advance_some hq).1.contents, ?_⟩
    by_cases hk : token.kind = kind
    · simp only [if_pos hk]
      exact .pure _
    · simp only [if_neg hk]
      exact giveBack_refuses none

theorem expectStatementEnd_refuses :
    Refuses expectStatementEnd p (Halts false none Token.requireStatementEnd p.upcoming) := by
  refine (advance_refuses false none _).bind fun r q hq ↦ ?_
  cases r with
  | none => exact ⟨(advance_none hq).1.contents, .pure ()⟩
  | some token =>
    obtain ⟨hm, hn, -⟩ := advance_some hq
    refine ⟨hm.contents, ?_⟩
    by_cases hk : token.kind = .closeCurlyBrace
    · simp only [if_pos hk]
      exact unread_refuses
    · simp only [if_neg hk]
      exact .failExpected (.token hn (if_neg hk))

theorem expectOperand_refuses (wrong : Token → Option GrammarError) :
    Refuses expectOperand p
      (Halts p.acrossLines (some (.noOperand p.acrossLines p.last?)) wrong p.upcoming) := by
  unfold Refuses
  rw [expectOperand, continuesAcrossLines_bind]
  refine (advance_refuses p.acrossLines _ wrong).bind fun r q hq ↦ ?_
  cases r with
  | some token => exact ⟨(advance_some hq).1.contents, .pure token⟩
  | none =>
    obtain ⟨hm, hu, hn⟩ := advance_none hq
    refine ⟨hm.contents, fun e r h ↦ ?_⟩
    have hlast : q.last? = p.last? := last?_eq hm (b := p.acrossLines) (by
      rw [hu, looked_of_not_inReach hn])
    cases hb : p.acrossLines with
    | true =>
      rw [hb] at hn
      simp only [hb, if_true] at h
      cases h
      exact ⟨.absent hn rfl, fun _ ↦ ⟨rfl, hu.trans (upcoming_eq_nil hn)⟩⟩
    | false =>
      rw [hb] at hn
      simp only [hb, Bool.false_eq_true, if_false] at h
      cases h
      refine ⟨.absent hn ?_, fun he ↦ by cases he⟩
      rw [← hlast]
      rfl

theorem last?_of_expectOperand {token : Token} (h : expectOperand p = .ok token q) :
    q.last? = some token :=
  last?_of_advance (advance_of_expectOperand h)

theorem expectClosing_refuses (kind : TokenKind) (construct : String) :
    Refuses (expectClosing kind construct) p
      (HaltsIn construct (Token.require kind ("'" ++ kind.symbol?.getD "" ++ "'")) p.upcoming) := by
  refine (expectToken_refuses construct _).bind fun t q hq ↦ ?_
  obtain ⟨hm, hn⟩ := expectToken_ok hq
  refine ⟨hm.contents, ?_⟩
  by_cases hk : t.kind = kind
  · simp only [if_pos hk]
    exact .pure t
  · simp only [if_neg hk]
    exact .failExpected (.token hn (if_neg hk))

theorem enclosed_refuses (limit : Nat) {body : Action α}
    (h : ∀ q : Parser, q.acrossLines = true → q.upcoming = p.upcoming → q.last? = p.last? →
      (∀ room, p.HasRoom limit room → q.HasRoom limit room) → Refuses body q R) :
    Refuses (enclosed body) p R := by
  intro e r herr
  rcases bind_eq_error.1 herr with herr | ⟨_, q, hq, herr⟩
  · cases herr
  cases hq
  rcases bind_eq_error.1 herr with herr | ⟨_, q₁, -, herr⟩
  · exact h { p with openDelimiters := p.openDelimiters + 1 } (by simp [acrossLines]) rfl rfl
      (fun room hr ↦ ⟨hr.nestingLimit, hr.depth⟩) e r herr
  · rcases bind_eq_error.1 herr with herr | ⟨_, _, -, herr⟩ <;> cases herr

theorem nested_refuses {body : Action α} (hroom : p.HasRoom limit room)
    (hdeep : room = 0 → R (.grammar ⟨.nestingTooDeep limit, p.last?.map (·.span)⟩))
    (h : ∀ m (q : Parser), room = m + 1 → q.acrossLines = p.acrossLines → q.upcoming = p.upcoming →
      q.last? = p.last? → q.HasRoom limit m → Refuses body q R) : Refuses (nested body) p R := by
  intro e r herr
  have hd := hroom.depth
  unfold nested at herr
  split at herr
  · next l hl =>
    cases herr
    obtain ⟨hsome, hle⟩ := Option.filter_eq_some_iff.1 hl
    obtain rfl : limit = l := Option.some.inj (hroom.nestingLimit.symm.trans hsome)
    exact ⟨hdeep (by simp at hle; omega), fun he ↦ by cases he⟩
  · next hl =>
    have hlt : ¬ limit ≤ p.nestingDepth := by
      simpa using Option.filter_eq_none_iff.1 hl limit hroom.nestingLimit
    obtain ⟨m, rfl⟩ : ∃ m, room = m + 1 := ⟨room - 1, by omega⟩
    have hbody := h m { p with nestingDepth := p.nestingDepth + 1 } rfl rfl rfl rfl
      ⟨hroom.nestingLimit, by simp only; omega⟩
    split at herr
    · cases herr
    · next q₁ hb =>
      cases herr
      obtain ⟨hR, hend⟩ := hbody _ _ hb
      exact ⟨hR, hend⟩

theorem dereference_refuses {xs : List Upcoming} {star : Token} (hlast : p.last? = some star)
    (hn : Next p.acrossLines xs star p.upcoming) (hk : star.kind = .operation .multiplication)
    {last : Option Token} :
    Refuses (dereference star) p (Rejects limit room p.acrossLines (.operand last) xs) := by
  have hstar := expectOperand_refuses (p := p) (Token.requireName "identifier after '*'")
  rw [hlast] at hstar
  refine (hstar.bind fun t q hq ↦ ?_).imp fun e he ↦ .dereference hn hk he
  obtain ⟨hm, ht⟩ := expectOperand_ok hq
  refine ⟨hm.contents, ?_⟩
  cases hi : t.identifier? with
  | none => exact .failExpected (.token ht (by simp [Token.requireName, hi]))
  | some n => exact .pure _

theorem join_refuses {left right : Expr} {operator : Token}
    (hR : operator.kind.isAssignment = true → (∀ v, left ≠ .var v) →
      R (.grammar ⟨.invalidAssignmentTarget, some left.span⟩)) :
    Refuses (join left operator right) p R := by
  unfold join
  by_cases ha : operator.kind.isAssignment = true
  · rw [if_pos ha]
    split
    · exact .pure _
    · next hne => exact .fail (by simp [GrammarCause.code]) (hR ha fun v hv ↦ hne v hv)
  · rw [if_neg ha]
    exact .pure _

section

variable {expr : Nested} (hexpr : ∀ least p, Accepts (expr least) (.expression least) p)
  (hrefuse : ∀ least p room, HasRoom limit room p →
    Refuses (expr least) p (Rejects limit room p.acrossLines (.expression p.last? least) p.upcoming))
include hexpr hrefuse

theorem arguments_refuses (fuel : Nat) (hb : p.acrossLines = true) (hroom : p.HasRoom limit room) :
    Refuses (arguments expr fuel) p (Rejects limit room true (.arguments p.last?) p.upcoming) := by
  induction fuel generalizing p with
  | zero => exact .internal
  | succ fuel ih =>
    have hfirst := hrefuse 0 p room hroom
    rw [hb] at hfirst
    refine (hfirst.imp fun e he ↦ .argument he).bind fun a p₁ h₁ ↦ ?_
    have hp := hexpr 0 p a p₁ h₁
    rw [hb] at hp
    have hr := hroom.readsWithin hp
    refine ⟨hp.moves.contents, ?_⟩
    refine ((expectToken_refuses _ Token.requireSeparator).imp fun e he ↦ .argumentEnd hr he).bind
      fun t p₂ h₂ ↦ ?_
    obtain ⟨hm₂, hn⟩ := expectToken_ok h₂
    have hm := hp.moves.trans hm₂
    refine ⟨hm₂.contents, ?_⟩
    by_cases hc : t.kind = .comma
    · simp only [if_pos hc]
      have hmore := ih (hm.acrossLines.trans hb) (hroom.moves hm)
      rw [last?_of_expectToken h₂] at hmore
      refine (hmore.imp fun e he ↦ .moreArguments hr hn hc he).bind fun r p₃ h₃ ↦ ?_
      exact ⟨(arguments_accepts hexpr fuel (hm.acrossLines.trans hb) r p₃ h₃).moves.contents, .pure _⟩
    · simp only [if_neg hc]
      by_cases hk : t.kind = .closeParen
      · simp only [if_pos hk]
        exact .pure _
      · simp only [if_neg hk]
        refine .failExpected (.argumentEnd hr (.token hn ?_))
        simp [Token.requireSeparator, hc, hk]

theorem call_refuses {b : Bool} {xs : List Upcoming} {callee : Expr} {openToken : Token} (fuel : Nat)
    (hlast : p.last? = some openToken) (hn : Next b xs openToken p.upcoming)
    (hk : openToken.kind = .openParen) (hroom : p.HasRoom limit room) :
    Refuses (call expr fuel callee openToken) p (Rejects limit room b (.suffixes callee) xs) := by
  refine enclosed_refuses limit fun p₁ hb hu hl hr ↦ ?_
  have hroom₁ := hr room hroom
  rw [← hu] at hn
  refine ((matchToken_refuses .closeParen true).imp fun e he ↦ .call hn hk he).bind fun r p₂ h₂ ↦ ?_
  cases r with
  | some c => exact ⟨(matchToken_some h₂).1.contents, .pure _⟩
  | none =>
    obtain ⟨hm, hlooked, hstop⟩ := matchToken_none h₂
    refine ⟨hm.contents, ?_⟩
    have hb₂ := hm.acrossLines.trans hb
    have hargs := arguments_refuses hexpr hrefuse fuel hb₂ (hroom₁.moves hm)
    rw [last?_eq hm hlooked, hl, hlast, hlooked] at hargs
    refine (hargs.imp fun e he ↦ .callArguments hn hk hstop he).bind fun r p₃ h₃ ↦ ?_
    exact ⟨(arguments_accepts hexpr fuel hb₂ r p₃ h₃).moves.contents, .pure _⟩

theorem index_refuses {b : Bool} {xs : List Upcoming} {target : Expr} {openToken : Token}
    (hlast : p.last? = some openToken) (hn : Next b xs openToken p.upcoming)
    (hk : openToken.kind = .openSquareBracket) (hroom : p.HasRoom limit room) :
    Refuses (index expr target openToken) p (Rejects limit room b (.suffixes target) xs) := by
  refine enclosed_refuses limit fun p₁ hb hu hl hr ↦ ?_
  have hroom₁ := hr room hroom
  have hindex := hrefuse 0 p₁ room hroom₁
  rw [hb, hl, hlast] at hindex
  rw [← hu] at hn
  refine (hindex.imp fun e he ↦ .index hn hk he).bind fun i p₂ h₂ ↦ ?_
  have hp := hexpr 0 p₁ i p₂ h₂
  rw [hb] at hp
  refine ⟨hp.moves.contents, ?_⟩
  refine ((expectClosing_refuses .closeSquareBracket "index").imp fun e he ↦
    .indexEnd hn hk (hroom₁.readsWithin hp) he).bind fun c p₃ h₃ ↦ ?_
  exact ⟨(expectClosing_ok h₃).1.contents, .pure _⟩

theorem group_refuses {b : Bool} {xs : List Upcoming} {openToken : Token}
    (hlast : p.last? = some openToken) (hn : Next b xs openToken p.upcoming)
    (hk : openToken.kind = .openParen) (hroom : p.HasRoom limit room) {last : Option Token} :
    Refuses (group expr openToken) p (Rejects limit room b (.operand last) xs) := by
  refine enclosed_refuses limit fun p₁ hb hu hl hr ↦ ?_
  have hroom₁ := hr room hroom
  have hinner := hrefuse 0 p₁ room hroom₁
  rw [hb, hl, hlast] at hinner
  rw [← hu] at hn
  refine (hinner.imp fun e he ↦ .group hn hk he).bind fun i p₂ h₂ ↦ ?_
  have hp := hexpr 0 p₁ i p₂ h₂
  rw [hb] at hp
  refine ⟨hp.moves.contents, ?_⟩
  refine ((expectClosing_refuses .closeParen "parenthesised expression").imp fun e he ↦
    .groupEnd hn hk (hroom₁.readsWithin hp) he).bind fun c p₃ h₃ ↦ ?_
  exact ⟨(expectClosing_ok h₃).1.contents, .pure _⟩

theorem suffixes_refuses (fuel : Nat) {start : Expr} (hroom : p.HasRoom limit room)
    (hf : p.Fits start.need) :
    Refuses (suffixes expr fuel start) p
      (Rejects limit room p.acrossLines (.suffixes start) p.upcoming) := by
  induction fuel generalizing p start with
  | zero => exact .internal
  | succ fuel ih =>
    unfold Refuses
    rw [suffixes, continuesAcrossLines_bind]
    refine ((advance_refuses p.acrossLines none fun _ ↦ none).imp fun e he ↦ .suffixes he).bind
      fun r p₁ h₁ ↦ ?_
    cases r with
    | none => exact ⟨(advance_none h₁).1.contents, .pure _⟩
    | some t =>
      obtain ⟨hm₁, hn, -⟩ := advance_some h₁
      refine ⟨hm₁.contents, ?_⟩
      have more {middle : Expr} {p₂ : Parser}
          (hp : Parsed p.acrossLines (.suffix start middle) p.upcoming p₁ p₂) :
          Refuses (suffixes expr fuel middle) p₂
            (Rejects limit room p.acrossLines (.suffixes start) p.upcoming) := by
        have hm := hm₁.trans hp.moves
        have hrest := ih (hroom.moves hm) (hp.moves.fits hp.fits)
        rw [hm.acrossLines] at hrest
        exact hrest.imp fun e he ↦ .moreSuffixes ((hroom.moves hm₁).readsWithin hp) he
      by_cases hp : t.kind = .openParen
      · simp only [if_pos hp]
        refine (call_refuses hexpr hrefuse (fuel + 1) (last?_of_advance h₁) hn hp
          (hroom.moves hm₁)).bind fun middle p₂ h₂ ↦ ?_
        have hc := call_accepts hexpr (fuel + 1) hn hp (hm₁.fits hf) h₂
        exact ⟨hc.moves.contents, more hc⟩
      · simp only [if_neg hp]
        by_cases hs : t.kind = .openSquareBracket
        · simp only [if_pos hs]
          refine (index_refuses hexpr hrefuse (last?_of_advance h₁) hn hs
            (hroom.moves hm₁)).bind fun middle p₂ h₂ ↦ ?_
          have hc := index_accepts hexpr hn hs (hm₁.fits hf) h₂
          exact ⟨hc.moves.contents, more hc⟩
        · simp only [if_neg hs]
          exact giveBack_refuses start

theorem operand_refuses (fuel : Nat) (hroom : p.HasRoom limit room) (hf : p.Fits 1) :
    Refuses (operand expr fuel) p (Rejects limit room p.acrossLines (.operand p.last?) p.upcoming) := by
  refine ((expectOperand_refuses Token.requireOperand).imp fun e he ↦ .operand he).bind
    fun t p₁ h₁ ↦ ?_
  obtain ⟨hm₁, hn⟩ := expectOperand_ok h₁
  have hlast := last?_of_expectOperand h₁
  have hroom₁ := hroom.moves hm₁
  refine ⟨hm₁.contents, ?_⟩
  have suffixed {start : Expr} {p₂ : Parser}
      (hp : Parsed p.acrossLines (.primary start) p.upcoming p₁ p₂) :
      Refuses (suffixes expr fuel start) p₂
        (Rejects limit room p.acrossLines (.operand p.last?) p.upcoming) := by
    have hm := hm₁.trans hp.moves
    have hrest := suffixes_refuses hexpr hrefuse fuel (hroom.moves hm) (hp.moves.fits hp.fits)
    rw [hm.acrossLines] at hrest
    exact hrest.imp fun e he ↦ .suffixed (hroom₁.readsWithin hp) he
  have unary (hk : t.kind.IsUnary) :
      Refuses (do return .unary t (← expr BindingPower.unaryOperand) : Action Expr) p₁
        (Rejects limit room p.acrossLines (.operand p.last?) p.upcoming) := by
    have hx := hrefuse BindingPower.unaryOperand p₁ room hroom₁
    rw [hm₁.acrossLines, hlast] at hx
    refine (hx.imp fun e he ↦ .unary hn hk he).bind fun x p₂ h₂ ↦ ?_
    exact ⟨(hexpr _ p₁ x p₂ h₂).moves.contents, .pure _⟩
  have literal (hs : startsExpression t.kind = t.kind.isLiteral) :
      Refuses (literalOperand expr fuel t) p₁
        (Rejects limit room p.acrossLines (.operand p.last?) p.upcoming) := by
    unfold literalOperand
    cases hl : Literal.ofToken? t with
    | none =>
      refine .failExpected (.operand (.token hn ?_))
      have hk : t.kind.isLiteral = false := by
        unfold Literal.ofToken? at hl
        split at hl
        · cases hl
        · simp_all
      simp [Token.requireOperand, hs, hk]
    | some l =>
      rw [← Literal.token_of_ofToken? hl] at hn
      exact suffixed ⟨.refl p₁, .literal hn, hm₁.fits hf⟩
  cases hk : t.kind with
  | identifier text =>
    have ht : t = Identifier.token ⟨text, t.span⟩ := by rw [Identifier.token, ← hk]
    rw [ht] at hn
    simp only
    exact suffixed ⟨.refl p₁, .name hn, hm₁.fits hf⟩
  | openParen =>
    refine (group_refuses hexpr hrefuse hlast hn hk hroom₁).bind fun start p₂ h₂ ↦ ?_
    have hp := group_accepts hexpr hn hk h₂
    exact ⟨hp.moves.contents, suffixed hp⟩
  | logicalNot => exact unary (.inr (.inl hk))
  | operation op =>
    cases op with
    | multiplication =>
      rw [← hm₁.acrossLines] at hn
      have hd : Refuses (dereference t) p₁
          (Rejects limit room p₁.acrossLines (.operand p.last?) p.upcoming) :=
        dereference_refuses hlast hn hk
      rw [hm₁.acrossLines] at hd
      refine hd.bind fun start p₂ h₂ ↦ ?_
      have hp := dereference_accepts hn hk (hm₁.fits hf) h₂
      rw [hm₁.acrossLines] at hp
      exact ⟨hp.moves.contents, suffixed hp⟩
    | subtraction => exact unary (.inl hk)
    | bitwiseNot => exact unary (.inr (.inr hk))
    | _ => exact literal (by rw [hk]; rfl)
  | _ => exact literal (by rw [hk]; rfl)

theorem operators_refuses (fuel least : Nat) {left : Expr} (hroom : p.HasRoom limit room)
    (hf : p.Fits left.need) :
    Refuses (operators expr least fuel left) p
      (Rejects limit room p.acrossLines (.operators least left) p.upcoming) := by
  induction fuel generalizing p left with
  | zero => exact .internal
  | succ fuel ih =>
    unfold Refuses
    rw [operators, continuesAcrossLines_bind]
    refine ((advance_refuses p.acrossLines none fun _ ↦ none).imp fun e he ↦ .operators he).bind
      fun r p₁ h₁ ↦ ?_
    cases r with
    | none => exact ⟨(advance_none h₁).1.contents, .pure _⟩
    | some t =>
      obtain ⟨hm₁, hn, -⟩ := advance_some h₁
      refine ⟨hm₁.contents, ?_⟩
      cases hp : t.kind.bindingPower? with
      | none =>
        simp only [hp]
        exact giveBack_refuses left
      | some power =>
        simp only [hp]
        by_cases hlt : power.left < least
        · rw [if_pos hlt]
          exact giveBack_refuses left
        · rw [if_neg hlt]
          have hle := Nat.le_of_not_lt hlt
          have hroom₁ := hroom.moves hm₁
          have hright := hrefuse power.right p₁ room hroom₁
          rw [hm₁.acrossLines, last?_of_advance h₁] at hright
          refine (hright.imp fun e he ↦ .rightOperand hn hp hle he).bind fun right p₂ h₂ ↦ ?_
          have hparsed := hexpr _ p₁ right p₂ h₂
          rw [hm₁.acrossLines] at hparsed
          have hm := hm₁.trans hparsed.moves
          have hreads := hroom₁.readsWithin hparsed
          refine ⟨hparsed.moves.contents, Refuses.bind ?_ fun joined p₃ h₃ ↦ ?_⟩
          · exact join_refuses fun ha hv ↦ .target hn hp hle hreads ha hv
          · obtain ⟨rfl, hj⟩ := join_ok h₃
            have hjoined := (hf.max ((hm₁.fits_iff _).1 hparsed.fits)).mono (Expr.need_of_joins hj)
            have hrest := ih (hroom.moves hm) (hm.fits hjoined)
            rw [hm.acrossLines] at hrest
            exact ⟨rfl, hrest.imp fun e he ↦ .moreOperators hn hp hle hreads hj he⟩

end

/-- Every error inside an expression is accounted for. -/
theorem expression_refuses (fuel least : Nat) (hroom : p.HasRoom limit room) :
    Refuses (expression fuel least) p
      (Rejects limit room p.acrossLines (.expression p.last? least) p.upcoming) := by
  induction fuel generalizing least p room with
  | zero => exact .internal
  | succ fuel ih =>
    refine nested_refuses hroom ?_ fun m p₁ hm hb hu hl hroom₁ ↦ ?_
    · rintro rfl
      exact .tooDeep
    · subst hm
      rw [← hb, ← hu, ← hl]
      have haccepts : ∀ least p, Accepts (expression fuel least) (.expression least) p :=
        fun least p ↦ expression_accepts fuel least
      have hrefuse : ∀ least p room, HasRoom limit room p → Refuses (expression fuel least) p
          (Rejects limit room p.acrossLines (.expression p.last? least) p.upcoming) :=
        fun least p room ↦ ih least
      have hone : p₁.Fits 1 := (hroom₁.fits_iff 1).2 (Nat.le_add_left 1 m)
      have hfirst := operand_refuses haccepts hrefuse (fuel + 1) hroom₁ hone
      refine (hfirst.imp fun e he ↦ .left he).bind fun left p₂ h₂ ↦ ?_
      have hp := operand_accepts haccepts (fuel + 1) hone left p₂ h₂
      have hrest := operators_refuses haccepts hrefuse (fuel + 1) least (hroom₁.moves hp.moves)
        (hp.moves.fits hp.fits)
      rw [hp.moves.acrossLines] at hrest
      exact ⟨hp.moves.contents, hrest.imp fun e he ↦ .expression (hroom₁.readsWithin hp) he⟩

end Action

end Linewise.Parser
