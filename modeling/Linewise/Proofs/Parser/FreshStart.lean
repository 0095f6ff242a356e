import Linewise.Proofs.Lossless
import Linewise.Proofs.Parser.Balanced
import Linewise.Proofs.Parser.Persistent
import Linewise.Proofs.Parser.Similar
import Linewise.Proofs.Progress
import Linewise.Proofs.Reading

namespace Linewise

theorem Variable.exists_kept (v : Variable) : ∃ t ps, v.pieces = .kept t :: ps := by
  obtain ⟨name, star⟩ := v
  cases star with
  | none => exact ⟨name.token, [], rfl⟩
  | some star => exact ⟨star, [.kept name.token], rfl⟩

theorem Expr.exists_kept (e : Expr) : ∃ t ps, e.pieces = .kept t :: ps := by
  induction e with
  | literal l => exact ⟨l.token, [], by rw [pieces]⟩
  | var v =>
    rw [pieces]
    exact v.exists_kept
  | assignment operator target value =>
    obtain ⟨t, ps, ht⟩ := target.exists_kept
    exact ⟨t, _, by rw [pieces, ht, List.cons_append]⟩
  | binary operator left right ih =>
    obtain ⟨t, ps, ht⟩ := ih
    exact ⟨t, _, by rw [pieces, ht, List.cons_append]⟩
  | unary operator operand => exact ⟨operator, operand.pieces, by rw [pieces]⟩
  | call callee openToken arguments closeToken ih =>
    obtain ⟨t, ps, ht⟩ := ih
    exact ⟨t, _, by rw [pieces, ht, List.cons_append]⟩
  | index target openToken i closeToken ih =>
    obtain ⟨t, ps, ht⟩ := ih
    exact ⟨t, _, by rw [pieces, ht, List.cons_append]⟩
  | group openToken inner closeToken => exact ⟨openToken, _, by rw [pieces]⟩

theorem Construct.exists_kept (c : Construct) : ∃ t ps, c.pieces = .kept t :: ps := by
  cases c with
  | expression e => exact e.exists_kept
  | openBrace t | closeBrace t | passStatement t | breakStatement t => exact ⟨t, [], rfl⟩
  | returnStatement t value => cases value <;> exact ⟨t, _, rfl⟩
  | function f => exact ⟨f.keyword, _, rfl⟩

namespace Parser

/-- One state comes from the other by parsing constructs, whether that succeeds or not. In between, the
construct parsed last may be taken out. -/
inductive Follows (p : Parser) : Parser → Prop
  | refl : Follows p p
  | next {q : Parser} : Follows p q → Follows p (finalState q.next)
  | takeResult {q : Parser} : Follows p q → Follows p (finalState (Action.takeResult q))

variable {p q : Parser} {s : Lexer}

theorem Action.persistent_result (result : Option Construct) (limit : Option Nat) :
    Action.Persistent fun p ↦ p.result = result ∧ p.nestingLimit = limit where
  readToken _ h := h
  unreadToken h _ := h
  counters _ _ h := h

theorem Action.persistent_ascends (marks : List Position) : Action.Persistent fun p ↦ p.lexer.Ascends marks where
  readToken b h := h.readToken b
  unreadToken h hl := h.unreadToken hl
  counters _ _ h := h

structure Idle (p : Parser) : Prop where
  nestingDepth : p.nestingDepth = 0
  nestingLimit : p.nestingLimit = some maxNesting

inductive Ends (p : Parser) : EStateM.Result (Failure SyntaxError) Parser Bool → Prop
  | found {q : Parser} (c : Construct) : Idle q → q.openDelimiters = 0 → q.result = some c →
      ReadsConstruct p.upcoming c q.upcoming → Covers c.pieces q.tokens.toList → Ends p (.ok true q)
  | nothing {q : Parser} : Idle q → q.openDelimiters = 0 → q.result = p.result → q.upcoming = [] →
      Ends p (.ok false q)
  | error (e : Failure SyntaxError) {q : Parser} : Idle q → q.result = p.result → Ends p (.error e q)

theorem Idle.ends (h : Idle p) : Ends p p.next := by
  have hcounters := Action.Balanced.compositional.readConstruct p.fuel (Action.begun p)
  obtain ⟨hresult, hlimit⟩ := (Action.persistent_result p.result p.nestingLimit).compositional.readConstruct
    p.fuel (Action.begun p) ⟨rfl, rfl⟩
  have hnext : p.next = _ := Action.next_eq p.fuel p
  cases hr : Action.readConstruct p.fuel (Action.begun p) with
  | error e q =>
    rw [hr] at hnext hcounters hresult hlimit
    rw [hnext]
    cases hcounters with
    | error _ hdepth => exact .error e ⟨hdepth.trans h.nestingDepth, hlimit.trans h.nestingLimit⟩ hresult
  | ok o q =>
    rw [hr] at hnext hcounters hresult hlimit
    cases hcounters with
    | ok _ hdepth hopen =>
      have hidle : Idle q := ⟨hdepth.trans h.nestingDepth, hlimit.trans h.nestingLimit⟩
      cases o with
      | none =>
        rw [hnext]
        exact .nothing hidle hopen hresult (Action.next_false hnext).2.2
      | some c =>
        obtain ⟨c', hc, hreads, hcovers, -⟩ := next_spells hnext
        rw [hnext]
        exact .found c' ⟨hidle.nestingDepth, hidle.nestingLimit⟩ hopen hc hreads hcovers

theorem Idle.finalState_next (h : Idle p) : Idle (finalState p.next) := by
  have hends := h.ends
  generalize p.next = r at hends
  cases hends with
  | found c hidle => exact hidle
  | nothing hidle => exact hidle
  | error e hidle => exact hidle

theorem Follows.idle (h : Follows (ofLexer s) p) : Idle p := by
  induction h with
  | refl => exact ⟨rfl, rfl⟩
  | next _ ih => exact ih.finalState_next
  | takeResult _ ih => exact ⟨ih.nestingDepth, ih.nestingLimit⟩

theorem Follows.upcoming_eq_nil (h : Follows p q) (hp : p.upcoming = []) : q.upcoming = [] := by
  induction h with
  | refl => exact hp
  | @next q _ ih =>
    obtain ⟨r, hr⟩ := Action.next_of_nothing q.fuel ih
    have hnext : q.next = .ok false r := hr
    rw [hnext]
    exact (Action.next_false hr).2.2
  | takeResult _ ih => exact ih

/-- The construct parsed last begins at one of the marks, and the lexer has gone on from there. -/
structure Marked (marks : List Position) (p : Parser) : Prop where
  ascends : p.lexer.clearTokens.Ascends marks
  result : ∀ c ∈ p.result, ∃ t ps, c.pieces = .kept t :: ps ∧ t.span.start ∈ marks

/-- The next construct is not the one parsed last, and the lexer has gone on from its first token, too. -/
theorem Marked.next {marks : List Position} (h : Marked marks p) (hi : Idle p) :
    (∃ marks', Marked marks' (finalState p.next)) ∧ ∀ q, p.next = .ok true q → q.result ≠ p.result := by
  have hascends : (finalState (Action.readConstruct p.fuel (Action.begun p))).lexer.Ascends marks :=
    (Action.persistent_ascends marks).compositional.readConstruct p.fuel _ h.ascends
  have hlexer : (finalState p.next).lexer =
      (finalState (Action.readConstruct p.fuel (Action.begun p))).lexer := by
    rw [Parser.next, Action.next_eq]
    cases Action.readConstruct p.fuel (Action.begun p) with
    | error e q => rfl
    | ok o q => cases o <;> rfl
  rw [← hlexer] at hascends
  have hends := hi.ends
  generalize p.next = r at hascends hends
  cases hends with
  | error e _ hresult => exact ⟨⟨marks, hascends.clearTokens, hresult ▸ h.result⟩, fun _ hq ↦ by cases hq⟩
  | nothing _ _ hresult => exact ⟨⟨marks, hascends.clearTokens, hresult ▸ h.result⟩, fun _ hq ↦ by cases hq⟩
  | @found q c _ _ hresult _ hcovers =>
    obtain ⟨t, ps, hc⟩ := c.exists_kept
    rw [hc] at hcovers
    obtain ⟨us, hus, -⟩ := Covers.of_kept hcovers
    have hstarts : q.lexer.starts = t.span.start :: (us ++ q.lexer.held.toList).map (·.span.start) := by
      rw [Lexer.starts, show q.lexer.tokens.toList = t :: us from hus]
      rfl
    refine ⟨⟨[t.span.start], hascends.sublist rfl rfl rfl ?_, fun c' hc' ↦ ?_⟩, fun q' hq' heq ↦ ?_⟩
    · refine List.Sublist.trans ?_ (List.sublist_append_right marks _)
      change (List.Sublist _ q.lexer.starts)
      rw [hstarts, List.map_append]
      exact (List.sublist_append_right _ _).cons_cons _
    · obtain rfl : c = c' := by simpa [finalState, hresult] using hc'
      exact ⟨t, ps, hc, List.mem_singleton_self _⟩
    · cases hq'
      obtain ⟨t', ps', hc', hmem⟩ := h.result c (by rw [← heq, hresult]; rfl)
      obtain ⟨rfl, -⟩ : t = t' ∧ ps = ps' := by simpa [hc] using hc'
      refine Position.Before.irrefl t.span.start ((List.pairwise_append.1 hascends.pairwise).2.2 _ hmem _ ?_)
      change t.span.start ∈ q.lexer.starts
      rw [hstarts]
      exact List.mem_cons_self

theorem Follows.marked (h : Follows (ofLexer s) p) (hs : s.Ascends []) : ∃ marks, Marked marks p := by
  induction h with
  | refl => exact ⟨[], hs.clearTokens, by simp [ofLexer]⟩
  | next hq ih =>
    obtain ⟨marks, hmarked⟩ := ih
    exact (hmarked.next hq.idle).1
  | takeResult _ ih =>
    obtain ⟨marks, hmarked⟩ := ih
    have hresult (q : Parser) : (finalState (Action.takeResult q)).result = none := rfl
    exact ⟨marks, hmarked.ascends, by simp [hresult]⟩

inductive Agrees : EStateM.Result (Failure SyntaxError) Parser Bool →
    EStateM.Result (Failure SyntaxError) Parser Bool → Prop
  | found {q q' : Parser} (c : Construct) : q.result = some c → q'.result = some c →
      q.tokens = q'.tokens → Agrees (.ok true q) (.ok true q')
  | nothing {q q' : Parser} : q.tokens = q'.tokens → Agrees (.ok false q) (.ok false q')
  | error (e : Failure SyntaxError) {q q' : Parser} : q.tokens = q'.tokens →
      Agrees (.error e q) (.error e q')

theorem Twin.tokens_eq (h : Twin p q) : p.tokens = q.tokens := by
  obtain ⟨result, hl⟩ := h
  obtain ⟨hd⟩ := hl
  rfl

theorem Idle.agrees (hp : Idle p) (hq : Idle q) (h : p.lexer.SameInput q.lexer) : Agrees p.next q.next := by
  have hbegun : Twin (Action.begun p) (Action.begun q) := by
    rw [Action.begun, Action.begun, hp.nestingDepth, hp.nestingLimit, hq.nestingDepth, hq.nestingLimit]
    exact .mk q.result h.twin
  have hpaired := Action.Similar.compositional.readConstruct p.fuel _ _ hbegun
  rw [Parser.next, Parser.next, show q.fuel = p.fuel from congrArg (· + 1) h.remaining_eq.symm,
    Action.next_eq, Action.next_eq]
  generalize Action.readConstruct p.fuel (Action.begun p) = r at hpaired
  generalize Action.readConstruct p.fuel (Action.begun q) = r' at hpaired
  cases hpaired with
  | error e htwin => exact .error e htwin.tokens_eq
  | ok o htwin =>
    cases o with
    | none => exact .nothing htwin.tokens_eq
    | some c => exact .found c rfl rfl htwin.tokens_eq

/-- In the state nothing is left of what was parsed before but the lexer and the construct parsed last. -/
structure StartsAfresh (p : Parser) : Prop where
  /-- No level of nesting is left open, not even by an error. -/
  nestingDepth : (finalState p.next).nestingDepth = 0
  openDelimiters : ∀ b q, p.next = .ok b q → q.openDelimiters = 0
  /-- The result is the construct that comes next in the text. -/
  found : ∀ q, p.next = .ok true q → ∃ c, q.result = some c ∧ ReadsConstruct p.upcoming c q.upcoming
  /-- If there is no next construct, the result stays as it is. -/
  kept : (∀ q, p.next ≠ .ok true q) → (finalState p.next).result = p.result
  /-- After the last construct none is found any more. -/
  ended : ∀ q, p.next = .ok false q → ∀ r, Follows q r → ∃ r', r.next = .ok false r'
  /-- Whatever the other parser has gone through, with the same input the same comes of it. -/
  agrees : ∀ s' p', Follows (ofLexer s') p' → p.lexer.SameInput p'.lexer → Agrees p.next p'.next

theorem Idle.startsAfresh (h : Idle p) : StartsAfresh p where
  nestingDepth := h.finalState_next.nestingDepth
  openDelimiters b q hq := by
    have hends := h.ends
    rw [hq] at hends
    cases hends with
    | found _ _ hopen => exact hopen
    | nothing _ hopen => exact hopen
  found q hq := by
    have hends := h.ends
    rw [hq] at hends
    cases hends with
    | found c _ _ hresult hreads => exact ⟨c, hresult, hreads⟩
  kept hne := by
    have hends := h.ends
    generalize p.next = r at hends hne
    cases hends with
    | found => exact absurd rfl (hne _)
    | nothing _ _ hresult => exact hresult
    | error _ _ hresult => exact hresult
  ended q hq r hr := by
    have hends := h.ends
    rw [hq] at hends
    cases hends with
    | nothing _ _ _ hq => exact Action.next_of_nothing r.fuel (hr.upcoming_eq_nil hq)
  agrees _ _ h' hsame := h.agrees h'.idle hsame

/-- After any calls of `next`, also failed ones, a parser starts afresh; and if its lexer has only ever been
asked for tokens, the construct found next is never the one found last. -/
theorem next_starts_afresh (h : Follows (ofLexer s) p) : StartsAfresh p ∧
    ∀ {source : String} {keepComments : Bool} {trace : List (Lexer.Call × Lexer.Reply)},
      Lexer.Runs (.ofSource source keepComments) trace s → (∀ i ∈ trace, i.1.onTokens = true) →
        ∀ q, p.next = .ok true q → q.result ≠ p.result := by
  refine ⟨h.idle.startsAfresh, fun hruns ht ↦ ?_⟩
  obtain ⟨marks, hmarked⟩ := h.marked ((Lexer.Ascends.ofText _ _).runs hruns ht)
  exact (hmarked.next h.idle).2

/-- After an error inside brackets, beside a parser whose lexer has read the same tokens. -/
theorem next_starts_afresh_unclosed :
    let p := finalState (ofSource "(a \x7d\nb = 1").next
    let read (s : Lexer) := (s.reply (.readToken true)).2
    p.openDelimiters = 1 ∧ (finalState p.next).openDelimiters = 0 ∧
      (finalState p.next).result ≠ p.result ∧
      Agrees p.next (ofLexer (read (read (read (.ofSource "(a \x7d\nb = 1" false))))).next := by
  intro p read
  obtain ⟨hfresh, hchanges⟩ := next_starts_afresh (p := p) (.next .refl)
  have hok : ∃ q, p.next = .ok true q := by
    have h : (match p.next with | .ok b _ => b | .error _ _ => false) = true := by decide +kernel
    generalize p.next = r at h
    split at h
    · next b q =>
      obtain rfl : b = true := h
      exact ⟨q, rfl⟩
    · cases h
  obtain ⟨q, hq⟩ := hok
  refine ⟨by decide +kernel, ?_, ?_, hfresh.agrees _ _ .refl ?_⟩
  · rw [hq]
    exact hfresh.openDelimiters true q hq
  · rw [hq]
    exact hchanges .nil (by simp) q hq
  · exact ⟨by decide +kernel, by decide +kernel, by decide +kernel, by decide +kernel, by decide +kernel,
      by decide +kernel⟩

end Parser

end Linewise
