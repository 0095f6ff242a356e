import Linewise.Proofs.Grammar

namespace Linewise.Parser

open Upcoming

def upcoming (p : Parser) : List Upcoming := p.lexer.upcoming

def acrossLines (p : Parser) : Bool := 0 < p.openDelimiters

def contents (p : Parser) : List (Except LexicalError Token) :=
  p.tokens.toList.map .ok ++ p.upcoming.map (·.content)

/-- One state comes from another by reading tokens and giving some of them back. -/
structure Moves (p q : Parser) : Prop where
  contents : q.contents = p.contents
  result : q.result = p.result
  openDelimiters : q.openDelimiters = p.openDelimiters
  nestingDepth : q.nestingDepth = p.nestingDepth
  nestingLimit : q.nestingLimit = p.nestingLimit

namespace Moves

theorem refl (p : Parser) : Moves p p := ⟨rfl, rfl, rfl, rfl, rfl⟩

theorem trans {p q r : Parser} (h : Moves p q) (h' : Moves q r) : Moves p r :=
  ⟨h'.contents.trans h.contents, h'.result.trans h.result,
    h'.openDelimiters.trans h.openDelimiters, h'.nestingDepth.trans h.nestingDepth,
    h'.nestingLimit.trans h.nestingLimit⟩

theorem acrossLines {p q : Parser} (h : Moves p q) : q.acrossLines = p.acrossLines := by
  simp only [Parser.acrossLines, h.openDelimiters]

end Moves

def Fits (p : Parser) (n : Nat) : Prop := ∀ limit ∈ p.nestingLimit, p.nestingDepth + n ≤ limit + 1

theorem Moves.fits_iff {p q : Parser} (h : Moves p q) (n : Nat) : q.Fits n ↔ p.Fits n := by
  rw [Fits, Fits, h.nestingLimit, h.nestingDepth]

theorem Moves.fits {p q : Parser} (h : Moves p q) {n : Nat} (hn : p.Fits n) : q.Fits n :=
  (h.fits_iff n).2 hn

theorem Fits.mono {p : Parser} {m n : Nat} (h : p.Fits n) (hm : m ≤ n) : p.Fits m :=
  fun limit hl ↦ Nat.le_trans (Nat.add_le_add_left hm _) (h limit hl)

theorem Fits.max {p : Parser} {m n : Nat} (hm : p.Fits m) (hn : p.Fits n) : p.Fits (max m n) := by
  intro limit hl
  have := hm limit hl
  have := hn limit hl
  omega

namespace Action

variable {α β : Type}

theorem bind_eq_ok {x : Action α} {f : α → Action β} {p r : Parser} {b : β} :
    (x >>= f) p = .ok b r ↔ ∃ a q, x p = .ok a q ∧ f a q = .ok b r := by
  simp only [bind, EStateM.bind]
  cases x p with
  | ok a q =>
    refine ⟨fun h ↦ ⟨a, q, rfl, h⟩, ?_⟩
    rintro ⟨a', q', h, h'⟩
    cases h
    exact h'
  | error e q => simp

theorem bind_of_ok {x : Action α} {f : α → Action β} {p q : Parser} {a : α} (h : x p = .ok a q) :
    (x >>= f) p = f a q := by
  simp only [bind, EStateM.bind, h]

theorem pure_eq_ok {a b : α} {p q : Parser} :
    (pure a : Action α) p = .ok b q ↔ a = b ∧ p = q := by
  simp [pure, EStateM.pure]

theorem fail_ne_ok {cause : GrammarCause} {span : Option Span} {p q : Parser} {a : α} :
    (fail cause span : Action α) p ≠ .ok a q := by
  intro h
  cases h

theorem failExpected_ne_ok {what : String} {found : Token} {p q : Parser} {a : α} :
    (failExpected what found : Action α) p ≠ .ok a q := fail_ne_ok

theorem continuesAcrossLines_bind (f : Bool → Action α) (p : Parser) :
    (continuesAcrossLines >>= f) p = f p.acrossLines p := rfl

theorem advance_eq (b : Bool) (p : Parser) :
    advance b p = match p.lexer.readToken b with
      | .ok true l => .ok l.lastToken? { p with lexer := l }
      | .ok false l => .ok none { p with lexer := l }
      | .error e l => .error (.rejected (.lexical e)) { p with lexer := l } := by
  simp only [advance, readToken, bind, EStateM.bind]
  cases p.lexer.readToken b with
  | ok r l => cases r <;> rfl
  | error e l => rfl

theorem advance_none {b : Bool} {p q : Parser} (h : advance b p = .ok none q) :
    Moves p q ∧ q.upcoming = p.upcoming ∧ ∀ i ∈ p.upcoming.head?, ¬ i.InReach b := by
  rw [advance_eq] at h
  have hd := p.lexer.readToken_delivers b
  cases hr : p.lexer.readToken b with
  | error e l => simp [hr] at h
  | ok found l =>
    rw [hr] at hd h
    generalize hu : p.lexer.upcoming = items at hd
    cases hd with
    | token reach tokens held ahead => simp [Lexer.lastToken?, tokens] at h
    | nothing reach tokens held ahead =>
      cases h
      have hq : ({ p with lexer := l } : Parser).upcoming = p.upcoming := ahead.trans hu.symm
      refine ⟨⟨?_, rfl, rfl, rfl, rfl⟩, hq, ?_⟩
      · rw [contents, contents, hq]
        simp only [Parser.tokens, tokens]
      · intro i hi
        exact reach i (by rwa [upcoming, hu] at hi)

theorem advance_some {b : Bool} {p q : Parser} {token : Token}
    (h : advance b p = .ok (some token) q) :
    Moves p q ∧ Next b p.upcoming token q.upcoming ∧
      q.tokens = p.tokens.push token ∧ q.lexer.held = none := by
  rw [advance_eq] at h
  have hd := p.lexer.readToken_delivers b
  cases hr : p.lexer.readToken b with
  | error e l => simp [hr] at h
  | ok found l =>
    rw [hr] at hd h
    generalize hu : p.lexer.upcoming = items at hd
    cases hd with
    | @token later t rest _ reach tokens held ahead =>
      have ht : l.lastToken? = some t := by simp [Lexer.lastToken?, tokens]
      simp only [ht] at h
      cases h
      refine ⟨⟨?_, rfl, rfl, rfl, rfl⟩, ⟨later, ?_, reach⟩, tokens, held⟩
      · simp [contents, upcoming, Parser.tokens, tokens, ahead, hu]
      · simp only [upcoming, hu, ahead]
    | nothing reach tokens held ahead => cases h

theorem exists_advance_none {b : Bool} {p : Parser}
    (h : ∀ i ∈ p.upcoming.head?, ¬ i.InReach b) : ∃ q, advance b p = .ok none q := by
  have hd := p.lexer.readToken_delivers b
  rw [advance_eq]
  rw [upcoming] at h
  generalize p.lexer.upcoming = items at hd h
  cases hr : p.lexer.readToken b with
  | error e l =>
    rw [hr] at hd
    cases hd with
    | failure reach => exact absurd reach (h _ rfl)
  | ok found l =>
    rw [hr] at hd
    cases hd with
    | token reach => exact absurd reach (h _ rfl)
    | nothing => exact ⟨_, rfl⟩

theorem exists_advance_some {b : Bool} {p : Parser} {token : Token} {ys : List Upcoming}
    (h : Next b p.upcoming token ys) :
    ∃ q, advance b p = .ok (some token) q ∧ q.upcoming = ys := by
  obtain ⟨later, hx, reach⟩ := h
  have hd := p.lexer.readToken_delivers b
  rw [advance_eq]
  rw [upcoming] at hx
  rw [hx] at hd
  cases hr : p.lexer.readToken b with
  | error e l =>
    rw [hr] at hd
    cases hd
  | ok found l =>
    rw [hr] at hd
    cases hd with
    | token _ tokens _ ahead =>
      refine ⟨{ p with lexer := l }, ?_, ahead⟩
      simp [Lexer.lastToken?, tokens]
    | nothing reach' => exact absurd reach (reach' _ rfl)

/-- After a token was read it can be given back, which only marks it as being in reach. -/
theorem unread_of_advance {b : Bool} {p q : Parser} {token : Token}
    (h : advance b p = .ok (some token) q) :
    ∃ r, unread q = .ok () r ∧ Moves p r ∧ r.upcoming = looked b p.upcoming := by
  obtain ⟨hm, hn, tokens, held⟩ := advance_some h
  have hu := Lexer.unreadToken_push held tokens
  have hr := Lexer.upcoming_withTokens_some q.lexer p.tokens token
  rw [← Lexer.upcoming_of_not_held held] at hr
  let r : Parser := { q with lexer := q.lexer.withTokens p.tokens (some token) }
  have hl : r.upcoming = looked b p.upcoming := hr.trans hn.looked_eq.symm
  have hc : r.contents = p.contents := by
    rw [contents, hl, map_content_looked]
    rfl
  exact ⟨r, by simp only [unread, hu, r],
    ⟨hc, hm.result, hm.openDelimiters, hm.nestingDepth, hm.nestingLimit⟩, hl⟩

theorem exists_unread {b : Bool} {p : Parser} {token : Token} {ys : List Upcoming}
    (h : Next b p.upcoming token ys) : ∃ q r, advance b p = .ok (some token) q ∧
      unread q = .ok () r ∧ Moves p r ∧ r.upcoming = looked b p.upcoming := by
  obtain ⟨q, hq, -⟩ := exists_advance_some h
  obtain ⟨r, hr⟩ := unread_of_advance hq
  exact ⟨q, r, hq, hr⟩

theorem stops_of_unread {b : Bool} {p q r : Parser} {token : Token} (ends : TokenKind → Prop)
    (h : advance b p = .ok (some token) q) (hu : unread q = .ok () r) (he : ends token.kind) :
    Moves p r ∧ r.upcoming = looked b p.upcoming ∧ Stops b ends p.upcoming := by
  obtain ⟨r', hu', hm, hr⟩ := unread_of_advance h
  obtain rfl : r' = r := by
    rw [hu'] at hu
    cases hu
    rfl
  obtain ⟨-, ⟨later, hx, reach⟩, -⟩ := advance_some h
  refine ⟨hm, hr, fun i hi _ ↦ ?_⟩
  rw [hx] at hi
  obtain rfl : _ = i := by simpa using hi
  exact ⟨token, rfl, he⟩

theorem stops_of_advance_none {b : Bool} {ends : TokenKind → Prop} {p q : Parser}
    (h : advance b p = .ok none q) :
    Moves p q ∧ q.upcoming = looked b p.upcoming ∧ Stops b ends p.upcoming := by
  obtain ⟨hm, hq, hn⟩ := advance_none h
  refine ⟨hm, hq.trans (looked_of_not_inReach hn).symm, fun i hi reach ↦ absurd reach (hn i hi)⟩

def begun (p : Parser) : Parser := { p with lexer := p.lexer.clearTokens, openDelimiters := 0 }

theorem upcoming_begun (p : Parser) : (begun p).upcoming = p.upcoming :=
  Lexer.upcoming_clearTokens p.lexer

def literalOperand (expr : Nested) (fuel : Nat) (token : Token) : Action Expr :=
  match Literal.ofToken? token with
  | some literal => suffixes expr fuel (.literal literal)
  | none => failExpected "expression" token

def parametersFrom (fuel : Nat) (name : Identifier) : Action (List Parameter × Token) := do
  let type ← parameterType
  let (more, closeParen) ← parameters fuel .commaOrClose
  return (⟨name, type⟩ :: more, closeParen)

def headerFrom (fuel : Nat) (keyword : Token) (name : Identifier) (openParen : Token) :
    Action FunctionHeader := do
  let (parameters, closeParen) ← parameters fuel .nameOrClose
  let (returnType, bodyOpen) ← returnType
  if bodyOpen.kind ≠ .openCurlyBrace then
    failExpected "'\x7b' (as start of function body)" bodyOpen
  return ⟨keyword, name, openParen, parameters, closeParen, returnType, bodyOpen⟩

end Action

end Linewise.Parser
