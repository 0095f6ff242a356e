import Linewise.Proofs.Parser.ProgramCompleteness
import Linewise.Proofs.Relocate

namespace Linewise.Parser

variable {g : Span → Span} {d n m : Nat}

/-- Two states that are the same to the parser up to the places of the tokens, with less than `n` items
ahead, and `d` expressions around the current one. -/
structure Alike (g : Span → Span) (d n : Nat) (p q : Parser) : Prop where
  upcoming : q.upcoming = p.upcoming.map (Upcoming.relocate g)
  length_lt : p.upcoming.length < n
  tokens : q.tokens = p.tokens.map (Token.relocate g)
  result : q.result = p.result.map (Construct.relocate g)
  openDelimiters : q.openDelimiters = p.openDelimiters
  depth : p.nestingDepth = d
  depth_right : q.nestingDepth = d
  nestingLimit : q.nestingLimit = p.nestingLimit

namespace Alike

variable {p q : Parser}

theorem mono (h : Alike g d n p q) (hm : n ≤ m) : Alike g d m p q :=
  { h with length_lt := Nat.lt_of_lt_of_le h.length_lt hm }

theorem lastToken? (h : Alike g d n p q) :
    q.lexer.lastToken? = p.lexer.lastToken?.map (Token.relocate g) := by
  have ht : q.lexer.tokens = p.lexer.tokens.map (Token.relocate g) := h.tokens
  rw [Lexer.lastToken?, ht, Array.back?_map]
  rfl

theorem lastSpan? (h : Alike g d n p q) :
    q.lexer.lastToken?.map (·.span) = (p.lexer.lastToken?.map (·.span)).map g := by
  rw [h.lastToken?, Option.map_map, Option.map_map]
  rfl

theorem acrossLines (h : Alike g d n p q) : q.acrossLines = p.acrossLines := by
  simp only [Parser.acrossLines, h.openDelimiters]

end Alike

inductive Agree {α : Type} (g : Span → Span) (d n : Nat) (f : α → α) :
    EStateM.Result (Failure SyntaxError) Parser α →
    EStateM.Result (Failure SyntaxError) Parser α → Prop
  | ok {a : α} {p q : Parser} : Alike g d n p q → Agree g d n f (.ok a p) (.ok (f a) q)
  | rejected {e : SyntaxError} {p q : Parser} : p.nestingDepth = d → q.nestingDepth = d →
      Agree g d n f (.error (.rejected e) p) (.error (.rejected (e.relocate g)) q)

def JustRead (t : Token) (p : Parser) : Prop :=
  p.lexer.held = none ∧ ∃ tokens : Array Token, p.lexer.tokens = tokens.push t

namespace Action

variable {α β : Type}

/-- In states that are alike, with less than `n` items ahead, the two steps do the same, after which
there are less than `m`. -/
def Corresponds (g : Span → Span) (n m : Nat) (f : α → α) (x y : Action α) : Prop :=
  ∀ d p q, Alike g d n p q → Agree g d m f (x p) (y q)

def CorrespondsAfter (t : Token) (g : Span → Span) (n m : Nat) (f : α → α) (x y : Action α) : Prop :=
  ∀ d p q, Alike g d n p q → JustRead t p → JustRead (t.relocate g) q → Agree g d m f (x p) (y q)

theorem Agree.bind {f : α → α} {h : β → β} {x y : Action α} {k k' : α → Action β} {l : Nat} {p q : Parser}
    (hxy : Agree g d m f (x p) (y q)) (hk : ∀ a, Corresponds g m l h (k a) (k' (f a))) :
    Agree g d l h ((x >>= k) p) ((y >>= k') q) := by
  simp only [Bind.bind, EStateM.bind]
  generalize x p = r at hxy
  generalize y q = r' at hxy
  cases hxy with
  | ok hpq => exact hk _ _ _ _ hpq
  | rejected hp hq => exact .rejected hp hq

namespace Corresponds

variable {f : α → α} {h : β → β} {x y : Action α} {l : Nat}

theorem pure {a : α} (hn : n ≤ m) : Corresponds g n m f (pure a) (pure (f a)) :=
  fun _ _ _ hpq ↦ .ok (hpq.mono hn)

theorem fail (cause : GrammarCause) {span span' : Option Span} (hs : span' = span.map g) :
    Corresponds g n m f (fail cause span) (fail cause span') := by
  intro d p q hpq
  rw [hs]
  exact .rejected hpq.depth hpq.depth_right

theorem failExpected (what : String) (found : Token) :
    Corresponds g n m f (failExpected what found) (failExpected what (found.relocate g)) :=
  fail _ rfl

theorem bind {k k' : α → Action β} (hx : Corresponds g n m f x y)
    (hk : ∀ a, Corresponds g m l h (k a) (k' (f a))) :
    Corresponds g n l h (x >>= k) (y >>= k') := fun d p q hpq ↦ Agree.bind (hx d p q hpq) hk

theorem after (hx : Corresponds g n m f x y) (t : Token) : CorrespondsAfter t g n m f x y :=
  fun d p q hpq _ _ ↦ hx d p q hpq

theorem of_le_zero (hn : n ≤ 0) : Corresponds g n m f x y :=
  fun _ _ _ hpq ↦ absurd hpq.length_lt (by omega)

theorem mono (hx : Corresponds g n m f x y) {n' m' : Nat} (hn : n' ≤ n) (hm : m ≤ m') :
    Corresponds g n' m' f x y := by
  intro d p q hpq
  have hxy := hx d p q (hpq.mono hn)
  generalize x p = r at hxy
  generalize y q = r' at hxy
  cases hxy with
  | ok hpq' => exact .ok (hpq'.mono hm)
  | rejected hp hq => exact .rejected hp hq

theorem ite {c : Prop} [Decidable c] {x' y' : Action α} (hx : Corresponds g n m f x y)
    (hx' : Corresponds g n m f x' y') :
    Corresponds g n m f (if c then x else x') (if c then y else y') := by
  split
  · exact hx
  · exact hx'

theorem modify {u : Parser → Parser} (hu : ∀ d p q, Alike g d n p q → Alike g d n (u p) (u q)) :
    Corresponds g n n id (modify u) (modify u) := fun d p q hpq ↦ .ok (hu d p q hpq)

theorem acrossLines_bind {k k' : Bool → Action α} (hk : ∀ b, Corresponds g n m f (k b) (k' b)) :
    Corresponds g n m f (continuesAcrossLines >>= k) (continuesAcrossLines >>= k') := by
  intro d p q hpq
  rw [continuesAcrossLines_bind, continuesAcrossLines_bind, hpq.acrossLines]
  exact hk _ d p q hpq

/-- Reading a token, and what is done with or without it. -/
theorem advance_bind {b : Bool} {k k' : Option Token → Action α}
    (hnone : Corresponds g n m f (k none) (k' none))
    (hsome : ∀ t, CorrespondsAfter t g (n - 1) m f (k (some t)) (k' (some (t.relocate g)))) :
    Corresponds g n m f (advance b >>= k) (advance b >>= k') := by
  intro d p q hpq
  have hp := p.lexer.readToken_delivers b
  have hq := q.lexer.readToken_delivers b
  have hu : q.lexer.upcoming = p.lexer.upcoming.map (Upcoming.relocate g) := hpq.upcoming
  have hl : p.lexer.upcoming.length < n := hpq.length_lt
  have ht : q.lexer.tokens = p.lexer.tokens.map (Token.relocate g) := hpq.tokens
  rw [hu] at hq
  simp only [Bind.bind, EStateM.bind, advance_eq]
  -- What lies ahead of both readers is the same up to places, so both find a token, an error or nothing in
  -- reach.
  generalize p.lexer.upcoming = items at hp hq hl
  generalize p.lexer.readToken b = r at hp
  generalize q.lexer.readToken b = r' at hq
  cases hp with
  | @token later t rest _ reach tokens held ahead =>
    cases hq with
    | nothing reach' => exact absurd reach (reach' ⟨later, .ok (t.relocate g)⟩ rfl)
    | token _ tokens' held' ahead' =>
      simp only [Lexer.lastToken?, tokens, tokens', Array.back?_push]
      refine hsome t d _ _ ?_ ⟨held, _, tokens⟩ ⟨held', _, tokens'⟩
      refine { hpq with upcoming := ?_, length_lt := ?_, tokens := ?_ }
      · simp only [Parser.upcoming, ahead, ahead']
      · simp only [Parser.upcoming, ahead]
        simp only [List.length_cons] at hl
        omega
      · simp only [Parser.tokens, tokens, tokens', ht, Array.map_push]
  | @failure later e _ reach =>
    cases hq with
    | nothing reach' => exact absurd reach (reach' ⟨later, .error (e.relocate g)⟩ rfl)
    | failure => exact .rejected hpq.depth hpq.depth_right
  | @nothing _ t reach tokens held ahead =>
    have hnot : ∀ i ∈ (items.map (Upcoming.relocate g)).head?, ¬ i.InReach b := by
      intro i hi
      rw [List.head?_map] at hi
      obtain ⟨j, hj, rfl⟩ := Option.map_eq_some_iff.1 hi
      exact reach j hj
    generalize hitems : items.map (Upcoming.relocate g) = items' at hq hnot
    cases hq with
    | token reach' => exact absurd reach' (hnot _ rfl)
    | failure reach' => exact absurd reach' (hnot _ rfl)
    | nothing _ tokens' held' ahead' =>
      refine hnone d _ _ { hpq with upcoming := ?_, length_lt := ?_, tokens := ?_ }
      · simp only [Parser.upcoming, ahead, ahead', hitems]
      · simp only [Parser.upcoming, ahead]
        exact hl
      · simp only [Parser.tokens, tokens, tokens', ht]

end Corresponds

theorem CorrespondsAfter.ite {f : α → α} {t : Token} {c : Prop} [Decidable c] {x y x' y' : Action α}
    (hx : CorrespondsAfter t g n m f x y) (hx' : CorrespondsAfter t g n m f x' y') :
    CorrespondsAfter t g n m f (if c then x else x') (if c then y else y') := by
  split
  · exact hx
  · exact hx'

theorem CorrespondsAfter.bind {f : α → α} {h : β → β} {t : Token} {x y : Action α} {k k' : α → Action β}
    {l : Nat} (hx : CorrespondsAfter t g n m f x y) (hk : ∀ a, Corresponds g m l h (k a) (k' (f a))) :
    CorrespondsAfter t g n l h (x >>= k) (y >>= k') :=
  fun d p q hpq hp hq ↦ Agree.bind (hx d p q hpq hp hq) hk

theorem CorrespondsAfter.unread_bind {f : α → α} {t : Token} {k k' : Unit → Action α}
    (hk : Corresponds g n m f (k ()) (k' ())) :
    CorrespondsAfter t g (n - 1) m f (unread >>= k) (unread >>= k') := by
  intro d p q hpq hp hq
  obtain ⟨hp, tokens, ht⟩ := hp
  obtain ⟨hq, tokens', ht'⟩ := hq
  have hpush : tokens'.push (t.relocate g) = (tokens.map (Token.relocate g)).push (t.relocate g) := by
    rw [← ht', ← Array.map_push, ← ht]
    exact hpq.tokens
  obtain rfl : tokens' = tokens.map (Token.relocate g) := by
    simpa using congrArg Array.pop hpush
  simp only [Bind.bind, EStateM.bind, unread, Lexer.unreadToken_push hp ht,
    Lexer.unreadToken_push hq ht']
  refine hk d _ _ { hpq with upcoming := ?_, length_lt := ?_, tokens := rfl }
  · simp only [Parser.upcoming, Lexer.upcoming_withTokens_some]
    rw [← Lexer.upcoming_of_not_held hp, ← Lexer.upcoming_of_not_held hq]
    exact congrArg _ hpq.upcoming
  · have hl : p.lexer.upcoming.length < n - 1 := hpq.length_lt
    simp only [Parser.upcoming, Lexer.upcoming_withTokens_some, List.length_cons]
    rw [← Lexer.upcoming_of_not_held hp]
    omega

theorem CorrespondsAfter.unread {t : Token} : CorrespondsAfter t g (n - 1) n id unread unread := by
  have h : CorrespondsAfter t g (n - 1) n id (Action.unread >>= pure) (Action.unread >>= pure) :=
    .unread_bind (.pure (a := ()) (Nat.le_refl n))
  simpa only [bind_pure] using h

theorem expectToken_corresponds (name : String) :
    Corresponds g n (n - 1) (Token.relocate g) (expectToken name) (expectToken name) := by
  refine .advance_bind ?_ fun t ↦ ?_
  · exact .fail _ rfl
  · exact (Corresponds.pure (Nat.le_refl _)).after t

theorem matchToken_corresponds (kind : TokenKind) (b : Bool) :
    Corresponds g n n (Option.map (Token.relocate g)) (matchToken kind b) (matchToken kind b) := by
  refine .advance_bind ?_ fun t ↦ ?_
  · exact .pure (a := none) (Nat.le_refl _)
  · refine .ite ?_ ?_
    · exact (Corresponds.pure (a := some t) (Nat.sub_le n 1)).after t
    · exact .unread_bind (Corresponds.pure (a := none) (Nat.le_refl n))

theorem expectStatementEnd_corresponds :
    Corresponds g n n id expectStatementEnd expectStatementEnd := by
  refine .advance_bind ?_ fun t ↦ ?_
  · exact .pure (a := ()) (Nat.le_refl _)
  · exact .ite .unread ((Corresponds.failExpected _ t).after t)

theorem Corresponds.enclosed {f : α → α} {x y : Action α} (h : Corresponds g n m f x y) :
    Corresponds g n m f (enclosed x) (enclosed y) := by
  refine (Corresponds.modify fun d p q hpq ↦ ?_).bind fun _ ↦ h.bind fun a ↦
    (Corresponds.modify fun d p q hpq ↦ ?_).bind fun _ ↦ .pure (Nat.le_refl _)
  · exact { hpq with openDelimiters := congrArg (· + 1) hpq.openDelimiters }
  · exact { hpq with openDelimiters := congrArg (· - 1) hpq.openDelimiters }

theorem Corresponds.nested {f : α → α} {x y : Action α} (h : Corresponds g n m f x y) :
    Corresponds g n m f (nested x) (nested y) := by
  intro d p q hpq
  have hlimit : q.nestingLimit.filter (· ≤ q.nestingDepth) =
      p.nestingLimit.filter (· ≤ p.nestingDepth) := by
    rw [hpq.nestingLimit, hpq.depth, hpq.depth_right]
  have hdeeper : Alike g (d + 1) n { p with nestingDepth := p.nestingDepth + 1 }
      { q with nestingDepth := q.nestingDepth + 1 } :=
    { hpq with depth := congrArg (· + 1) hpq.depth, depth_right := congrArg (· + 1) hpq.depth_right }
  have hbody := h _ _ _ hdeeper
  simp only [Action.nested, hlimit, hpq.lastSpan?]
  cases p.nestingLimit.filter (· ≤ p.nestingDepth) with
  | some limit => exact .rejected hpq.depth hpq.depth_right
  | none =>
    dsimp only
    generalize x { p with nestingDepth := p.nestingDepth + 1 } = r at hbody ⊢
    generalize y { q with nestingDepth := q.nestingDepth + 1 } = r' at hbody ⊢
    cases hbody with
    | ok hpq' =>
      exact .ok { hpq' with
        depth := congrArg (· - 1) hpq'.depth, depth_right := congrArg (· - 1) hpq'.depth_right }
    | rejected hp hq => exact .rejected (congrArg (· - 1) hp) (congrArg (· - 1) hq)

theorem expectOperand_corresponds :
    Corresponds g n (n - 1) (Token.relocate g) expectOperand expectOperand := by
  refine .acrossLines_bind fun b ↦ .advance_bind ?_ fun t ↦ ?_
  · dsimp only
    split
    · exact .fail _ rfl
    · intro d p q hpq
      exact Corresponds.fail _ hpq.lastSpan? d p q hpq
  · exact (Corresponds.pure (Nat.le_refl _)).after t

theorem expectClosing_corresponds (kind : TokenKind) (name : String) :
    Corresponds g n (n - 1) (Token.relocate g) (expectClosing kind name) (expectClosing kind name) := by
  refine (expectToken_corresponds name).bind fun t ↦ ?_
  exact .ite (.pure (Nat.le_refl _)) (.failExpected _ t)

/-- The two parsers of nested expressions do the same wherever at most `k` items lie ahead, and take
one of them at least. -/
def NestedCorrespond (g : Span → Span) (k : Nat) (expr expr' : Nested) : Prop :=
  ∀ n ≤ k, ∀ least, Corresponds g n (n - 1) (Expr.relocate g) (expr least) (expr' least)

section

variable {expr expr' : Nested} {k fuel fuel' : Nat}

theorem NestedCorrespond.mono {l : Nat} (h : NestedCorrespond g k expr expr') (hl : l ≤ k) :
    NestedCorrespond g l expr expr' := fun n hn ↦ h n (Nat.le_trans hn hl)

theorem arguments_corresponds (h : NestedCorrespond g n expr expr') (hf : n ≤ fuel) (hf' : n ≤ fuel') :
    Corresponds g n n (fun r ↦ (Expr.relocateAll g r.1, r.2.relocate g))
      (arguments expr fuel) (arguments expr' fuel') := by
  induction fuel generalizing n fuel' with
  | zero => exact .of_le_zero hf
  | succ fuel ih =>
    cases fuel' with
    | zero => exact .of_le_zero hf'
    | succ fuel' =>
      refine (h n (Nat.le_refl n) 0).bind fun argument ↦
        (expectToken_corresponds _).bind fun t ↦ .ite ?_ (.ite ?_ ?_)
      · have more := ih (h.mono (by omega)) (show n - 1 - 1 ≤ fuel by omega)
          (show n - 1 - 1 ≤ fuel' by omega)
        exact more.bind fun r ↦ .pure (a := (argument :: r.1, r.2)) (by omega)
      · exact .pure (a := ([argument], t)) (by omega)
      · exact .failExpected _ t

theorem call_corresponds (h : NestedCorrespond g n expr expr') (hf : n ≤ fuel) (hf' : n ≤ fuel')
    (callee : Expr) (t : Token) :
    Corresponds g n n (Expr.relocate g) (call expr fuel callee t)
      (call expr' fuel' (callee.relocate g) (t.relocate g)) := by
  refine .enclosed ((matchToken_corresponds _ true).bind fun closeToken ↦ ?_)
  cases closeToken with
  | some closeToken => exact .pure (a := Expr.call callee t [] closeToken) (Nat.le_refl n)
  | none =>
    refine (arguments_corresponds h hf hf').bind fun r ↦ ?_
    exact .pure (a := Expr.call callee t r.1 r.2) (Nat.le_refl n)

theorem index_corresponds (h : NestedCorrespond g n expr expr') (target : Expr) (t : Token) :
    Corresponds g n n (Expr.relocate g) (index expr target t)
      (index expr' (target.relocate g) (t.relocate g)) := by
  refine .enclosed ((h n (Nat.le_refl n) 0).bind fun i ↦
    (expectClosing_corresponds _ _).bind fun closeToken ↦ ?_)
  exact .pure (a := Expr.index target t i closeToken) (by omega)

theorem group_corresponds (h : NestedCorrespond g n expr expr') (t : Token) :
    Corresponds g n n (Expr.relocate g) (group expr t) (group expr' (t.relocate g)) := by
  refine .enclosed ((h n (Nat.le_refl n) 0).bind fun inner ↦
    (expectClosing_corresponds _ _).bind fun closeToken ↦ ?_)
  exact .pure (a := Expr.group t inner closeToken) (by omega)

theorem suffixes_corresponds (h : NestedCorrespond g n expr expr') (hf : n ≤ fuel) (hf' : n ≤ fuel')
    (e : Expr) : Corresponds g n n (Expr.relocate g) (suffixes expr fuel e)
      (suffixes expr' fuel' (e.relocate g)) := by
  induction fuel generalizing n fuel' e with
  | zero => exact .of_le_zero hf
  | succ fuel ih =>
    cases fuel' with
    | zero => exact .of_le_zero hf'
    | succ fuel' =>
      have h' : NestedCorrespond g (n - 1) expr expr' := h.mono (Nat.sub_le n 1)
      have more (e : Expr) := (ih h' (by omega) (show n - 1 ≤ fuel' by omega) e).mono (Nat.le_refl _)
        (Nat.sub_le n 1)
      refine .acrossLines_bind fun b ↦ .advance_bind (.pure (Nat.le_refl n)) fun t ↦
        .ite ?_ (.ite ?_ ?_)
      · exact ((call_corresponds h' (by omega) (by omega) e t).bind more).after t
      · exact ((index_corresponds h' e t).bind more).after t
      · exact .unread_bind (.pure (Nat.le_refl n))

theorem dereference_corresponds (star : Token) :
    Corresponds g n (n - 1) (Expr.relocate g) (dereference star) (dereference (star.relocate g)) := by
  refine expectOperand_corresponds.bind fun t ↦ ?_
  rw [Token.identifier?_relocate]
  cases t.identifier? with
  | some name => exact .pure (a := Expr.var ⟨name, some star⟩) (Nat.le_refl _)
  | none => exact .failExpected _ t

theorem operand_corresponds (h : NestedCorrespond g (n - 1) expr expr') (hf : n ≤ fuel)
    (hf' : n ≤ fuel') :
    Corresponds g n (n - 1) (Expr.relocate g) (operand expr fuel) (operand expr' fuel') := by
  refine expectOperand_corresponds.bind fun t ↦ ?_
  have more (e : Expr) := suffixes_corresponds h (show n - 1 ≤ fuel by omega)
    (show n - 1 ≤ fuel' by omega) e
  have unary : Corresponds g (n - 1) (n - 1) (Expr.relocate g)
      (do return .unary t (← expr BindingPower.unaryOperand))
      (do return .unary (t.relocate g) (← expr' BindingPower.unaryOperand)) :=
    (h (n - 1) (Nat.le_refl _) _).bind fun e ↦ .pure (a := Expr.unary t e) (Nat.sub_le _ 1)
  have literal : Corresponds g (n - 1) (n - 1) (Expr.relocate g) (literalOperand expr fuel t)
      (literalOperand expr' fuel' (t.relocate g)) := by
    rw [literalOperand, literalOperand, Literal.ofToken?_relocate]
    cases Literal.ofToken? t with
    | some l => exact more (.literal l)
    | none => exact .failExpected _ t
  dsimp only [Token.relocate_kind]
  cases t.kind with
  | operation op =>
    cases op with
    | multiplication => exact ((dereference_corresponds t).mono (Nat.le_refl _) (Nat.sub_le _ 1)).bind more
    | subtraction => exact unary
    | bitwiseNot => exact unary
    | _ => exact literal
  | logicalNot => exact unary
  | openParen => exact (group_corresponds h t).bind more
  | identifier text => exact more (.var ⟨⟨text, t.span⟩, none⟩)
  | _ => exact literal

theorem join_corresponds (hg : Uniform g) (left : Expr) (operator : Token) (right : Expr) :
    Corresponds g n n (Expr.relocate g) (join left operator right)
      (join (left.relocate g) (operator.relocate g) (right.relocate g)) := by
  refine .ite ?_ ?_
  · cases left with
    | var target => exact .pure (a := Expr.assignment operator target right) (Nat.le_refl n)
    | _ => exact .fail _ (congrArg some (Expr.span_relocate hg _))
  · exact .pure (a := Expr.binary operator left right) (Nat.le_refl n)

theorem operators_corresponds (hg : Uniform g) (h : NestedCorrespond g n expr expr') (hf : n ≤ fuel)
    (hf' : n ≤ fuel') (least : Nat) (left : Expr) :
    Corresponds g n n (Expr.relocate g) (operators expr least fuel left)
      (operators expr' least fuel' (left.relocate g)) := by
  induction fuel generalizing n fuel' left with
  | zero => exact .of_le_zero hf
  | succ fuel ih =>
    cases fuel' with
    | zero => exact .of_le_zero hf'
    | succ fuel' =>
      refine .acrossLines_bind fun b ↦ .advance_bind (.pure (Nat.le_refl n)) fun t ↦ ?_
      dsimp only [Token.relocate_kind]
      cases t.kind.bindingPower? with
      | none => exact .unread_bind (.pure (Nat.le_refl n))
      | some power =>
        refine .ite (.unread_bind (.pure (Nat.le_refl n))) (Corresponds.after ?_ t)
        refine (h (n - 1) (Nat.sub_le n 1) power.right).bind fun right ↦
          (join_corresponds hg left t right).bind fun joined ↦ ?_
        exact (ih (h.mono (by omega)) (by omega) (by omega) joined).mono (Nat.le_refl _) (by omega)

end

/-- Expressions take the same tokens, whatever fuel is left over. -/
theorem expression_corresponds (hg : Uniform g) (fuel fuel' : Nat) :
    NestedCorrespond g (min fuel fuel') (expression fuel) (expression fuel') := by
  induction fuel generalizing fuel' with
  | zero => exact fun n hn least ↦ .of_le_zero (by omega)
  | succ fuel ih =>
    intro n hn least
    cases fuel' with
    | zero => exact .of_le_zero (by omega)
    | succ fuel' =>
      have h : NestedCorrespond g (n - 1) (expression fuel) (expression fuel') :=
        (ih fuel').mono (by omega)
      refine .nested ((operand_corresponds h (by omega) (by omega)).bind fun left ↦ ?_)
      exact operators_corresponds hg h (by omega) (by omega) least left

end Action
end Linewise.Parser
