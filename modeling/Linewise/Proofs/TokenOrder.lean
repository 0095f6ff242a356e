import Linewise.Proofs.ErrorPlaces
import Linewise.Proofs.Pieces

namespace Linewise

open Upcoming

namespace Upcoming

def From (p : Position) (xs : List Upcoming) : Prop :=
  ∀ t : Token, .ok t ∈ xs.map (·.content) → p ≤ t.span.start

def Sorted (xs : List Upcoming) : Prop :=
  (xs.map (·.content)).Pairwise fun c d ↦ ∀ t u : Token, c = .ok t → d = .ok u → t.span.start ≤ u.span.start

def Behind (ys xs : List Upcoming) : Prop :=
  ∃ ts : List Token, xs.map (·.content) = ts.map .ok ++ ys.map (·.content)

variable {b : Bool} {p q : Position} {xs ys zs : List Upcoming} {t : Token}

theorem From.mono (h : From q xs) (hp : p ≤ q) : From p xs := fun t ht ↦ Position.le_trans hp (h t ht)

theorem From.behind (h : From p xs) (hy : Behind ys xs) : From p ys := by
  obtain ⟨ts, hts⟩ := hy
  intro t ht
  refine h t ?_
  rw [hts]
  exact List.mem_append_right _ ht

theorem Sorted.behind (h : Sorted xs) (hy : Behind ys xs) : Sorted ys := by
  obtain ⟨ts, hts⟩ := hy
  rw [Sorted, hts] at h
  exact (List.pairwise_append.1 h).2.1

theorem Behind.trans (h : Behind ys xs) (h' : Behind zs ys) : Behind zs xs := by
  obtain ⟨ts, hts⟩ := h
  obtain ⟨us, hus⟩ := h'
  exact ⟨ts ++ us, by rw [hts, hus, List.map_append, List.append_assoc]⟩

theorem Behind.length_le (h : Behind ys xs) : ys.length ≤ xs.length := by
  obtain ⟨ts, hts⟩ := h
  have hl := congrArg List.length hts
  rw [List.length_append, List.length_map, List.length_map, List.length_map] at hl
  omega

theorem behind_looked (b : Bool) (xs : List Upcoming) : Behind (looked b xs) xs := ⟨[], by simp⟩

theorem Next.behind (h : Next b xs t ys) : Behind ys xs := by
  obtain ⟨later, rfl, -⟩ := h
  exact ⟨[t], rfl⟩

theorem Next.from_start (h : Next b xs t ys) (hs : Sorted xs) : From t.span.start xs := by
  obtain ⟨later, rfl, -⟩ := h
  intro u hu
  rcases List.mem_cons.1 hu with hu | hu
  · cases hu
    exact Position.le_refl _
  · exact List.rel_of_pairwise_cons hs hu t u rfl rfl

end Upcoming

variable {b : Bool} {xs ys : List Upcoming}

theorem Spells.behind {ps : List Piece} (h : Spells xs ps ys) : Behind ys xs := by
  obtain ⟨tokens, hl, -⟩ := h
  exact ⟨tokens, hl.contents⟩

theorem Reads.behind {phrase : Phrase} (h : Reads b phrase xs ys) : Behind ys xs := by
  obtain ⟨ps, -, hs⟩ := h.spells
  exact hs.behind

theorem Span.merge_start_le (s t : Span) : (s.merge t).start ≤ s.start := Position.min_le_left _ _

theorem Expr.Joins.start_le {left right e : Expr} {operator : Token} (h : left.Joins operator right e) :
    e.span.start ≤ left.span.start := by
  cases h <;> exact Span.merge_start_le _ _

/-- A phrase begins no later than what lies ahead of it, and no later than the tree that it goes on with. -/
def Phrase.BeginsAt (xs : List Upcoming) : Phrase → Prop
  | primary e | operand e | expression _ e => From e.span.start xs
  | suffix start e | suffixes start e | operators _ start e => e.span.start ≤ start.span.start
  | arguments _ _ => True

theorem Reads.beginsAt {phrase : Phrase} (h : Reads b phrase xs ys) (hs : Sorted xs) :
    phrase.BeginsAt xs := by
  induction h with
  | literal hn | name hn => exact hn.from_start hs
  | dereference hn | group hn | unary hn => exact (hn.from_start hs).mono (Span.merge_start_le _ _)
  | emptyCall | call | index => exact Span.merge_start_le _ _
  | noSuffix | noOperator => exact Position.le_refl _
  | moreSuffixes h _ ih₁ ih₂ => exact Position.le_trans (ih₂ (hs.behind h.behind)) (ih₁ hs)
  | suffixed h _ ih₁ ih₂ | expression h _ ih₁ ih₂ => exact (ih₁ hs).mono (ih₂ (hs.behind h.behind))
  | lastArgument | moreArguments => trivial
  | operator hn _ _ hr hj _ _ ih =>
    exact Position.le_trans (ih (hs.behind (hn.behind.trans hr.behind))) hj.start_le

def Phrase.Begins : Phrase → Prop
  | primary _ | operand _ | expression _ _ | arguments _ _ => True
  | suffix _ _ | suffixes _ _ | operators _ _ _ => False

theorem TokenKind.IsUnary.startsExpression {k : TokenKind} (h : k.IsUnary) :
    Parser.Action.startsExpression k = true := by
  rcases h with rfl | rfl | rfl <;> rfl

theorem Reads.starts {phrase : Phrase} (h : Reads b phrase xs ys) (hp : phrase.Begins) :
    ∃ t zs, Next b xs t zs ∧ Parser.Action.startsExpression t.kind = true := by
  induction h with
  | @literal _ l _ _ hn =>
    refine ⟨_, _, hn, ?_⟩
    have hl := l.isLiteral
    cases hk : l.token.kind <;> first | rfl | (rw [hk] at hl; cases hl)
  | name hn => exact ⟨_, _, hn, rfl⟩
  | dereference hn hk => exact ⟨_, _, hn, by rw [hk]; rfl⟩
  | group hn hk => exact ⟨_, _, hn, by rw [hk]; rfl⟩
  | unary hn hk => exact ⟨_, _, hn, hk.startsExpression⟩
  | suffixed _ _ ih | expression _ _ ih | lastArgument _ _ _ ih | moreArguments _ _ _ _ ih => exact ih trivial
  | emptyCall | call | index | noSuffix | moreSuffixes | noOperator | operator => exact hp.elim

end Linewise
