import Linewise.Proofs.HeaderLanguage
import Linewise.Proofs.Reading
import Linewise.Proofs.Rejection

namespace Linewise

open Upcoming Parser.Action HeaderLanguage

def Goes (p : Place) (xs : List Upcoming) (q : Place) (ys : List Upcoming) : Prop :=
  ∃ w, Leads xs w ys ∧ p.run w = some q

variable {p q r : Place} {xs ys zs : List Upcoming}

namespace Goes

theorem refl (p : Place) (xs : List Upcoming) : Goes p xs p xs := ⟨[], .here rfl, rfl⟩

theorem looked (p : Place) (xs : List Upcoming) : Goes p xs p (looked true xs) := ⟨[], .looked true xs, rfl⟩

theorem trans (h : Goes p xs q ys) (h' : Goes q ys r zs) : Goes p xs r zs := by
  obtain ⟨v, hv, hq⟩ := h
  obtain ⟨w, hw, hr⟩ := h'
  refine ⟨v ++ w, hv.trans hw, ?_⟩
  rw [Place.run_append, hq]
  exact hr

theorem cons {t : Token} (h : Next true xs t ys) (hp : p.step t.kind = some q) (hq : Goes q ys r zs) :
    Goes p xs r zs := by
  obtain ⟨w, hw, hr⟩ := hq
  refine ⟨t :: w, (Leads.single h).trans hw, ?_⟩
  rw [Place.run_cons, hp]
  exact hr

theorem next {t : Token} (h : Next true xs t ys) (hp : p.step t.kind = some q) : Goes p xs q ys :=
  cons h hp (refl q ys)

end Goes

theorem Upcoming.Stops.ends {b : Bool} {ends : TokenKind → Prop} {t : Token} (h : Stops b ends xs)
    (hn : Next b xs t ys) : ends t.kind := by
  obtain ⟨later, rfl, reach⟩ := hn
  obtain ⟨t', ht, he⟩ := h _ rfl reach
  cases ht
  exact he

theorem ReadsType.goes {mark : TokenKind} {type : Option Identifier} (h : ReadsType mark type xs ys)
    (hmark : p.step mark = some q) (hname : ∀ text, q.step (.identifier text) = some r) :
    Goes p xs r ys ∨ Goes p xs p ys ∧ Stops true (· ≠ mark) ys := by
  cases h with
  | absent hstop => exact .inr ⟨.looked p xs, hstop.looked⟩
  | given hn hk hn' => exact .inl (.cons hn (hk ▸ hmark) (.next hn' (hname _)))

/-- The places where the reading of parameters goes on. After a parameter without a type that is where a type
could still follow, but does not. -/
inductive SlotAt (xs : List Upcoming) : ParameterSlot → Place → Prop
  | first : SlotAt xs .nameOrClose .firstParameter
  | next : SlotAt xs .name .nextParameter
  | afterType : SlotAt xs .commaOrClose .afterType
  | afterName : Stops true (· ≠ .colon) xs → SlotAt xs .commaOrClose .afterName

namespace SlotAt

variable {slot : ParameterSlot}

theorem step_name (h : SlotAt xs slot p) (hslot : slot ≠ .commaOrClose) (text : String) :
    p.step (.identifier text) = some .afterName := by
  cases h with
  | first | next => rfl
  | afterType | afterName => exact absurd rfl hslot

theorem step_comma (h : SlotAt xs .commaOrClose p) : p.step .comma = some .nextParameter := by
  cases h <;> rfl

end SlotAt

theorem ReadsType.exists_slotAt {type : Option Identifier} (h : ReadsType .colon type xs ys) :
    ∃ p, Goes .afterName xs p ys ∧ SlotAt ys .commaOrClose p := by
  rcases h.goes (p := .afterName) rfl fun _ ↦ rfl with hgoes | ⟨hgoes, hstop⟩
  · exact ⟨_, hgoes, .afterType⟩
  · exact ⟨_, hgoes, .afterName hstop⟩

theorem ReadsParameters.goes {slot : ParameterSlot} {params : List Parameter} {closeParen : Token}
    (h : ReadsParameters slot params closeParen xs ys) (hp : SlotAt xs slot p) :
    Goes p xs .afterParameters ys := by
  induction h generalizing p with
  | close hn hk hslot =>
    refine .next hn ?_
    rw [hk]
    cases hp with
    | next => exact absurd rfl hslot
    | _ => rfl
  | comma hn hk _ ih =>
    exact .cons hn (hk ▸ hp.step_comma) (ih .next)
  | parameter hslot hn ht _ ih =>
    obtain ⟨q, hq, hslot'⟩ := ht.exists_slotAt
    exact .cons hn (hp.step_name hslot _) (hq.trans (ih hslot'))

theorem Upcoming.Next.unique {b b' : Bool} {t t' : Token} (h : Next b xs t ys) (h' : Next b' xs t' zs) :
    t' = t ∧ zs = ys := by
  obtain ⟨later, rfl, -⟩ := h
  obtain ⟨later', hcons, -⟩ := h'
  cases hcons
  exact ⟨rfl, rfl⟩

/-- What is read after the keyword of a header leads through the language of headers. -/
theorem ReadsConstruct.goes {c : Construct} {keyword : Token} (h : ReadsConstruct xs c ys)
    (hn : Next true xs keyword zs) (hk : keyword.kind = .keyword "fn") : Goes .name zs .done ys := by
  cases h with
  | function hn' _ hn₁ hn₂ hk₂ hp ht hn₃ hk₃ =>
    obtain ⟨-, rfl⟩ := hn.unique hn'
    refine .cons hn₁ rfl (.cons hn₂ (hk₂ ▸ rfl) ((hp.goes .first).trans ?_))
    rcases ht.goes (p := .afterParameters) rfl fun _ ↦ rfl with hgoes | ⟨hgoes, -⟩
    · exact hgoes.trans (.next hn₃ (hk₃ ▸ rfl))
    · exact hgoes.trans (.next hn₃ (hk₃ ▸ rfl))
  | openBrace hn' hk' | closeBrace hn' hk' | pass hn' hk' _ | «break» hn' hk' _ | returnNothing hn' hk' _
  | returnValue hn' hk' _ _ _ _ =>
    rw [(hn.unique hn').1, hk] at hk'
    simp at hk'
  | expression hn' hk' _ _ =>
    rw [(hn.unique hn').1, hk] at hk'
    cases hk'

namespace HeaderLanguage.Place

def construct : Place → String
  | firstParameter | nextParameter | afterName | parameterType | afterType => "parameters"
  | _ => "function declaration"

def expects : Place → Token → Option GrammarError
  | name => Token.requireFunctionName
  | openParen => Token.require .openParen "'('"
  | firstParameter => Token.requireSlot .nameOrClose
  | nextParameter => Token.requireSlot .name
  | afterName => fun t ↦ if t.kind = .colon then none else t.requireSlot .commaOrClose
  | parameterType => Token.requireName "parameter type"
  | afterType => Token.requireSlot .commaOrClose
  | afterParameters => fun t ↦
    if t.kind = .arrow then none else t.require .openCurlyBrace "'\x7b' (as start of function body)"
  | returnType => Token.requireName "return type after '->'"
  | bodyOpen => Token.require .openCurlyBrace "'\x7b' (as start of function body)"
  | done => fun _ ↦ none

theorem of_expects {p : Place} {t : Token} {g : GrammarError} (h : g ∈ p.expects t) :
    p.step t.kind = none ∧ g.span = some t.span ∧ g.cause.code = p.errorCode t.kind := by
  obtain ⟨kind, span⟩ := t
  cases p <;> cases kind <;> cases h <;> exact ⟨rfl, rfl, rfl⟩

end HeaderLanguage.Place

namespace Upcoming.Halts

variable {e : SyntaxError} {absence : Option GrammarError} {wrong wrong' : Token → Option GrammarError}

theorem imp {b : Bool} (h : Halts b absence wrong xs e)
    (hwrong : ∀ t ys, Next b xs t ys → wrong t = wrong' t) : Halts b absence wrong' xs e := by
  cases h with
  | lexical reach => exact .lexical reach
  | absent hn hg => exact .absent hn hg
  | token hn hg => exact .token hn (hwrong _ _ hn ▸ hg)

theorem of_lexically (h : HaltsLexically true xs e) : Halts true absence wrong xs e := by
  cases h with
  | lexical reach => exact .lexical reach
  | absent _ hg | token _ hg => cases hg

end Upcoming.Halts

/-- The reading that has got to a place in a header stops some way on. -/
def StopsFrom (p : Place) (xs : List Upcoming) (e : SyntaxError) : Prop :=
  ∃ q ys, Goes p xs q ys ∧ HaltsIn q.construct q.expects ys e

variable {e : SyntaxError}

theorem StopsFrom.here (h : HaltsIn p.construct p.expects xs e) : StopsFrom p xs e := ⟨p, xs, .refl p xs, h⟩

theorem StopsFrom.of_goes (h : StopsFrom q ys e) (hp : Goes p xs q ys) : StopsFrom p xs e := by
  obtain ⟨r, zs, hq, hhalts⟩ := h
  exact ⟨r, zs, hp.trans hq, hhalts⟩

theorem RejectsType.stopsFrom {mark : TokenKind} {construct what : String}
    (h : RejectsType mark construct what xs e) (hmark : p.step mark = some q) (hq : q.construct = construct)
    (hwhat : q.expects = Token.requireName what) : StopsFrom p xs e := by
  cases h with
  | mark hlex => exact .here hlex.of_lexically
  | name hn hk hhalts =>
    rw [← hq, ← hwhat] at hhalts
    exact (StopsFrom.here hhalts).of_goes (.next hn (hk ▸ hmark))

theorem SlotAt.halts {slot : ParameterSlot} (hp : SlotAt xs slot p)
    (h : HaltsIn "parameters" (Token.requireSlot slot) xs e) : HaltsIn p.construct p.expects xs e := by
  cases hp with
  | first | next | afterType => exact h
  | afterName hstop => exact h.imp fun t ys hn ↦ (if_neg (hstop.ends hn)).symm

theorem RejectsParameters.stopsFrom {slot : ParameterSlot} (h : RejectsParameters slot xs e)
    (hp : SlotAt xs slot p) : StopsFrom p xs e := by
  induction h generalizing p with
  | slot hhalts => exact .here (hp.halts hhalts)
  | comma hn hk _ ih =>
    exact (ih .next).of_goes (.next hn (hk ▸ hp.step_comma))
  | type hslot hn ht =>
    have hstops := ht.stopsFrom (p := .afterName) (q := .parameterType) rfl rfl rfl
    exact hstops.of_goes (.next hn (hp.step_name hslot _))
  | parameter hslot hn ht _ ih =>
    obtain ⟨q, hq, hslot'⟩ := ht.exists_slotAt
    exact (ih hslot').of_goes (.cons hn (hp.step_name hslot _) hq)

/-- Where a header is rejected, its tokens lead to the place where the reading stops. -/
theorem RejectsHeader.stopsFrom (h : RejectsHeader xs e) : StopsFrom .name xs e := by
  cases h with
  | name hhalts => exact .here hhalts
  | openParen hn hhalts => exact (StopsFrom.here (p := .openParen) hhalts).of_goes (.next hn rfl)
  | parameters hn hn' hk hp =>
    exact (hp.stopsFrom .first).of_goes (.cons hn rfl (.next hn' (hk ▸ rfl)))
  | returnType hn hn' hk hp ht =>
    have hstops := ht.stopsFrom (p := .afterParameters) (q := .returnType) rfl rfl rfl
    exact hstops.of_goes (.cons hn rfl (.cons hn' (hk ▸ rfl) (hp.goes .first)))
  | bodyOpen hn hn' hk hp ht hhalts =>
    have hgoes : Goes .name xs .afterParameters _ := .cons hn rfl (.cons hn' (hk ▸ rfl) (hp.goes .first))
    rcases ht.goes (p := .afterParameters) rfl fun _ ↦ rfl with hafter | ⟨hafter, hstop⟩
    · exact (StopsFrom.here (p := .bodyOpen) hhalts).of_goes (hgoes.trans hafter)
    · refine (StopsFrom.here (p := .afterParameters) ?_).of_goes (hgoes.trans hafter)
      exact hhalts.imp fun t ys hn ↦ (if_neg (hstop.ends hn)).symm

end Linewise
