import Linewise.Proofs.Mending

namespace Linewise

open Upcoming Parser.Action

variable {limit n : Nat} {b : Bool} {e : GrammarError} {fillers : List Filler} {xs ys zs : List Upcoming}

/-- An expression fills the rest of its line, or nothing is wrong but the target of an assignment. -/
inductive PassesStatement (limit : Nat) (last : Option Token) (xs : List Upcoming) : Prop
  | reads {value : Expr} : ReadsWithin limit false (.expression 0 value) xs [] → PassesStatement limit last xs
  | target {span : Option Span} :
      RejectsStatement limit last xs (.grammar ⟨.invalidAssignmentTarget, span⟩) → PassesStatement limit last xs

theorem PassesStatement.starts {last : Option Token} (h : PassesStatement limit last xs) :
    ∃ t ys, Next false xs t ys ∧ startsExpression t.kind = true := by
  cases h with
  | reads hr => exact hr.1.starts trivial
  | target h => cases h with
    | expression h => exact h.starts trivial
    | statementEnd hr => exact hr.1.starts trivial

structure MendsStatement (limit : Nat) (last : Option Token) (e : GrammarError) (xs : List Upcoming) (n : Nat)
    (fillers : List Filler) : Prop where
  spares : e.Spares n xs
  passes (g : Span → Span) (ts : List Token) : ts.map (·.kind) = fillers.map Filler.kind →
    PassesStatement limit (last.map (Token.relocate g)) (mend g n (here ts []) xs)

theorem RejectsStatement.mends {last : Option Token} (h : RejectsStatement limit last xs (.grammar e))
    (hx : Sorted xs) (hlast : ∀ t ∈ last, From t.span.start xs) :
    (∃ n fillers, MendsStatement limit last e xs n fillers) ∨ e.span = last.map (·.span) := by
  cases h with
  | expression h =>
    rcases h.mends hx hlast trivial with ⟨n, fillers, h⟩ | hout
    · refine .inl ⟨n, fillers, h.spares, fun g ts hts ↦ ?_⟩
      cases h.passes g ts [] hts closes_nil with
      | reads ha hr =>
        cases ha
        exact .reads hr
      | target h => exact .target (.expression h)
    · exact .inr hout
  | @statementEnd _ _ ys _ hr h =>
    have hs := h.spares (hx.behind hr.1.behind) (Token.blames_require _ _) fun g hg ↦ by cases hg
    refine .inl ⟨ys.length, [], hs.behind hr.1.behind,
      fun g ts hts ↦ ?_⟩
    obtain rfl := List.map_eq_nil_iff.1 hts
    exact .reads (hr.mend_all closes_nil)

theorem onLine_here_of_ne_nil {ts : List Token} (h : ts ≠ []) (zs : List Upcoming) : OnLine (here ts zs) := by
  cases ts with
  | nil => exact absurd rfl h
  | cons t ts =>
    intro i hi
    cases hi
    rfl

theorem ReadsType.none_here {mark : TokenKind} {t : Token} (h : t.kind ≠ mark) (ts : List Token)
    (zs : List Upcoming) : ReadsType mark none (here (t :: ts) zs) (here (t :: ts) zs) :=
  .absent (stops_here h)

theorem RejectsType.mends {mark : TokenKind} {construct what : String}
    (h : RejectsType mark construct what xs (.grammar e)) (hx : Sorted xs) :
    ∃ n, n < xs.length ∧ e.Spares n xs ∧ ∀ (g : Span → Span) (name : Identifier) (zs : List Upcoming),
      ∃ type, ReadsType mark type (mend g n (here [name.token] zs) xs) zs := by
  cases h with
  | mark h => cases h with
    | absent _ ha => cases ha
    | token _ ht => cases ht
  | @name token _ ys _ hn hk h =>
    have hl := hn.length
    have hs := HaltsIn.spares h (hx.behind hn.behind) (Token.blames_requireName _)
    exact ⟨ys.length, by omega, hs.behind hn.behind, fun g name zs ↦
      ⟨some name, .given hn.mend_all hk (next_here true name.token [] zs)⟩⟩

theorem ReadsType.mend {mark : TokenKind} {type : Option Identifier} {g : Span → Span}
    (h : ReadsType mark type xs ys) (hz : OnLine zs) (hn : n ≤ ys.length)
    (ho : n < ys.length ∨ Stops true (· ≠ mark) zs) :
    ReadsType mark (type.map (Identifier.relocate g)) (mend g n zs xs) (mend g n zs ys) :=
  h.relocate.replaceEnd hz (by rwa [List.length_map]) (by rwa [List.length_map])

theorem ReadsParameters.mend {slot : ParameterSlot} {params : List Parameter} {closeParen : Token} {g : Span → Span}
    (h : ReadsParameters slot params closeParen xs ys) (hz : OnLine zs) (hn : n ≤ ys.length) :
    ReadsParameters slot (params.map (Parameter.relocate g)) (closeParen.relocate g) (mend g n zs xs)
      (mend g n zs ys) := h.relocate.replaceEnd hz (by rwa [List.length_map])

structure MendsParameters (slot : ParameterSlot) (e : GrammarError) (xs : List Upcoming) (n : Nat)
    (fillers : List Filler) : Prop where
  spares : e.Spares n xs
  ne_nil : fillers ≠ []
  reads (g : Span → Span) (ts : List Token) (zs : List Upcoming) : ts.map (·.kind) = fillers.map Filler.kind →
    ∃ params closeParen, ReadsParameters slot params closeParen (mend g n (here ts zs) xs) zs

theorem ReadsParameters.closes_here {slot : ParameterSlot} (hslot : slot ≠ .name) {t : Token}
    (ht : t.kind = .closeParen) (zs : List Upcoming) : ReadsParameters slot [] t (here [t] zs) zs :=
  .close (next_here true t [] zs) ht hslot

theorem ReadsParameters.stops {params : List Parameter} {closeParen : Token}
    (h : ReadsParameters .commaOrClose params closeParen xs ys) :
    Stops true (· ≠ .colon) xs := by
  cases h with
  | close hn hk => exact hn.stops (by rw [hk]; decide)
  | comma hn hk => exact hn.stops (by rw [hk]; decide)
  | parameter hslot => exact absurd rfl hslot

theorem RejectsParameters.mends {slot : ParameterSlot} (h : RejectsParameters slot xs (.grammar e))
    (hx : Sorted xs) : ∃ n fillers, MendsParameters slot e xs n fillers := by
  generalize he : SyntaxError.grammar e = err at h
  induction h with
  | @slot slot xs _ h =>
    subst he
    have hs := HaltsIn.spares h hx (Token.blames_requireSlot _)
    by_cases hslot : slot = .name
    · subst hslot
      refine ⟨xs.length, [.name] ++ [.closeParen], hs, by simp, fun g ts zs hts ↦ ?_⟩
      obtain ⟨vs, t, rfl, hvs, ht⟩ := exists_last hts
      obtain ⟨name, rfl⟩ := exists_name hvs
      rw [mend_all, here_append]
      exact ⟨_, t, .parameter (by decide) (next_here true name.token [] _)
        (.none_here (by rw [ht]; decide) [] _) (.closes_here (by decide) ht zs)⟩
    · refine ⟨xs.length, [.closeParen], hs, by simp, fun g ts zs hts ↦ ?_⟩
      obtain ⟨t, rfl, ht⟩ := List.map_eq_singleton_iff.1 hts
      rw [mend_all]
      exact ⟨_, t, .closes_here hslot ht zs⟩
  | comma hn hk _ ih =>
    obtain ⟨n, fillers, h⟩ := ih (hx.behind hn.behind) he
    refine ⟨n, fillers, h.spares.behind hn.behind, h.ne_nil,
      fun g ts zs hts ↦ ?_⟩
    obtain ⟨params, closeParen, hp⟩ := h.reads g ts zs hts
    exact ⟨_, _, .comma (hn.mend h.spares.le) hk hp⟩
  | type hslot hn ht =>
    subst he
    obtain ⟨n, hlt, hs, hreads⟩ := ht.mends (hx.behind hn.behind)
    refine ⟨n, [.name] ++ [.closeParen], hs.behind hn.behind, by simp,
      fun g ts zs hts ↦ ?_⟩
    obtain ⟨vs, t, rfl, hvs, ht⟩ := exists_last hts
    obtain ⟨name, rfl⟩ := exists_name hvs
    obtain ⟨type, htype⟩ := hreads g name (here [t] zs)
    exact ⟨_, t, .parameter (n := Identifier.relocate g _) hslot (hn.mend (Nat.le_of_lt hlt)) htype
      (.closes_here (by decide) ht zs)⟩
  | @parameter slot _ type xs ys zs _ hslot hn ht _ ih =>
    have hbehind := hn.behind.trans ht.spells.behind
    obtain ⟨n, fillers, h⟩ := ih (hx.behind hbehind) he
    have hl := ht.spells.behind.length_le
    refine ⟨n, fillers, h.spares.behind hbehind, h.ne_nil,
      fun g ts ws hts ↦ ?_⟩
    obtain ⟨params, closeParen, hp⟩ := h.reads g ts ws hts
    have hne : ts ≠ [] := by
      rintro rfl
      exact h.ne_nil (List.map_eq_nil_iff.1 hts.symm)
    have hstops : n < zs.length ∨ Stops true (· ≠ .colon) (here ts ws) := by
      rcases Nat.lt_or_eq_of_le h.spares.le with hlt | rfl
      · exact .inl hlt
      · rw [mend_all] at hp
        exact .inr hp.stops
    exact ⟨_, _, .parameter (n := Identifier.relocate g _) hslot (hn.mend (Nat.le_trans h.spares.le hl))
      (ht.mend (onLine_here_of_ne_nil hne _) h.spares.le hstops) hp⟩

def ReadsHeader (xs : List Upcoming) : Prop :=
  ∀ (keyword : Token) (ws : List Upcoming), Next true ws keyword xs → keyword.kind = .keyword "fn" →
    ∃ f, ReadsConstruct ws (.function f) []

structure MendsHeader (e : GrammarError) (xs : List Upcoming) (n : Nat) (fillers : List Filler) : Prop where
  spares : e.Spares n xs
  reads (g : Span → Span) (ts : List Token) : ts.map (·.kind) = fillers.map Filler.kind →
    ReadsHeader (mend g n (here ts []) xs)

theorem readsHeader {n : Identifier} {openParen closeParen bodyOpen : Token} {params : List Parameter}
    {type : Option Identifier} {ws : List Upcoming} (hn : Next true xs n.token ys)
    (ho : Next true ys openParen zs) (hko : openParen.kind = .openParen)
    (hp : ReadsParameters .nameOrClose params closeParen zs ws)
    (ht : ReadsType .arrow type ws (here [bodyOpen] [])) (hb : bodyOpen.kind = .openCurlyBrace) :
    ReadsHeader xs := by
  intro keyword vs hkeyword hk
  exact ⟨⟨keyword, n, openParen, params, closeParen, type, bodyOpen⟩,
    .function hkeyword hk hn ho hko hp ht (next_here true bodyOpen [] []) hb⟩

theorem RejectsHeader.mends (h : RejectsHeader xs (.grammar e)) (hx : Sorted xs) :
    ∃ n fillers, MendsHeader e xs n fillers := by
  cases h with
  | name h =>
    have hs := HaltsIn.spares h hx Token.blames_requireFunctionName
    refine ⟨xs.length, [.name] ++ [.openParen] ++ [.closeParen] ++ [.openCurlyBrace], hs,
      fun g ts hts ↦ ?_⟩
    obtain ⟨ts, bodyOpen, rfl, hts, hb⟩ := exists_last hts
    obtain ⟨ts, closeParen, rfl, hts, hc⟩ := exists_last hts
    obtain ⟨ts, openParen, rfl, hts, ho⟩ := exists_last hts
    obtain ⟨name, rfl⟩ := exists_name hts
    rw [mend_all]
    simp only [here_append]
    exact readsHeader (next_here true name.token [] _) (next_here true openParen [] _) ho
      (.closes_here (by decide) hc _) (.none_here (by rw [hb]; decide) [] []) hb
  | @openParen _ _ ys _ hn h =>
    have hs := HaltsIn.spares h (hx.behind hn.behind) (Token.blames_require _ _)
    refine ⟨ys.length, [.openParen] ++ [.closeParen] ++ [.openCurlyBrace],
      hs.behind hn.behind, fun g ts hts ↦ ?_⟩
    obtain ⟨ts, bodyOpen, rfl, hts, hb⟩ := exists_last hts
    obtain ⟨ts, closeParen, rfl, hts, hc⟩ := exists_last hts
    obtain ⟨openParen, rfl, ho⟩ := List.map_eq_singleton_iff.1 hts
    simp only [here_append]
    exact readsHeader (n := Identifier.relocate g _) hn.mend_all (next_here true openParen [] _) ho
      (.closes_here (by decide) hc _) (.none_here (by rw [hb]; decide) [] []) hb
  | parameters hn ho hko h =>
    have hbehind := hn.behind.trans ho.behind
    obtain ⟨n, fillers, h⟩ := h.mends (hx.behind hbehind)
    refine ⟨n, fillers ++ [.openCurlyBrace], h.spares.behind hbehind,
      fun g ts hts ↦ ?_⟩
    obtain ⟨ts, bodyOpen, rfl, hts, hb⟩ := exists_last hts
    rw [here_append]
    obtain ⟨params, closeParen, hp⟩ := h.reads g ts (here [bodyOpen] []) hts
    exact readsHeader (n := Identifier.relocate g _) (hn.mend (Nat.le_trans h.spares.le ho.behind.length_le))
      (ho.mend h.spares.le) hko hp (.none_here (by rw [hb]; decide) [] []) hb
  | @returnType _ _ _ _ _ _ _ ws _ hn ho hko hp ht =>
    have hbehind := (hn.behind.trans ho.behind).trans hp.spells.behind
    obtain ⟨n, hlt, hs, hreads⟩ := ht.mends (hx.behind hbehind)
    have hle := Nat.le_of_lt hlt
    have hl := hp.spells.behind.length_le
    refine ⟨n, [.name] ++ [.openCurlyBrace], hs.behind hbehind,
      fun g ts hts ↦ ?_⟩
    obtain ⟨ts, bodyOpen, rfl, hts, hb⟩ := exists_last hts
    obtain ⟨name, rfl⟩ := exists_name hts
    rw [here_append]
    obtain ⟨type, htype⟩ := hreads g name (here [bodyOpen] [])
    have hp := hp.mend (g := g) (onLine_here_of_ne_nil (List.cons_ne_nil name.token []) (here [bodyOpen] [])) hle
    exact readsHeader (n := Identifier.relocate g _) (hn.mend (by have := ho.length; omega))
      (ho.mend (Nat.le_trans hle hl)) hko hp htype hb
  | @bodyOpen _ _ _ _ _ _ _ _ _ vs _ hn ho hko hp ht h =>
    have hbehind := ((hn.behind.trans ho.behind).trans hp.spells.behind).trans ht.spells.behind
    have hs := HaltsIn.spares h (hx.behind hbehind) (Token.blames_require _ _)
    have hl := hp.spells.behind.length_le
    have hl' := ht.spells.behind.length_le
    refine ⟨vs.length, [.openCurlyBrace], hs.behind hbehind,
      fun g ts hts ↦ ?_⟩
    obtain ⟨bodyOpen, rfl, hb⟩ := List.map_eq_singleton_iff.1 hts
    have honline := onLine_here_of_ne_nil (List.cons_ne_nil bodyOpen []) []
    have hp := hp.mend (g := g) honline hl'
    have ht := ht.mend (g := g) honline (Nat.le_refl _) (.inr (stops_here (by rw [hb]; decide)))
    rw [mend_all] at ht
    exact readsHeader (n := Identifier.relocate g _) (hn.mend (by have := ho.length; omega))
      (ho.mend (Nat.le_trans hl' hl)) hko hp ht hb

inductive PassesConstruct (limit : Nat) (xs : List Upcoming) : Prop
  | reads {c : Construct} : ReadsConstruct xs c [] → (∀ value ∈ c.expression?, value.need ≤ limit) →
      PassesConstruct limit xs
  | target {span : Option Span} : RejectsConstruct limit xs (.grammar ⟨.invalidAssignmentTarget, span⟩) →
      PassesConstruct limit xs

/-- A construct that has begun is ended; before it begins, there is nothing to end. -/
structure MendsConstruct (limit : Nat) (e : GrammarError) (xs : List Upcoming) (n : Nat)
    (fillers : List Filler) : Prop where
  spares : e.Spares n xs
  kept : n < xs.length ∨ fillers = []
  passes (g : Span → Span) (ts : List Token) : n < xs.length → ts.map (·.kind) = fillers.map Filler.kind →
    PassesConstruct limit (mend g n (here ts []) xs)

theorem mendsConstruct_nothing (h : e.Spares xs.length xs) : MendsConstruct limit e xs xs.length [] :=
  ⟨h, .inr rfl, fun _ _ hlt ↦ absurd hlt (Nat.lt_irrefl _)⟩

theorem PassesConstruct.word {keyword : Token} (hn : Next true xs keyword [])
    (hk : keyword.kind = .keyword "pass" ∨ keyword.kind = .keyword "break") : PassesConstruct limit xs := by
  rcases hk with hk | hk
  · exact .reads (.pass hn hk nofun) nofun
  · exact .reads (.break hn hk nofun) nofun

theorem PassesConstruct.returnValue {keyword : Token} (hn : Next true xs keyword ys)
    (hk : keyword.kind = .keyword "return") (h : PassesStatement limit keyword ys) :
    PassesConstruct limit xs := by
  obtain ⟨token, zs, ht, hstarts⟩ := h.starts
  have hne : token.kind ≠ .closeCurlyBrace := by
    intro hclose
    rw [hclose] at hstarts
    cases hstarts
  cases h with
  | @reads value hr =>
    refine .reads (.returnValue hn hk ht hne hr.1 nofun) fun v hv ↦ ?_
    cases hv
    have := hr.2
    rw [Phrase.need] at this
    omega
  | target h => exact .target (.returnValue hn hk ht hne h)

theorem PassesConstruct.expression {token : Token} (hn : Next true xs token ys)
    (hk : startsExpression token.kind = true) (h : PassesStatement limit none (.givenBack token :: ys)) :
    PassesConstruct limit xs := by
  cases h with
  | @reads value hr =>
    refine .reads (.expression hn hk hr.1 nofun) fun v hv ↦ ?_
    cases hv
    have := hr.2
    rw [Phrase.need] at this
    omega
  | target h => exact .target (.expression hn hk h)

theorem RejectsConstruct.mends (h : RejectsConstruct limit xs (.grammar e)) (hx : Sorted xs) :
    ∃ n fillers, MendsConstruct limit e xs n fillers := by
  cases h with
  | start h =>
    exact ⟨_, _, mendsConstruct_nothing (h.spares hx Token.blames_requireConstruct fun g hg ↦ by cases hg)⟩
  | @word keyword _ ys _ hn hk h =>
    have hs := h.spares (hx.behind hn.behind) (Token.blames_require _ _) fun g hg ↦ by cases hg
    refine ⟨ys.length, [], hs.behind hn.behind, .inr rfl, fun g ts _ hts ↦ ?_⟩
    obtain rfl := List.map_eq_nil_iff.1 hts
    exact .word hn.mend_all hk
  | returned _ _ h => cases h with
    | absent _ ha => cases ha
    | token _ ht => cases ht
  | returnValue hn hk _ _ h =>
    rcases h.mends (hx.behind hn.behind) (hn.preceded hx) with ⟨n, fillers, h⟩ | hout
    · have hl := hn.length
      have hle := h.spares.le
      refine ⟨n, fillers, h.spares.behind hn.behind, .inl (by omega), fun g ts _ hts ↦ ?_⟩
      exact .returnValue (hn.mend hle) hk (h.passes g ts hts)
    · exact ⟨_, _, mendsConstruct_nothing (hn.spares hx hout)⟩
  | function hn hk h =>
    obtain ⟨n, fillers, h⟩ := h.mends (hx.behind hn.behind)
    have hl := hn.length
    have hle := h.spares.le
    refine ⟨n, fillers, h.spares.behind hn.behind, .inl (by omega), fun g ts _ hts ↦ ?_⟩
    obtain ⟨f, hf⟩ := h.reads g ts hts _ _ (hn.mend hle) hk
    exact .reads hf nofun
  | @expression token _ ys _ hn hk h =>
    have hl := hn.length
    have hbehind : Behind (.givenBack token :: ys) xs := by
      rw [← hn.looked_eq]
      exact behind_looked true xs
    rcases h.mends (hx.behind hbehind) (fun t ht ↦ by cases ht) with ⟨n, fillers, h⟩ | hout
    · have hle := h.spares.le
      have hs := h.spares.behind hbehind
      rcases Nat.lt_or_eq_of_le hle with hlt | rfl
      · have hle := Nat.le_of_lt_succ hlt
        refine ⟨n, fillers, hs, .inl (by omega), fun g ts _ hts ↦ ?_⟩
        have hpasses := h.passes g ts hts
        rw [mend, List.map_cons, replaceEnd_cons _ (by rwa [List.length_map])] at hpasses
        exact .expression (hn.mend hle) hk hpasses
      · rw [show (Upcoming.givenBack token :: ys).length = xs.length from hl.symm] at hs
        exact ⟨_, _, mendsConstruct_nothing hs⟩
    · refine ⟨_, _, mendsConstruct_nothing (GrammarError.spares_all fun span hs ↦ ?_)⟩
      rw [hout] at hs
      cases hs

theorem ReadsConstruct.mend {c : Construct} {g : Span → Span} (h : ReadsConstruct xs c ys) (hz : OnLine zs)
    (hn : n ≤ ys.length) (ho : n < ys.length ∨ zs = []) :
    ReadsConstruct (mend g n zs xs) (c.relocate g) (mend g n zs ys) :=
  h.relocate.replaceEnd hz (by rwa [List.length_map]) (by rwa [List.length_map])

inductive PassesProgram (limit : Nat) (xs : List Upcoming) : Prop
  | reads {cs : List Construct} : ReadsProgram xs cs →
      (∀ c ∈ cs, ∀ value ∈ c.expression?, value.need ≤ limit) → PassesProgram limit xs
  | target {span : Option Span} : RejectsProgram limit xs (.grammar ⟨.invalidAssignmentTarget, span⟩) →
      PassesProgram limit xs

structure MendsProgram (limit : Nat) (e : GrammarError) (xs : List Upcoming) (n : Nat)
    (fillers : List Filler) : Prop where
  spares : e.Spares n xs
  kept : n < xs.length ∨ fillers = []
  passes (g : Span → Span) (ts : List Token) : ts.map (·.kind) = fillers.map Filler.kind →
    PassesProgram limit (mend g n (here ts []) xs)

theorem Construct.expression?_relocate {g : Span → Span} (c : Construct) :
    (c.relocate g).expression? = c.expression?.map (Expr.relocate g) := by
  cases c <;> rfl

theorem PassesProgram.nothing : PassesProgram limit [] := .reads .done fun _ hc ↦ by cases hc

theorem PassesProgram.later {c : Construct} (hc : ReadsConstruct xs c ys)
    (hfits : ∀ value ∈ c.expression?, value.need ≤ limit) (h : PassesProgram limit ys) :
    PassesProgram limit xs := by
  cases h with
  | reads hr hn => exact .reads (.construct hc hr) (List.forall_mem_cons.2 ⟨hfits, hn⟩)
  | target h => exact .target (.later hc hfits h)

theorem RejectsProgram.mends (h : RejectsProgram limit xs (.grammar e)) (hx : Sorted xs) :
    ∃ n fillers, MendsProgram limit e xs n fillers := by
  generalize he : SyntaxError.grammar e = err at h
  induction h with
  | here h =>
    subst he
    obtain ⟨n, fillers, h⟩ := h.mends hx
    refine ⟨n, fillers, h.spares, h.kept, fun g ts hts ↦ ?_⟩
    rcases Nat.lt_or_eq_of_le h.spares.le with hlt | rfl
    · cases h.passes g ts hlt hts with
      | reads hc hn => exact .later hc hn .nothing
      | target h => exact .target (.here h)
    · obtain rfl := h.kept.resolve_left (Nat.lt_irrefl _)
      obtain rfl := List.map_eq_nil_iff.1 hts
      rw [mend_all]
      exact .nothing
  | @later c xs ys _ hc hfits _ ih =>
    have hbehind := hc.spells.behind
    obtain ⟨n, fillers, h⟩ := ih (hx.behind hbehind) he
    have hl := hc.length_lt
    have hle := h.spares.le
    refine ⟨n, fillers, h.spares.behind hbehind, .inl (by omega), fun g ts hts ↦ ?_⟩
    have hc := hc.mend (g := g) (closes_nil.onLine_here ts) hle (h.kept.imp_right fun hk ↦ by
      subst hk
      rw [List.map_eq_nil_iff.1 hts, here_nil])
    refine .later hc (fun value hv ↦ ?_) (h.passes g ts hts)
    rw [Construct.expression?_relocate] at hv
    obtain ⟨v, hexpr, rfl⟩ := Option.map_eq_some_iff.1 hv
    rw [v.need_relocate]
    exact hfits v hexpr

end Linewise
