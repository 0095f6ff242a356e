import Linewise.Proofs.Lossless
import Linewise.Proofs.Printing

namespace Linewise.Parser

open Upcoming

/-- The tokens have moved from what lies ahead to what has been read. -/
structure Consumes (p : Parser) (ts : List Token) (q : Parser) : Prop where
  tokens : q.tokens.toList = p.tokens.toList ++ ts
  upcoming : p.upcoming.map (·.content) = ts.map .ok ++ q.upcoming.map (·.content)

def Progresses (p q : Parser) : Prop := ∃ ts, ts ≠ [] ∧ Consumes p ts q

variable {p q r : Parser} {ts us : List Token}

namespace Consumes

theorem trans (h : Consumes p ts q) (h' : Consumes q us r) : Consumes p (ts ++ us) r where
  tokens := by rw [h'.tokens, h.tokens, List.append_assoc]
  upcoming := by rw [h.upcoming, h'.upcoming, List.map_append, List.append_assoc]

theorem of_contents (hm : Moves p q) (h : p.upcoming.map (·.content) = ts.map .ok ++ q.upcoming.map (·.content)) :
    Consumes p ts q where
  tokens := by
    have hcontents := hm.contents
    rw [contents, contents, h, ← List.append_assoc, ← List.map_append] at hcontents
    exact List.map_injective_iff.2 (fun _ _ h ↦ Except.ok.inj h) (List.append_cancel_right hcontents)
  upcoming := h

theorem of_looked {b : Bool} (hm : Moves p q) (h : q.upcoming = looked b p.upcoming) : Consumes p [] q :=
  .of_contents hm (by rw [h, map_content_looked]; rfl)

theorem of_next {b : Bool} {token : Token} (hm : Moves p q) (h : Next b p.upcoming token q.upcoming) :
    Consumes p [token] q :=
  .of_contents hm (Leads.single h).contents

end Consumes

namespace Progresses

theorem of_next {b : Bool} {token : Token} (hm : Moves p q) (h : Next b p.upcoming token q.upcoming) :
    Progresses p q :=
  ⟨[token], List.cons_ne_nil _ _, .of_next hm h⟩

theorem of_spells {pieces : List Piece} (hm : Moves p q) (h : Spells p.upcoming pieces q.upcoming)
    (hne : pieces ≠ []) : Progresses p q := by
  obtain ⟨ts, hleads, hcovers⟩ := h
  refine ⟨ts, ?_, .of_contents hm hleads.contents⟩
  rintro rfl
  exact hne (List.forall₂_nil_right_iff.1 hcovers)

theorem trans_consumes (h : Progresses p q) (h' : Consumes q us r) : Progresses p r := by
  obtain ⟨ts, hne, h⟩ := h
  exact ⟨ts ++ us, List.append_ne_nil_of_left_ne_nil hne us, h.trans h'⟩

theorem trans (h : Progresses p q) (h' : Progresses q r) : Progresses p r := by
  obtain ⟨us, -, h'⟩ := h'
  exact h.trans_consumes h'

end Progresses

namespace Action

variable {α β ρ : Type}

theorem consumes_of_advance_none {b : Bool} (h : advance b p = .ok none q) : Consumes p [] q := by
  obtain ⟨hm, hupcoming, -⟩ := advance_none h
  exact .of_contents hm (congrArg _ hupcoming.symm)

theorem consumes_of_unread {b : Bool} {token : Token} {a a' : α} (h : advance b p = .ok (some token) q)
    (hback : (do unread; return a : Action α) q = .ok a' r) : Consumes p [] r ∧ a = a' := by
  obtain ⟨_, q', hunread, hpure⟩ := bind_eq_ok.1 hback
  obtain ⟨rfl, rfl⟩ := pure_eq_ok.1 hpure
  obtain ⟨hm, hlooked, -⟩ := stops_of_unread (fun _ ↦ True) h hunread trivial
  exact ⟨.of_looked hm hlooked, rfl⟩

theorem enclosed_consumes {body : Action α} {a : α} (h : enclosed body p = .ok a q) :
    ∃ p₁ q₁, body p₁ = .ok a q₁ ∧ ∀ ts, Consumes p₁ ts q₁ → Consumes p ts q := by
  obtain ⟨_, p₁, h₁, h₂⟩ := bind_eq_ok.1 h
  obtain ⟨a', q₁, hb, h₃⟩ := bind_eq_ok.1 h₂
  obtain ⟨_, q₂, h₄, h₅⟩ := bind_eq_ok.1 h₃
  obtain ⟨rfl, rfl⟩ := pure_eq_ok.1 h₅
  cases h₁
  cases h₄
  exact ⟨_, q₁, hb, fun ts hts ↦ ⟨hts.tokens, hts.upcoming⟩⟩

theorem expression_progresses {fuel least : Nat} {e : Expr} (h : expression fuel least p = .ok e q) :
    Progresses p q := by
  obtain ⟨hm, hreads, -⟩ := expression_accepts fuel least e q h
  exact .of_spells hm hreads.spells_expression e.pieces_ne_nil

/-- A loop is made of rounds. A round ends the loop with a result, or else it has consumed a token, and the rest of
the loop follows, to whose result it adds something. -/
structure Rounds (loop : Nat → α → Action β) (round : Nat → α → Action (β ⊕ ρ)) (again : ρ → α) (add : ρ → β → β) :
    Prop where
  loop_zero (a : α) : loop 0 a = throw (.internal .outOfFuel)
  loop_succ (fuel : Nat) (a : α) : loop (fuel + 1) a = do
    match ← round fuel a with
    | .inl b => return b
    | .inr x => return add x (← loop fuel (again x))
  round_ok {fuel : Nat} {a : α} {outcome : β ⊕ ρ} {p q : Parser} : round fuel a p = .ok outcome q →
    ∃ ts, Consumes p ts q ∧ (outcome.isRight = true → ts ≠ [])

/-- A round that is followed by another one has consumed a token. -/
theorem Rounds.progresses {loop : Nat → α → Action β} {round : Nat → α → Action (β ⊕ ρ)} {again : ρ → α}
    {add : ρ → β → β} (h : Rounds loop round again add) (fuel : Nat) {a : α} {x : ρ}
    (hround : round fuel a p = .ok (.inr x) q) : Progresses p q := by
  obtain ⟨ts, hts, hne⟩ := h.round_ok hround
  exact ⟨ts, hne rfl, hts⟩

/-- What a round has consumed stays consumed, whatever the rest of the loop does. -/
theorem Rounds.consumes {loop : Nat → α → Action β} {round : Nat → α → Action (β ⊕ ρ)} {again : ρ → α}
    {add : ρ → β → β} (h : Rounds loop round again add) {fuel : Nat} {a : α} {b : β}
    (hloop : loop fuel a p = .ok b q) : ∃ ts, Consumes p ts q := by
  induction fuel generalizing a b p with
  | zero =>
    rw [h.loop_zero] at hloop
    cases hloop
  | succ fuel ih =>
    rw [h.loop_succ] at hloop
    obtain ⟨outcome, p₁, hround, hrest⟩ := bind_eq_ok.1 hloop
    obtain ⟨ts, hts, -⟩ := h.round_ok hround
    cases outcome with
    | inl b =>
      obtain ⟨rfl, rfl⟩ := pure_eq_ok.1 hrest
      exact ⟨ts, hts⟩
    | inr x =>
      obtain ⟨b', p₂, hmore, hpure⟩ := bind_eq_ok.1 hrest
      obtain ⟨-, rfl⟩ := pure_eq_ok.1 hpure
      obtain ⟨us, hus⟩ := ih hmore
      exact ⟨ts ++ us, hts.trans hus⟩

def argumentRound (expr : Nested) : Action ((List Expr × Token) ⊕ Expr) := do
  let argument ← expr 0
  let token ← expectToken "call arguments"
  if token.kind = .comma then return .inr argument
  else if token.kind = .closeParen then return .inl ([argument], token)
  else failExpected "',' or ')'" token

def suffixRound (expr : Nested) (fuel : Nat) (operand : Expr) : Action (Expr ⊕ Expr) := do
  match ← advance (← continuesAcrossLines) with
  | none => return .inl operand
  | some token =>
    if token.kind = .openParen then return .inr (← call expr (fuel + 1) operand token)
    else if token.kind = .openSquareBracket then return .inr (← index expr operand token)
    else
      unread
      return .inl operand

def operatorRound (expr : Nested) (least : Nat) (left : Expr) : Action (Expr ⊕ Expr) := do
  match ← advance (← continuesAcrossLines) with
  | none => return .inl left
  | some operator => match operator.kind.bindingPower? with
    | none =>
      unread
      return .inl left
    | some power =>
      if power.left < least then
        unread
        return .inl left
      else
        let right ← expr power.right
        return .inr (← join left operator right)

def parameterRound (slot : ParameterSlot) :
    Action ((List Parameter × Token) ⊕ (ParameterSlot × Option Parameter)) := do
  let token ← expectToken "parameters"
  match token.kind, slot with
  | .closeParen, .nameOrClose | .closeParen, .commaOrClose => return .inl ([], token)
  | .comma, .commaOrClose => return .inr (.name, none)
  | .comma, _ => fail .unexpectedComma (some token.span)
  | .identifier text, .nameOrClose | .identifier text, .name =>
    let type ← parameterType
    return .inr (.commaOrClose, some ⟨⟨text, token.span⟩, type⟩)
  | _, .commaOrClose => failExpected "',' or ')'" token
  | _, _ => failExpected "parameter name" token

def Nested.Progresses (expr : Nested) : Prop :=
  ∀ least p e q, expr least p = .ok e q → Parser.Progresses p q

section

variable {expr : Nested} (hexpr : expr.Progresses)
include hexpr

theorem arguments_rounds : Rounds (fun fuel (_ : Unit) ↦ arguments expr fuel) (fun _ _ ↦ argumentRound expr)
    (fun _ ↦ ()) (fun argument r ↦ (argument :: r.1, r.2)) where
  loop_zero _ := rfl
  loop_succ fuel _ := by
    rw [arguments, argumentRound]
    simp only [bind_assoc]
    refine bind_congr fun argument ↦ bind_congr fun token ↦ ?_
    split
    · simp only [pure_bind]
    split
    · simp only [pure_bind]
    · rfl
  round_ok {fuel _ outcome p q} h := by
    obtain ⟨argument, p₁, h₁, h₂⟩ := bind_eq_ok.1 h
    obtain ⟨token, p₂, h₃, h₄⟩ := bind_eq_ok.1 h₂
    obtain ⟨hm, hn⟩ := expectToken_ok h₃
    obtain ⟨ts, hne, hts⟩ := (hexpr 0 _ _ _ h₁).trans (.of_next hm hn)
    split at h₄
    · obtain ⟨-, rfl⟩ := pure_eq_ok.1 h₄
      exact ⟨ts, hts, fun _ ↦ hne⟩
    split at h₄
    · obtain ⟨-, rfl⟩ := pure_eq_ok.1 h₄
      exact ⟨ts, hts, fun _ ↦ hne⟩
    · exact absurd h₄ failExpected_ne_ok

theorem call_consumes {fuel : Nat} {callee e : Expr} {openToken : Token}
    (h : call expr fuel callee openToken p = .ok e q) : ∃ ts, Consumes p ts q := by
  obtain ⟨p₁, q₁, hbody, henclosed⟩ := enclosed_consumes h
  obtain ⟨closing, p₂, hmatch, hrest⟩ := bind_eq_ok.1 hbody
  cases closing with
  | some closeToken =>
    obtain ⟨-, rfl⟩ := pure_eq_ok.1 hrest
    obtain ⟨hm, hn, -⟩ := matchToken_some hmatch
    exact ⟨_, henclosed _ (.of_next hm hn)⟩
  | none =>
    obtain ⟨⟨args, closeToken⟩, p₃, hargs, hpure⟩ := bind_eq_ok.1 hrest
    obtain ⟨-, rfl⟩ := pure_eq_ok.1 hpure
    obtain ⟨hm, hlooked, -⟩ := matchToken_none hmatch
    obtain ⟨ts, hts⟩ := (arguments_rounds hexpr).consumes (a := ()) hargs
    exact ⟨_, henclosed _ ((Consumes.of_looked hm hlooked).trans hts)⟩

theorem index_consumes {target e : Expr} {openToken : Token} (h : index expr target openToken p = .ok e q) :
    ∃ ts, Consumes p ts q := by
  obtain ⟨p₁, q₁, hbody, henclosed⟩ := enclosed_consumes h
  obtain ⟨i, p₂, hindex, hrest⟩ := bind_eq_ok.1 hbody
  obtain ⟨closeToken, p₃, hclosing, hpure⟩ := bind_eq_ok.1 hrest
  obtain ⟨-, rfl⟩ := pure_eq_ok.1 hpure
  obtain ⟨hm, hn, -⟩ := expectClosing_ok hclosing
  obtain ⟨ts, -, hts⟩ := (hexpr 0 _ _ _ hindex).trans (.of_next hm hn)
  exact ⟨ts, henclosed ts hts⟩

theorem suffixes_rounds : Rounds (suffixes expr) (suffixRound expr) id (fun _ e ↦ e) where
  loop_zero _ := rfl
  loop_succ fuel operand := by
    rw [suffixes, suffixRound]
    simp only [bind_assoc, id_eq, bind_pure]
    refine bind_congr fun acrossLines ↦ bind_congr fun next ↦ ?_
    cases next with
    | none => simp only [pure_bind]
    | some token =>
      dsimp only
      split
      · simp only [bind_assoc, pure_bind]
      split
      · simp only [bind_assoc, pure_bind]
      · simp only [bind_assoc, pure_bind]
  round_ok {fuel operand outcome p q} h := by
    rw [suffixRound, continuesAcrossLines_bind] at h
    obtain ⟨next, p₁, h₁, h₂⟩ := bind_eq_ok.1 h
    cases next with
    | none =>
      obtain ⟨rfl, rfl⟩ := pure_eq_ok.1 h₂
      exact ⟨[], consumes_of_advance_none h₁, fun h ↦ absurd h Bool.false_ne_true⟩
    | some token =>
      obtain ⟨hm, hn, -⟩ := advance_some h₁
      have followed {ts : List Token} (hts : Consumes p₁ ts q) :
          ∃ ts, Consumes p ts q ∧ (outcome.isRight = true → ts ≠ []) :=
        ⟨token :: ts, (Consumes.of_next hm hn).trans hts, fun _ ↦ List.cons_ne_nil _ _⟩
      dsimp only at h₂
      split at h₂
      · obtain ⟨e, p₂, hcall, hpure⟩ := bind_eq_ok.1 h₂
        obtain ⟨-, rfl⟩ := pure_eq_ok.1 hpure
        obtain ⟨ts, hts⟩ := call_consumes hexpr hcall
        exact followed hts
      split at h₂
      · obtain ⟨e, p₂, hindex, hpure⟩ := bind_eq_ok.1 h₂
        obtain ⟨-, rfl⟩ := pure_eq_ok.1 hpure
        obtain ⟨ts, hts⟩ := index_consumes hexpr hindex
        exact followed hts
      · obtain ⟨hback, rfl⟩ := consumes_of_unread h₁ h₂
        exact ⟨[], hback, fun h ↦ absurd h Bool.false_ne_true⟩

theorem operators_rounds (least : Nat) : Rounds (operators expr least) (fun _ ↦ operatorRound expr least) id
    (fun _ e ↦ e) where
  loop_zero _ := rfl
  loop_succ fuel left := by
    rw [operators, operatorRound]
    simp only [bind_assoc, id_eq, bind_pure]
    refine bind_congr fun acrossLines ↦ bind_congr fun next ↦ ?_
    cases next with
    | none => simp only [pure_bind]
    | some operator =>
      dsimp only
      cases operator.kind.bindingPower? with
      | none => simp only [bind_assoc, pure_bind]
      | some power =>
        dsimp only
        split
        · simp only [bind_assoc, pure_bind]
        · simp only [bind_assoc, pure_bind]
  round_ok {fuel left outcome p q} h := by
    rw [operatorRound, continuesAcrossLines_bind] at h
    obtain ⟨next, p₁, h₁, h₂⟩ := bind_eq_ok.1 h
    cases next with
    | none =>
      obtain ⟨rfl, rfl⟩ := pure_eq_ok.1 h₂
      exact ⟨[], consumes_of_advance_none h₁, fun h ↦ absurd h Bool.false_ne_true⟩
    | some operator =>
      dsimp only at h₂
      cases hpower : operator.kind.bindingPower? with
      | none =>
        rw [hpower] at h₂
        obtain ⟨hback, rfl⟩ := consumes_of_unread h₁ h₂
        exact ⟨[], hback, fun h ↦ absurd h Bool.false_ne_true⟩
      | some power =>
        rw [hpower] at h₂
        dsimp only at h₂
        split at h₂
        · obtain ⟨hback, rfl⟩ := consumes_of_unread h₁ h₂
          exact ⟨[], hback, fun h ↦ absurd h Bool.false_ne_true⟩
        · obtain ⟨right, p₂, hright, hrest⟩ := bind_eq_ok.1 h₂
          obtain ⟨e, p₃, hjoin, hpure⟩ := bind_eq_ok.1 hrest
          obtain ⟨rfl, rfl⟩ := pure_eq_ok.1 hpure
          obtain ⟨rfl, -⟩ := join_ok hjoin
          obtain ⟨hm, hn, -⟩ := advance_some h₁
          obtain ⟨ts, hne, hts⟩ := (Progresses.of_next hm hn).trans (hexpr _ _ _ _ hright)
          exact ⟨ts, hts, fun _ ↦ hne⟩

end

theorem parameters_rounds : Rounds parameters (fun _ ↦ parameterRound) Prod.fst
    (fun x r ↦ (x.2.toList ++ r.1, r.2)) where
  loop_zero _ := rfl
  loop_succ fuel slot := by
    rw [parameters, parameterRound]
    simp only [bind_assoc]
    refine bind_congr fun token ↦ ?_
    obtain ⟨kind, span⟩ := token
    cases kind with
    | identifier text =>
      cases slot with
      | commaOrClose => rfl
      | nameOrClose | name => simp only [bind_assoc, pure_bind, Option.toList_some, List.singleton_append]
    | closeParen =>
      cases slot with
      | name => rfl
      | nameOrClose | commaOrClose => simp only [pure_bind]
    | comma =>
      cases slot with
      | commaOrClose =>
        rw [pure_bind]
        exact (bind_pure _).symm
      | nameOrClose | name => rfl
    | _ => cases slot <;> rfl
  round_ok {fuel slot outcome p q} h := by
    obtain ⟨token, p₁, h₁, h₂⟩ := bind_eq_ok.1 h
    obtain ⟨hm, hn⟩ := expectToken_ok h₁
    have hfirst := Consumes.of_next hm hn
    -- Only a name is followed by more tokens in its round, namely by its type.
    have typed {text : String} {slot' : ParameterSlot}
        (h : (do
          let type ← parameterType
          return .inr (slot', some ⟨⟨text, token.span⟩, type⟩) :
            Action ((List Parameter × Token) ⊕ (ParameterSlot × Option Parameter))) p₁ = .ok outcome q) :
        ∃ ts, Consumes p ts q ∧ (outcome.isRight = true → ts ≠ []) := by
      obtain ⟨type, p₂, htype, hpure⟩ := bind_eq_ok.1 h
      obtain ⟨-, rfl⟩ := pure_eq_ok.1 hpure
      obtain ⟨hmoves, hreads⟩ := parameterType_ok htype
      obtain ⟨ts, hleads, -⟩ := hreads.spells
      exact ⟨token :: ts, hfirst.trans (.of_contents hmoves hleads.contents), fun _ ↦ List.cons_ne_nil _ _⟩
    have here (hp : p₁ = q) : ∃ ts, Consumes p ts q ∧ (outcome.isRight = true → ts ≠ []) :=
      ⟨[token], hp ▸ hfirst, fun _ ↦ List.cons_ne_nil _ _⟩
    obtain ⟨kind, span⟩ := token
    cases kind with
    | identifier text =>
      cases slot with
      | commaOrClose => exact absurd h₂ failExpected_ne_ok
      | nameOrClose | name => exact typed h₂
    | closeParen =>
      cases slot with
      | name => exact absurd h₂ failExpected_ne_ok
      | nameOrClose | commaOrClose => exact here (pure_eq_ok.1 h₂).2
    | comma =>
      cases slot with
      | commaOrClose => exact here (pure_eq_ok.1 h₂).2
      | nameOrClose | name => exact absurd h₂ fail_ne_ok
    | _ => cases slot <;> exact absurd h₂ failExpected_ne_ok

theorem next_progresses {fuel : Nat} (h : next fuel p = .ok true q) : Progresses (begun p) q := by
  obtain ⟨c, r, hm, rfl, -, hreads⟩ := next_true h
  have hspells : Spells (begun p).upcoming c.pieces r.upcoming := by
    rw [upcoming_begun]
    exact hreads.spells
  obtain ⟨ts, hne, hts⟩ := Progresses.of_spells hm hspells c.pieces_ne_nil
  exact ⟨ts, hne, hts.tokens, hts.upcoming⟩

end Action

theorem Progresses.length_lt (h : Progresses p q) : q.upcoming.length < p.upcoming.length := by
  obtain ⟨ts, hne, h⟩ := h
  have hlength := congrArg List.length h.upcoming
  rw [List.length_map, List.length_append, List.length_map, List.length_map] at hlength
  have := List.length_pos_iff.2 hne
  omega

inductive EndsAfter : Nat → Parser → Prop
  | stop {p : Parser} : (∀ q, p.next ≠ .ok true q) → EndsAfter 0 p
  | construct {n : Nat} {p q : Parser} : p.next = .ok true q → EndsAfter n q → EndsAfter (n + 1) p

/-- There are no more constructs than tokens. -/
theorem exists_endsAfter (p : Parser) : ∃ n ≤ p.upcoming.length, EndsAfter n p := by
  by_cases h : ∃ q, p.next = .ok true q
  · obtain ⟨q, hq⟩ := h
    have hlt : q.upcoming.length < p.upcoming.length := by
      rw [← Action.upcoming_begun p]
      exact (Action.next_progresses hq).length_lt
    obtain ⟨n, hn, hends⟩ := exists_endsAfter q
    exact ⟨n + 1, Nat.lt_of_le_of_lt hn hlt, .construct hq hends⟩
  · exact ⟨0, Nat.zero_le _, .stop (not_exists.1 h)⟩
termination_by p.upcoming.length
decreasing_by exact hlt

end Linewise.Parser
