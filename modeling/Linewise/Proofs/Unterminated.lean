import Mathlib.Algebra.Ring.Int.Defs
import Linewise.Proofs.ErrorPlaces
import Linewise.Proofs.Lossless
import Linewise.Proofs.Parser.ProgramCongruence
import Linewise.Proofs.Parser.ProgramRejectionCompleteness

namespace Linewise

open Upcoming Linewise.Parser

namespace TokenKind

def turn : TokenKind → Int
  | openParen | openSquareBracket => 1
  | closeParen | closeSquareBracket => -1
  | _ => 0

theorem turn_of_isLiteral {k : TokenKind} (h : k.isLiteral = true) : k.turn = 0 := by
  cases k <;> first | rfl | cases h

theorem turn_of_isUnary {k : TokenKind} (h : k.IsUnary) : k.turn = 0 := by
  rcases h with rfl | rfl | rfl <;> rfl

theorem turn_of_bindingPower? {k : TokenKind} {power : BindingPower}
    (h : k.bindingPower? = some power) : k.turn = 0 := by
  cases k <;> first | rfl | cases h

end TokenKind

namespace Upcoming

def turn (i : Upcoming) : Int :=
  match i.content with
  | .ok t => t.kind.turn
  | .error _ => 0

def rise (xs : List Upcoming) : Int := (xs.map turn).sum

variable {b : Bool} {xs ys : List Upcoming} {t : Token}

theorem rise_of_contents {ts : List Token} (h : xs.map (·.content) = ts.map .ok) :
    rise xs = (ts.map (·.kind.turn)).sum := by
  induction ts generalizing xs with
  | nil =>
    obtain rfl := List.map_eq_nil_iff.1 h
    rfl
  | cons t ts ih =>
    cases xs with
    | nil => cases h
    | cons i xs =>
      obtain ⟨hi, hx⟩ := List.cons.inj h
      simp only [rise, List.map_cons, List.sum_cons, turn, hi]
      rw [← ih hx, rise]

theorem Next.rise (h : Next b xs t ys) : rise xs = t.kind.turn + rise ys := by
  obtain ⟨later, rfl, -⟩ := h
  rfl

@[simp]
theorem rise_looked (b : Bool) (xs : List Upcoming) : rise (looked b xs) = rise xs := by
  cases xs <;> rfl

def AreTokens (xs : List Upcoming) : Prop := ∃ ts : List Token, xs.map (·.content) = ts.map .ok

theorem Next.areTokens (h : Next b xs t ys) (hy : AreTokens ys) : AreTokens xs := by
  obtain ⟨later, rfl, -⟩ := h
  obtain ⟨ts, hts⟩ := hy
  exact ⟨t :: ts, by rw [List.map_cons, hts, List.map_cons]⟩

end Upcoming

theorem Leads.areTokens {xs ys : List Upcoming} {ts : List Token} (h : Leads xs ts ys) (hy : AreTokens ys) :
    AreTokens xs := by
  obtain ⟨us, hus⟩ := hy
  exact ⟨ts ++ us, by rw [h.contents, hus, List.map_append]⟩

/-- A phrase closes the brackets that it opens, and arguments close that of their call. -/
def Phrase.turn : Phrase → Int
  | primary _ | suffix _ _ | suffixes _ _ | operand _ | operators _ _ _ | expression _ _ => 0
  | arguments _ _ => -1

theorem Reads.rise {b : Bool} {phrase : Phrase} {xs ys : List Upcoming} (h : Reads b phrase xs ys) :
    rise xs = rise ys + phrase.turn := by
  induction h with
  | @literal b l xs ys hn =>
    rw [hn.rise, TokenKind.turn_of_isLiteral l.isLiteral, Phrase.turn]
    omega
  | name hn =>
    rw [hn.rise]
    exact Int.add_comm _ _
  | dereference hn hk hn' =>
    rw [hn.rise, hn'.rise, hk]
    simp [TokenKind.turn, Phrase.turn, Identifier.token]
  | group hn hk _ hc hck ih | index hn hk _ hc hck ih =>
    rw [hn.rise, ih, hc.rise, hk, hck]
    simp only [TokenKind.turn, Phrase.turn]
    omega
  | emptyCall hn hk hc hck =>
    rw [hn.rise, hc.rise, hk, hck]
    simp only [TokenKind.turn, Phrase.turn]
    omega
  | call hn hk _ _ ih =>
    rw [rise_looked] at ih
    rw [hn.rise, ih, hk]
    simp only [TokenKind.turn, Phrase.turn]
    omega
  | noSuffix | noOperator => simp [Phrase.turn]
  | moreSuffixes _ _ ih₁ ih₂ | suffixed _ _ ih₁ ih₂ | expression _ _ ih₁ ih₂ =>
    rw [ih₁, ih₂]
    simp [Phrase.turn]
  | unary hn hk _ ih =>
    rw [hn.rise, ih, TokenKind.turn_of_isUnary hk]
    simp [Phrase.turn]
  | lastArgument _ hc hck ih =>
    rw [ih, hc.rise, hck]
    simp only [TokenKind.turn, Phrase.turn]
    omega
  | moreArguments _ hc hck _ ih₁ ih₂ =>
    rw [ih₁, hc.rise, ih₂, hck]
    simp only [TokenKind.turn, Phrase.turn]
    omega
  | operator hn hp _ _ _ _ ih₁ ih₂ =>
    rw [hn.rise, ih₁, ih₂, TokenKind.turn_of_bindingPower? hp]
    simp [Phrase.turn]

theorem Reads.areTokens {b : Bool} {phrase : Phrase} {xs ys : List Upcoming} (h : Reads b phrase xs ys)
    (hy : AreTokens ys) : AreTokens xs := by
  obtain ⟨_, -, ts, hl, -⟩ := h.spells
  exact hl.areTokens hy

/-- An unterminated construct ends where the text does. -/
theorem Upcoming.Halts.eq_nil {b : Bool} {absence : Option GrammarError}
    {wrong : Token → Option GrammarError} {xs : List Upcoming} {e : SyntaxError}
    (h : Halts b absence wrong xs e) (he : e.code = .P0002) (hwrong : Token.Blames wrong)
    (habsence : ∀ g ∈ absence, g.cause.code = .P0002 → b = true) : b = true ∧ xs = [] := by
  cases h with
  | @lexical later e' => exact absurd he e'.cause.code_ne
  | absent hn hg =>
    obtain rfl := habsence _ hg he
    exact ⟨rfl, Action.upcoming_eq_nil hn⟩
  | @token t xs ys g hn hg => exact absurd he (hwrong t g hg).2.1

theorem Upcoming.HaltsIn.eq_nil {construct : String} {wrong : Token → Option GrammarError}
    {xs : List Upcoming} {e : SyntaxError} (h : HaltsIn construct wrong xs e) (he : e.code = .P0002)
    (hwrong : Token.Blames wrong) : xs = [] := (Halts.eq_nil h he hwrong fun _ _ _ ↦ rfl).2

theorem Upcoming.Halts.code_ne {b : Bool} {wrong : Token → Option GrammarError} {xs : List Upcoming}
    {e : SyntaxError} (h : Halts b none wrong xs e) (hwrong : Token.Blames wrong) :
    e.code ≠ .P0002 := by
  cases h with
  | @lexical later e' => exact e'.cause.code_ne
  | absent _ hg => cases hg
  | @token t xs ys g hn hg => exact (hwrong t g hg).2.1

/-- What is left when the text ends inside an expression: nothing but tokens, and more brackets are open
before their end than are closed, those around the expression included. -/
structure LeavesOpen (b : Bool) (xs : List Upcoming) : Prop where
  areTokens : AreTokens xs
  rise : (if b then 0 else 1) ≤ rise xs

theorem leavesOpen_nil : LeavesOpen true [] := ⟨⟨[], rfl⟩, Int.le_refl 0⟩

namespace LeavesOpen

variable {b c : Bool} {xs ys : List Upcoming} {t : Token}

theorem next (h : LeavesOpen b ys) (hn : Next c xs t ys) (ht : t.kind.turn = 0) : LeavesOpen b xs := by
  refine ⟨hn.areTokens h.areTokens, ?_⟩
  rw [hn.rise, ht, Int.zero_add]
  exact h.rise

theorem bracket (h : LeavesOpen true ys) (hn : Next c xs t ys) (ht : t.kind.turn = 1) :
    LeavesOpen b xs := by
  have hr := h.rise
  refine ⟨hn.areTokens h.areTokens, ?_⟩
  rw [hn.rise, ht]
  simp only [if_true] at hr
  split <;> omega

theorem reads {phrase : Phrase} (h : LeavesOpen b ys) (hr : Reads c phrase xs ys)
    (hp : ∀ args closeToken, phrase ≠ .arguments args closeToken) : LeavesOpen b xs := by
  have hrise := hr.rise
  refine ⟨hr.areTokens h.areTokens, ?_⟩
  have hy := h.rise
  cases phrase with
  | arguments args closeToken => exact absurd rfl (hp args closeToken)
  | _ =>
    rw [hrise, Phrase.turn, Int.add_zero]
    exact hy

end LeavesOpen

theorem noOperand_absence (b : Bool) (last : Option Token) :
    ∀ g ∈ some (GrammarError.noOperand b last), g.cause.code = .P0002 → b = true := by
  intro g hg hc
  cases hg
  cases b with
  | true => rfl
  | false => cases hc

theorem Rejects.leavesOpen {limit room : Nat} {b : Bool} {goal : Goal} {xs : List Upcoming}
    {e : SyntaxError} (h : Rejects limit room b goal xs e) (he : e.code = .P0002) : LeavesOpen b xs := by
  induction h with
  | operand h =>
    obtain ⟨rfl, rfl⟩ := h.eq_nil he Token.blames_requireOperand (noOperand_absence _ _)
    exact leavesOpen_nil
  | dereference hn hk h =>
    obtain ⟨rfl, rfl⟩ := h.eq_nil he (Token.blames_requireName _) (noOperand_absence _ _)
    exact leavesOpen_nil.next hn (by rw [hk]; rfl)
  | group hn hk _ ih | index hn hk _ ih => exact (ih he).bracket hn (by rw [hk]; rfl)
  | groupEnd hn hk hr h | indexEnd hn hk hr h =>
    obtain rfl := HaltsIn.eq_nil h he (Token.blames_require _ _)
    exact (leavesOpen_nil.reads hr.1 nofun).bracket hn (by rw [hk]; rfl)
  | unary hn hk _ ih => exact (ih he).next hn (TokenKind.turn_of_isUnary hk)
  | suffixed hr _ ih | moreSuffixes hr _ ih | expression hr _ ih => exact (ih he).reads hr.1 nofun
  | suffixes h | operators h | call _ _ h => exact absurd he (Halts.code_ne h Token.blames_nothing)
  | callArguments hn hk _ _ ih =>
    have hopen := ih he
    refine LeavesOpen.bracket ⟨?_, ?_⟩ hn (by rw [hk]; rfl)
    · obtain ⟨ts, hts⟩ := hopen.areTokens
      exact ⟨ts, by rwa [map_content_looked] at hts⟩
    · have := hopen.rise
      rwa [rise_looked] at this
  | argument _ ih => exact ih he
  | argumentEnd hr h =>
    obtain rfl := HaltsIn.eq_nil h he Token.blames_requireSeparator
    exact leavesOpen_nil.reads hr.1 nofun
  | moreArguments hr hn hk _ ih => exact ((ih he).next hn (by rw [hk]; rfl)).reads hr.1 nofun
  | rightOperand hn hp _ _ ih => exact (ih he).next hn (TokenKind.turn_of_bindingPower? hp)
  | target | tooDeep => cases he
  | moreOperators hn hp _ hr _ _ ih =>
    exact ((ih he).reads hr.1 nofun).next hn (TokenKind.turn_of_bindingPower? hp)
  | left _ ih => exact ih he

namespace Upcoming

def InHeader (xs : List Upcoming) : Prop :=
  ∃ ts : List Token, xs.map (·.content) = ts.map .ok ∧ ∀ t ∈ ts, t.kind ≠ .openCurlyBrace

theorem inHeader_nil : InHeader [] := ⟨[], rfl, by simp⟩

theorem Next.inHeader {b : Bool} {xs ys : List Upcoming} {t : Token} (h : Next b xs t ys)
    (ht : t.kind ≠ .openCurlyBrace) (hy : InHeader ys) : InHeader xs := by
  obtain ⟨later, rfl, -⟩ := h
  obtain ⟨ts, hts, hall⟩ := hy
  exact ⟨t :: ts, by rw [List.map_cons, hts, List.map_cons], List.forall_mem_cons.2 ⟨ht, hall⟩⟩

theorem Next.inHeader_name {b : Bool} {xs ys : List Upcoming} {n : Identifier} (h : Next b xs n.token ys)
    (hy : InHeader ys) : InHeader xs := h.inHeader (by simp [Identifier.token]) hy

theorem InHeader.of_looked {b : Bool} {xs : List Upcoming} (h : InHeader (looked b xs)) : InHeader xs := by
  obtain ⟨ts, hts, hall⟩ := h
  exact ⟨ts, by rwa [map_content_looked] at hts, hall⟩

end Upcoming

theorem ReadsType.inHeader {mark : TokenKind} {type : Option Identifier} {xs ys : List Upcoming}
    (h : ReadsType mark type xs ys) (hm : mark ≠ .openCurlyBrace) (hy : InHeader ys) : InHeader xs := by
  cases h with
  | absent => exact hy.of_looked
  | given hn hk hn' => exact hn.inHeader (hk ▸ hm) (hn'.inHeader_name hy)

theorem ReadsParameters.inHeader {slot : Action.ParameterSlot} {params : List Parameter} {closeParen : Token}
    {xs ys : List Upcoming} (h : ReadsParameters slot params closeParen xs ys) (hy : InHeader ys) :
    InHeader xs := by
  induction h with
  | close hn hk => exact hn.inHeader (by simp [hk]) hy
  | comma hn hk _ ih => exact hn.inHeader (by simp [hk]) (ih hy)
  | parameter _ hn ht _ ih => exact hn.inHeader_name (ht.inHeader (by decide) (ih hy))

theorem RejectsType.inHeader {mark : TokenKind} {construct what : String} {xs : List Upcoming}
    {e : SyntaxError} (h : RejectsType mark construct what xs e) (hm : mark ≠ .openCurlyBrace)
    (he : e.code = .P0002) : InHeader xs := by
  cases h with
  | mark h => exact absurd he (Halts.code_ne h Token.blames_nothing)
  | name hn hk h =>
    obtain rfl := HaltsIn.eq_nil h he (Token.blames_requireName what)
    exact hn.inHeader (hk ▸ hm) inHeader_nil

theorem RejectsParameters.inHeader {slot : Action.ParameterSlot} {xs : List Upcoming} {e : SyntaxError}
    (h : RejectsParameters slot xs e) (he : e.code = .P0002) : InHeader xs := by
  induction h with
  | slot h =>
    obtain rfl := HaltsIn.eq_nil h he (Token.blames_requireSlot _)
    exact inHeader_nil
  | comma hn hk _ ih => exact hn.inHeader (by simp [hk]) (ih he)
  | type _ hn h => exact hn.inHeader_name (h.inHeader (by decide) he)
  | parameter _ hn ht _ ih => exact hn.inHeader_name (ht.inHeader (by decide) (ih he))

theorem RejectsHeader.inHeader {xs : List Upcoming} {e : SyntaxError} (h : RejectsHeader xs e)
    (he : e.code = .P0002) : InHeader xs := by
  cases h with
  | name h =>
    obtain rfl := HaltsIn.eq_nil h he Token.blames_requireFunctionName
    exact inHeader_nil
  | openParen hn h =>
    obtain rfl := HaltsIn.eq_nil h he (Token.blames_require _ _)
    exact hn.inHeader_name inHeader_nil
  | parameters hn hn' hk h => exact hn.inHeader_name (hn'.inHeader (by simp [hk]) (h.inHeader he))
  | returnType hn hn' hk hr h =>
    exact hn.inHeader_name (hn'.inHeader (by simp [hk]) (hr.inHeader (h.inHeader (by decide) he)))
  | bodyOpen hn hn' hk hr ht h =>
    obtain rfl := HaltsIn.eq_nil h he (Token.blames_require _ _)
    have htype := ht.inHeader (by decide) inHeader_nil
    exact hn.inHeader_name (hn'.inHeader (by simp [hk]) (hr.inHeader htype))

/-- The tokens break off in a function header, before its body begins, or where a round or square bracket
is open. -/
inductive BreaksOff : List Token → Prop
  | header {keyword : Token} {more : List Token} : keyword.kind = .keyword "fn" →
      (∀ t ∈ more, t.kind ≠ .openCurlyBrace) → BreaksOff (keyword :: more)
  | bracket {ts : List Token} : 0 < (ts.map (·.kind.turn)).sum → BreaksOff ts

theorem LeavesOpen.breaksOff {xs : List Upcoming} (h : LeavesOpen false xs) :
    ∃ ts : List Token, xs.map (·.content) = ts.map .ok ∧ BreaksOff ts := by
  obtain ⟨ts, hts⟩ := h.areTokens
  have hr := h.rise
  rw [rise_of_contents hts] at hr
  exact ⟨ts, hts, .bracket hr⟩

theorem RejectsStatement.leavesOpen {limit : Nat} {last : Option Token} {xs : List Upcoming}
    {e : SyntaxError} (h : RejectsStatement limit last xs e) (he : e.code = .P0002) :
    LeavesOpen false xs := by
  cases h with
  | expression h => exact h.leavesOpen he
  | statementEnd _ h => exact absurd he (Halts.code_ne h (Token.blames_require _ _))

theorem RejectsConstruct.breaksOff {limit : Nat} {xs : List Upcoming} {e : SyntaxError}
    (h : RejectsConstruct limit xs e) (he : e.code = .P0002) :
    ∃ ts : List Token, xs.map (·.content) = ts.map .ok ∧ BreaksOff ts := by
  cases h with
  | start h => exact absurd he (Halts.code_ne h Token.blames_requireConstruct)
  | word _ _ h => exact absurd he (Halts.code_ne h (Token.blames_require _ _))
  | returned _ _ h => exact absurd he (Halts.code_ne h Token.blames_nothing)
  | returnValue hn hk _ _ h => exact ((h.leavesOpen he).next hn (by rw [hk]; rfl)).breaksOff
  | function hn hk h =>
    obtain ⟨ts, hts, hall⟩ := h.inHeader he
    obtain ⟨later, rfl, -⟩ := hn
    exact ⟨_ :: ts, by rw [List.map_cons, hts, List.map_cons], .header hk hall⟩
  | expression hn _ h =>
    obtain ⟨ts, hts, hbreaks⟩ := (h.leavesOpen he).breaksOff
    obtain ⟨later, rfl, -⟩ := hn
    exact ⟨ts, hts, hbreaks⟩

/-- Before the construct that is not read come others, which are built. -/
theorem RejectsProgram.exists_builds {limit : Nat} {xs : List Upcoming} {e : SyntaxError}
    (h : RejectsProgram limit xs e) {p : Parser} (hp : p.upcoming = xs) (hroom : p.HasRoom limit limit) :
    ∃ built q, Builds p built q ∧ q.HasRoom limit limit ∧ RejectsConstruct limit q.upcoming e ∧
      p.upcoming.map (·.content) =
        (built.flatMap (·.2.toList)).map .ok ++ q.upcoming.map (·.content) := by
  induction h generalizing p with
  | here h => exact ⟨[], p, .nothing, hroom, hp ▸ h, rfl⟩
  | @later c xs ys e hc hfits _ ih =>
    subst hp
    have hl : p.upcoming.length < p.fuel := length_lt_fuel p
    obtain ⟨r, hr, hm, hu⟩ := Action.next_of_reads hc hl
      fun value hv ↦ (hroom.fits_iff _).2 (by have := hfits value hv; omega)
    have hnext : p.next = .ok true { r with result := some c } := hr
    obtain ⟨built, q, hb, hq, hrejects, hcontents⟩ := ih (p := { r with result := some c }) hu
      ⟨hm.nestingLimit.trans hroom.nestingLimit, hm.nestingDepth.symm ▸ hroom.depth⟩
    obtain ⟨-, -, -, -, hsplit⟩ := next_spells hnext
    refine ⟨_, q, .next hnext rfl hb, hq, hrejects, ?_⟩
    rw [hsplit, hcontents]
    simp

/-- Every error is located, except that of a text that ends inside a construct. Then the text consists of
tokens, the parser has read them all, and those of the construct in progress break off in a header or
inside a bracket. -/
theorem error_located {source : String} {e : SyntaxError} (h : parse source = .error (.rejected e)) :
    (e.span? = none ↔ e.code = .P0002) ∧
    (∀ span ∈ e.span?, span.LiesIn (Text.lines source.toList)) ∧
    (e.span? = none → ∃ tokens built p q, tokenize source = .ok tokens ∧
      Builds (.ofSource source) built p ∧ p.next = .error (.rejected e) q ∧
      tokens.toList = built.flatMap (·.2.toList) ++ q.tokens.toList ∧ BreaksOff q.tokens.toList) := by
  have hrejects := parse_rejected_iff.1 h
  have hlocated := hrejects.located (by decide) (lieIn_ofText source.toList false)
  refine ⟨hlocated.unlocated, hlocated.liesIn, fun hnone ↦ ?_⟩
  have hcode := hlocated.unlocated.1 hnone
  obtain ⟨built, p, hbuilds, hroom, hconstruct, hcontents⟩ :=
    hrejects.exists_builds rfl (hasRoom_ofSource source)
  have hl : p.upcoming.length < p.fuel := length_lt_fuel p
  obtain ⟨q, hq⟩ := Action.next_fails hroom hl hconstruct
  obtain ⟨hread, -⟩ := (Action.next_error hroom hq).2 hcode
  obtain ⟨ts, hts, hbreaks⟩ := hconstruct.breaksOff hcode
  have htokens : ts = q.tokens.toList :=
    (List.map_inj_right fun _ _ h ↦ Except.ok.inj h).1 (hts.symm.trans hread)
  refine ⟨(built.flatMap (·.2.toList) ++ ts).toArray, built, p, q, ?_, hbuilds, hq, ?_, htokens ▸ hbreaks⟩
  · rw [tokenize_eq_ok, List.map_append, ← hts]
    exact hcontents
  · rw [htokens]

theorem error_located_header : ∃ e, parse "x\nfn f(a:\n" = .error (.rejected e) ∧
    (e.span? = none ↔ e.code = .P0002) ∧
    (∀ span ∈ e.span?, span.LiesIn (Text.lines "x\nfn f(a:\n".toList)) ∧
    (e.span? = none → ∃ tokens built p q, tokenize "x\nfn f(a:\n" = .ok tokens ∧
      Builds (.ofSource "x\nfn f(a:\n") built p ∧ p.next = .error (.rejected e) q ∧
      tokens.toList = built.flatMap (·.2.toList) ++ q.tokens.toList ∧ BreaksOff q.tokens.toList) := by
  have herror : (parse "x\nfn f(a:\n").map (fun _ ↦ ()) =
      .error (.rejected (.grammar ⟨.unterminated "parameters", none⟩)) := by decide +kernel
  cases h : parse "x\nfn f(a:\n" with
  | ok program =>
    rw [h] at herror
    cases herror
  | error e =>
    rw [h] at herror
    cases herror
    exact ⟨_, rfl, error_located h⟩

end Linewise
