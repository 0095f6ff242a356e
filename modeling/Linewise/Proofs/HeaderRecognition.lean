import Linewise.Proofs.HeaderReading
import Linewise.Proofs.Layout
import Linewise.Proofs.Lossless
import Linewise.Proofs.Parser.ProgramCongruence
import Linewise.Proofs.Parser.ProgramRejectionSoundness

namespace Linewise

open Upcoming HeaderLanguage
open scoped Computability

namespace HeaderLanguage

variable {w : List Token}

theorem exists_identifier (h : w ∈ name) : ∃ n : Identifier, Covers [.kept n.token] w := by
  obtain ⟨⟨kind, span⟩, rfl, text, rfl⟩ := h
  exact ⟨⟨text, span⟩, .cons rfl .nil⟩

theorem exists_type {mark : TokenKind} (h : w ∈ 1 + symbol mark * name) :
    ∃ type, Covers (typePieces mark type) w := by
  rcases (Language.mem_add _ _ _).1 h with h | h
  · obtain rfl := (Language.mem_one w).1 h
    exact ⟨none, .nil⟩
  · obtain ⟨_, ⟨t, rfl, ht⟩, v, hv, rfl⟩ := Language.mem_mul.1 h
    obtain ⟨n, hn⟩ := exists_identifier hv
    exact ⟨some n, .cons ht hn⟩

theorem exists_parameter (h : w ∈ parameter) : ∃ p : Parameter, Covers p.pieces w := by
  obtain ⟨u, hu, v, hv, rfl⟩ := Language.mem_mul.1 h
  obtain ⟨n, hn⟩ := exists_identifier hu
  obtain ⟨type, htype⟩ := exists_type hv
  exact ⟨⟨n, type⟩, List.rel_append hn htype⟩

theorem exists_moreParameters (h : w ∈ (symbol .comma * parameter)∗) :
    ∃ params : List Parameter, Covers (params.flatMap fun p ↦ .dropped .comma :: p.pieces) w := by
  obtain ⟨parts, rfl, hparts⟩ := Language.mem_kstar.1 h
  clear h
  induction parts with
  | nil => exact ⟨[], .nil⟩
  | cons part parts ih =>
    obtain ⟨hpart, hmore⟩ := List.forall_mem_cons.1 hparts
    obtain ⟨_, ⟨comma, rfl, hcomma⟩, v, hv, rfl⟩ := Language.mem_mul.1 hpart
    obtain ⟨p, hp⟩ := exists_parameter hv
    obtain ⟨params, hparams⟩ := ih hmore
    exact ⟨p :: params, .cons hcomma (List.rel_append hp hparams)⟩

theorem exists_parameters (h : w ∈ 1 + parameter * (symbol .comma * parameter)∗) :
    ∃ params, Covers (parameterPieces params) w := by
  rcases (Language.mem_add _ _ _).1 h with h | h
  · obtain rfl := (Language.mem_one w).1 h
    exact ⟨[], .nil⟩
  · obtain ⟨u, hu, v, hv, rfl⟩ := Language.mem_mul.1 h
    obtain ⟨p, hp⟩ := exists_parameter hu
    obtain ⟨params, hparams⟩ := exists_moreParameters hv
    exact ⟨p :: params, List.rel_append hp hparams⟩

theorem exists_functionHeader {keyword : Token} (hk : keyword.kind = .keyword "fn") (h : w ∈ header) :
    ∃ f : FunctionHeader, f.SlotsRight ∧ Covers f.pieces (keyword :: w) := by
  obtain ⟨_, hfive, _, ⟨bodyOpen, rfl, hbodyOpen⟩, rfl⟩ := Language.mem_mul.1 h
  obtain ⟨_, hfour, resultTokens, hresult, rfl⟩ := Language.mem_mul.1 hfive
  obtain ⟨_, hthree, _, ⟨closeParen, rfl, hcloseParen⟩, rfl⟩ := Language.mem_mul.1 hfour
  obtain ⟨_, htwo, parameterTokens, hparameters, rfl⟩ := Language.mem_mul.1 hthree
  obtain ⟨nameTokens, hname, _, ⟨openParen, rfl, hopenParen⟩, rfl⟩ := Language.mem_mul.1 htwo
  obtain ⟨n, hn⟩ := exists_identifier hname
  obtain ⟨params, hparams⟩ := exists_parameters hparameters
  obtain ⟨type, htype⟩ := exists_type hresult
  refine ⟨⟨keyword, n, openParen, params, closeParen, type, bodyOpen⟩,
    ⟨hk, hopenParen, hcloseParen, hbodyOpen⟩, .cons rfl ?_⟩
  have single (t : Token) : Covers [.kept t] [t] := .cons rfl .nil
  have hcovers := List.rel_append hn (List.rel_append (single openParen) (List.rel_append
    (List.rel_append (List.rel_append hparams (single closeParen)) htype) (single bodyOpen)))
  simpa using hcovers

end HeaderLanguage

/-- The tokens of a header are read as this header wherever lines end. -/
theorem FunctionHeader.SlotsRight.reads {f : FunctionHeader} (hs : f.SlotsRight) {w : List Token}
    {items : List Upcoming} (hc : Covers f.pieces (f.keyword :: w))
    (hw : (items.take w.length).map (·.content) = w.map .ok) (later : Bool) :
    ReadsConstruct (⟨later, .ok f.keyword⟩ :: items) (.function f) (items.drop w.length) := by
  have hsame : SameContents (here w (items.drop w.length)) items := by
    conv_rhs => rw [← List.take_append_drop w.length items]
    rw [SameContents, here, List.map_append, List.map_append, hw, List.map_map]
    rfl
  have hreads : ReadsConstruct (onNextLine (f.keyword :: w) (items.drop w.length)) (.function f)
      (items.drop w.length) := function_reads hs hc
  cases hreads with
  | @function _ _ as bs cs ds es _ hn hk hn₁ hn₂ hk₂ hp ht hn₃ hk₃ =>
    obtain ⟨_, hcons, -⟩ := hn
    obtain rfl : here w (items.drop w.length) = as := (List.cons.inj hcons).2
    obtain ⟨bs', hn₁', hsame₁⟩ := hn₁.reread hsame
    obtain ⟨cs', hn₂', hsame₂⟩ := hn₂.reread hsame₁
    obtain ⟨ds', hp', hsame₃⟩ := hp.reread hsame₂
    obtain ⟨es', ht', hsame₄⟩ := ht.reread hsame₃
    obtain ⟨ys', hn₃', hsame₅⟩ := hn₃.reread hsame₄
    -- what is left is a part of the items, and as long as it should be
    obtain ⟨ts, hleads, -⟩ := between_spells hn₁' hn₂' hp' ht'
    obtain ⟨front, hfront⟩ := hleads.suffix hn₃'
    have hlength : ys'.length = (items.drop w.length).length := by
      simpa using (congrArg List.length hsame₅).symm
    obtain rfl : ys' = items.drop w.length :=
      (List.append_inj' (hfront.trans (List.take_append_drop w.length items).symm) hlength).2
    exact .function ⟨later, rfl, inReach_true _⟩ hk hn₁' hn₂' hk₂ hp' ht' hn₃' hk₃

namespace Parser

variable {p q : Parser} {later : Bool} {keyword : Token} {items : List Upcoming}

theorem next_header_error {e : SyntaxError} (hp : p.upcoming = ⟨later, .ok keyword⟩ :: items)
    (hk : keyword.kind = .keyword "fn") (h : p.next = .error (.rejected e) q) : RejectsHeader items e := by
  have hn : Next true (Action.begun p).upcoming keyword items :=
    ⟨later, (Action.upcoming_begun p).trans hp, inReach_true _⟩
  obtain ⟨p₁, hadvance, rfl⟩ := Action.exists_advance_some hn
  rcases Action.bind_eq_error.1 h with h | ⟨_, p₀, h₀, h⟩
  · cases h
  obtain rfl : Action.begun p = p₀ := by
    cases h₀
    rfl
  rcases Action.bind_eq_error.1 h with h | ⟨r, p₂, h₁, h⟩
  · rw [hadvance] at h
    cases h
  rw [hadvance] at h₁
  cases h₁
  rcases Action.bind_eq_error.1 h with h | ⟨c, p₂, -, h⟩
  · simp only [Action.construct, hk, Action.keywordConstruct, if_true] at h
    rcases Action.bind_eq_error.1 h with h | ⟨f, p₂, -, h⟩
    · exact (Action.functionHeader_refuses p.fuel keyword e q h).1
    · cases h
  · rcases Action.bind_eq_error.1 h with h | ⟨_, _, -, h⟩ <;> cases h

theorem next_header_ok {found : Bool} (hp : p.upcoming = ⟨later, .ok keyword⟩ :: items)
    (hk : keyword.kind = .keyword "fn") (h : p.next = .ok found q) : Goes .name items .done q.upcoming := by
  cases found with
  | false =>
    have hnil := (Action.next_false h).2.1
    rw [hp] at hnil
    cases hnil
  | true =>
    obtain ⟨c, -, hreads, -⟩ := next_spells h
    exact hreads.goes ⟨later, hp, inReach_true _⟩ hk

theorem next_accepts_header {word : List Token} (hp : p.upcoming = ⟨later, .ok keyword⟩ :: items)
    (hk : keyword.kind = .keyword "fn") (hw : (items.take word.length).map (·.content) = word.map .ok)
    (hword : word ∈ header) : ∃ f q, p.next = .ok true q ∧ q.result = some (.function f) ∧ f.SlotsRight ∧
      Covers f.pieces (keyword :: word) ∧ q.tokens.toList = keyword :: word ∧
      q.upcoming = items.drop word.length := by
  obtain ⟨f, hs, hcovers⟩ := exists_functionHeader hk hword
  obtain ⟨_, hcons, -⟩ := hcovers.of_kept
  obtain rfl : f.keyword = keyword := (List.cons.inj hcons).1.symm
  obtain ⟨q, hnext, hresult, hq⟩ : ∃ q, p.next = .ok true q ∧ q.result = some (.function f) ∧
      q.upcoming = items.drop word.length := by
    have hreads := hs.reads hcovers hw later
    rw [← hp] at hreads
    obtain ⟨r, hnext, -, hr⟩ := Action.next_of_reads hreads
      (Nat.lt_succ_of_le p.lexer.length_upcoming_le) (fun e he ↦ nomatch he)
    exact ⟨_, hnext, rfl, hr⟩
  obtain ⟨-, -, -, -, hcontents⟩ := next_spells hnext
  have hall : p.upcoming.map (·.content) =
      (f.keyword :: word).map .ok ++ q.upcoming.map (·.content) := by
    conv_lhs => rw [hp, ← List.take_append_drop word.length items, List.map_cons, List.map_append, hw]
    rw [hq]
    rfl
  have htokens := List.append_cancel_right (hcontents.symm.trans hall)
  exact ⟨f, q, hnext, hresult, hs, hcovers,
    List.map_injective_iff.2 (fun _ _ h ↦ Except.ok.inj h) htokens, hq⟩

end Parser

theorem exists_append_of_contents {w tokens : List Token} {rest : List (Except LexicalError Token)}
    {fault : Option LexicalError} (h : w.map .ok ++ rest = tokens.map .ok ++ fault.toList.map .error) :
    ∃ more, tokens = w ++ more ∧ rest = more.map .ok ++ fault.toList.map .error := by
  induction w generalizing tokens with
  | nil => exact ⟨tokens, rfl, h⟩
  | cons t w ih =>
    cases tokens with
    | nil => cases fault <;> cases h
    | cons t' tokens =>
      obtain ⟨ht, hmore⟩ := List.cons.inj h
      cases ht
      obtain ⟨more, rfl, hrest⟩ := ih hmore
      exact ⟨more, rfl, hrest⟩

/-- The error where the reading of a header stops: at the end of the text, if a header could still come of all
the tokens, or else at the first token after which none can. -/
structure HeaderError (tokens : List Token) (fault : Option LexicalError) (e : SyntaxError) : Prop where
  atEnd : Viable tokens → fault = none → e.code = .P0002 ∧ e.span? = none
  lexical : Viable tokens → ∀ l ∈ fault, e = .lexical l
  atToken : ¬ Viable tokens → ∃ before t, before ++ [t] <+: tokens ∧ Viable before ∧
    ¬ Viable (before ++ [t]) ∧ e.span? = some t.span ∧ e.code = errorCode before t.kind

theorem StopsFrom.headerError {items : List Upcoming} {e : SyntaxError} (h : StopsFrom .name items e)
    {tokens : List Token} {fault : Option LexicalError}
    (hitems : items.map (·.content) = tokens.map .ok ++ fault.toList.map .error) :
    HeaderError tokens fault e := by
  obtain ⟨place, ys, ⟨before, hleads, hrun⟩, hhalts⟩ := h
  rw [hleads.contents] at hitems
  obtain ⟨more, rfl, hys⟩ := exists_append_of_contents hitems
  have hviable : Viable before := viable_iff.2 ⟨place, hrun⟩
  -- The reading stops at the lexical error, at the end of the tokens, or at the first token that may not stand
  -- where it does. Only in the last case are the tokens no longer viable.
  cases hhalts with
  | lexical =>
    cases more with
    | cons t more => cases hys
    | nil =>
      cases fault with
      | none => cases hys
      | some l =>
        cases hys
        rw [List.append_nil]
        refine ⟨fun _ hnone ↦ (nomatch hnone), fun _ l hl ↦ ?_, fun hnot ↦ absurd hviable hnot⟩
        cases hl
        rfl
  | absent hn hg =>
    cases ys with
    | cons i ys => exact absurd (inReach_true i) (hn i rfl)
    | nil =>
      obtain ⟨hmore, hfault⟩ := List.append_eq_nil_iff.1 hys.symm
      obtain rfl := List.map_eq_nil_iff.1 hmore
      cases hg
      rw [List.append_nil]
      refine ⟨fun _ _ ↦ ⟨rfl, rfl⟩, fun _ l hl ↦ ?_, fun hnot ↦ absurd hviable hnot⟩
      cases hl
      cases hfault
  | @token t _ zs g hn hg =>
    obtain ⟨hstep, hspan, hcode⟩ := Place.of_expects hg
    have hnot := not_viable_of_step hrun hstep
    obtain ⟨_, rfl, -⟩ := hn
    obtain ⟨more, rfl⟩ : ∃ more', more = t :: more' := by
      cases more with
      | nil => cases fault <;> cases hys
      | cons t' more =>
        cases (List.cons.inj hys).1
        exact ⟨more, rfl⟩
    have hprefix : before ++ [t] <+: before ++ t :: more := ⟨more, by simp⟩
    have hnever {P : Prop} (h : Viable (before ++ t :: more)) : P := absurd (h.of_prefix hprefix) hnot
    exact ⟨hnever, hnever, fun _ ↦ ⟨before, t, hprefix, hviable, hnot, hspan,
      hcode.trans (errorCode_eq hrun t.kind).symm⟩⟩

/-- The reading of function headers is an exact recognizer. Where the tokens after the keyword begin with a
word of the language of headers, the header with these tokens is read, and nothing more. Otherwise the reading
stops with an error where no header can come of the tokens any more. -/
theorem Parser.next_recognizes_header {p : Parser} {later : Bool} {keyword : Token} {items : List Upcoming}
    {tokens : List Token} {fault : Option LexicalError}
    (hp : p.upcoming = ⟨later, .ok keyword⟩ :: items) (hk : keyword.kind = .keyword "fn")
    (hitems : items.map (·.content) = tokens.map .ok ++ fault.toList.map .error) :
    (∀ word, word <+: tokens → word ∈ header → ∃ f q, p.next = .ok true q ∧
      q.result = some (.function f) ∧ f.SlotsRight ∧ Covers f.pieces (keyword :: word) ∧
      q.tokens.toList = keyword :: word ∧ q.upcoming = items.drop word.length) ∧
    ((∀ word, word <+: tokens → word ∉ header) →
      ∃ e q, p.next = .error (.rejected e) q ∧ HeaderError tokens fault e) := by
  refine ⟨fun word hprefix hword ↦ ?_, fun hnone ↦ ?_⟩
  · refine next_accepts_header hp hk ?_ hword
    obtain ⟨more, rfl⟩ := hprefix
    rw [List.map_take, hitems, List.map_append, List.append_assoc]
    exact List.take_left' (List.length_map _)
  · cases hnext : p.next with
    | ok found q =>
      exfalso
      obtain ⟨w, hleads, hrun⟩ := next_header_ok hp hk hnext
      rw [hleads.contents] at hitems
      obtain ⟨more, rfl, -⟩ := exists_append_of_contents hitems
      exact hnone w (List.prefix_append w more) (mem_header.2 hrun)
    | error e q =>
      cases e with
      | internal e => exact absurd hnext (next_ne_internal p q e)
      | rejected e => exact ⟨e, q, rfl, (next_header_error hp hk hnext).stopsFrom.headerError hitems⟩

theorem Parser.next_recognizes_header_twoLines :
    (∃ f q, (Parser.ofSource "fn f(a: T,\n  b) -> U \x7b g").next = .ok true q ∧
      q.result = some (.function f) ∧ q.tokens.size = 12) ∧
    ∃ e q, (Parser.ofSource "fn f(a,\n, b)").next = .error (.rejected e) q ∧
      e.code = .P0003 ∧ e.span? = some (.onLine 2 0 0) := by
  constructor
  · let tokens : List Token := [⟨.identifier "f", .onLine 1 3 3⟩, ⟨.openParen, .onLine 1 4 4⟩,
      ⟨.identifier "a", .onLine 1 5 5⟩, ⟨.colon, .onLine 1 6 6⟩, ⟨.identifier "T", .onLine 1 8 8⟩,
      ⟨.comma, .onLine 1 9 9⟩, ⟨.identifier "b", .onLine 2 2 2⟩, ⟨.closeParen, .onLine 2 3 3⟩,
      ⟨.arrow, .onLine 2 5 6⟩, ⟨.identifier "U", .onLine 2 8 8⟩, ⟨.openCurlyBrace, .onLine 2 10 10⟩,
      ⟨.identifier "g", .onLine 2 12 12⟩]
    have hfree : CommentFree "fn f(a: T,\n  b) -> U \x7b g" (⟨.keyword "fn", .onLine 1 0 1⟩ :: tokens).toArray :=
      ⟨by decide +kernel, by decide⟩
    obtain ⟨haccepts, -⟩ := @next_recognizes_header _ _ _ _ tokens none hfree.upcoming rfl rfl
    obtain ⟨f, q, hnext, hresult, -, -, htokens, -⟩ :=
      haccepts (tokens.take 11) (List.take_prefix 11 tokens) (mem_header.2 rfl)
    refine ⟨f, q, hnext, hresult, ?_⟩
    rw [← Array.length_toList, htokens]
    rfl
  · let tokens : List Token := [⟨.identifier "f", .onLine 1 3 3⟩, ⟨.openParen, .onLine 1 4 4⟩,
      ⟨.identifier "a", .onLine 1 5 5⟩, ⟨.comma, .onLine 1 6 6⟩, ⟨.comma, .onLine 2 0 0⟩,
      ⟨.identifier "b", .onLine 2 2 2⟩, ⟨.closeParen, .onLine 2 3 3⟩]
    have hfree : CommentFree "fn f(a,\n, b)" (⟨.keyword "fn", .onLine 1 0 1⟩ :: tokens).toArray :=
      ⟨by decide +kernel, by decide⟩
    obtain ⟨-, hrejects⟩ := @next_recognizes_header _ _ _ _ tokens none hfree.upcoming rfl rfl
    have hnone : ∀ word ∈ tokens.inits, Place.name.run word ≠ some .done := by decide
    have hfirst : ∀ v ∈ tokens.inits, Place.name.run v = none → Place.name.run v.dropLast ≠ none →
        v = tokens.take 4 ++ [⟨.comma, .onLine 2 0 0⟩] := by decide
    obtain ⟨e, q, hnext, herror⟩ := hrejects fun word hprefix hword ↦
      hnone word ((List.mem_inits _ _).2 hprefix) (mem_header.1 hword)
    have hnot {w : List Token} : ¬ Viable w ↔ Place.name.run w = none := by
      rw [viable_iff, ← Option.isSome_iff_exists, Option.not_isSome_iff_eq_none]
    obtain ⟨before, t, hprefix, hviable, hdead, hspan, hcode⟩ := herror.atToken (hnot.2 rfl)
    have hbefore := hfirst _ ((List.mem_inits _ _).2 hprefix) (hnot.1 hdead)
      (by rwa [List.dropLast_concat, ne_eq, ← hnot, not_not])
    obtain ⟨rfl, ht⟩ := List.append_inj' hbefore rfl
    cases ht
    exact ⟨e, q, hnext, hcode, hspan⟩

end Linewise
