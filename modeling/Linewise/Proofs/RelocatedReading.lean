import Linewise.Proofs.Erase
import Linewise.Proofs.Relocate

namespace Linewise

open Upcoming Parser.Action

variable {g : Span → Span} {b : Bool} {xs ys : List Upcoming}

namespace Upcoming

theorem Next.relocate {token : Token} (h : Next b xs token ys) :
    Next b (xs.map (relocate g)) (token.relocate g) (ys.map (relocate g)) := by
  obtain ⟨later, rfl, reach⟩ := h
  exact ⟨later, rfl, reach⟩

theorem Stops.relocate {ends : TokenKind → Prop} (h : Stops b ends xs) :
    Stops b ends (xs.map (relocate g)) := by
  rcases h.nothing_or_next with hnone | ⟨token, ys, hn, hk⟩
  · intro i hi hreach
    rw [List.head?_map] at hi
    obtain ⟨j, hj, rfl⟩ := Option.map_eq_some_iff.1 hi
    exact absurd hreach (hnone j hj)
  · exact hn.relocate.stops hk

theorem looked_relocate (b : Bool) (xs : List Upcoming) :
    looked b (xs.map (relocate g)) = (looked b xs).map (relocate g) := by
  cases xs <;> rfl

end Upcoming

theorem Expr.Joins.relocate {left right e : Expr} {operator : Token} (h : left.Joins operator right e) :
    (left.relocate g).Joins (operator.relocate g) (right.relocate g) (e.relocate g) := by
  cases h with
  | assignment hk =>
    rw [Expr.relocate, Expr.relocate]
    exact .assignment hk
  | binary hk =>
    rw [Expr.relocate]
    exact .binary hk

variable (g) in
def Phrase.relocate : Phrase → Phrase
  | primary e => primary (e.relocate g)
  | suffix start e => suffix (start.relocate g) (e.relocate g)
  | suffixes start e => suffixes (start.relocate g) (e.relocate g)
  | operand e => operand (e.relocate g)
  | operators least left e => operators least (left.relocate g) (e.relocate g)
  | expression least e => expression least (e.relocate g)
  | arguments args closeToken => arguments (args.map (Expr.relocate g)) (closeToken.relocate g)

theorem Reads.relocate {phrase : Phrase} (h : Reads b phrase xs ys) :
    Reads b (phrase.relocate g) (xs.map (Upcoming.relocate g)) (ys.map (Upcoming.relocate g)) := by
  induction h with
  | literal hn => exact .literal (l := Literal.relocate g _) hn.relocate
  | name hn => exact .name (n := Identifier.relocate g _) hn.relocate
  | dereference hn hk hn' =>
    exact .dereference (n := Identifier.relocate g _) hn.relocate hk hn'.relocate
  | group hn hk _ hc hkc ih =>
    rw [Phrase.relocate, Expr.relocate]
    exact .group hn.relocate hk ih hc.relocate hkc
  | emptyCall hn hk hc hkc =>
    rw [Phrase.relocate, Expr.relocate]
    exact .emptyCall hn.relocate hk hc.relocate hkc
  | call hn hk hstop _ ih =>
    rw [← looked_relocate] at ih
    rw [Phrase.relocate, Expr.relocate, Expr.relocateAll_eq]
    exact .call hn.relocate hk hstop.relocate ih
  | index hn hk _ hc hkc ih =>
    rw [Phrase.relocate, Expr.relocate]
    exact .index hn.relocate hk ih hc.relocate hkc
  | noSuffix hstop =>
    rw [← looked_relocate]
    exact .noSuffix hstop.relocate
  | moreSuffixes _ _ ih₁ ih₂ => exact .moreSuffixes ih₁ ih₂
  | suffixed _ _ ih₁ ih₂ => exact .suffixed ih₁ ih₂
  | unary hn hk _ ih =>
    rw [Phrase.relocate, Expr.relocate]
    exact .unary hn.relocate hk ih
  | lastArgument _ hc hkc ih => exact .lastArgument ih hc.relocate hkc
  | moreArguments _ hc hkc _ ih₁ ih₂ => exact .moreArguments ih₁ hc.relocate hkc ih₂
  | noOperator hstop =>
    rw [← looked_relocate]
    exact .noOperator hstop.relocate
  | operator hn hp hle _ hj _ ih₁ ih₂ => exact .operator hn.relocate hp hle ih₁ hj.relocate ih₂
  | expression _ _ ih₁ ih₂ => exact .expression ih₁ ih₂

theorem ReadsType.relocate {mark : TokenKind} {type : Option Identifier} (h : ReadsType mark type xs ys) :
    ReadsType mark (type.map (Identifier.relocate g)) (xs.map (Upcoming.relocate g))
      (ys.map (Upcoming.relocate g)) := by
  cases h with
  | absent hstop =>
    rw [← looked_relocate]
    exact .absent hstop.relocate
  | given hn hk hn' => exact .given (n := Identifier.relocate g _) hn.relocate hk hn'.relocate

theorem ReadsParameters.relocate {slot : ParameterSlot} {params : List Parameter} {closeParen : Token}
    (h : ReadsParameters slot params closeParen xs ys) :
    ReadsParameters slot (params.map (Parameter.relocate g)) (closeParen.relocate g)
      (xs.map (Upcoming.relocate g)) (ys.map (Upcoming.relocate g)) := by
  induction h with
  | close hn hk hslot => exact .close hn.relocate hk hslot
  | comma hn hk _ ih => exact .comma hn.relocate hk ih
  | parameter hslot hn ht _ ih =>
    exact .parameter (n := Identifier.relocate g _) hslot hn.relocate ht.relocate ih

theorem ReadsConstruct.relocate {c : Construct} (h : ReadsConstruct xs c ys) :
    ReadsConstruct (xs.map (Upcoming.relocate g)) (c.relocate g) (ys.map (Upcoming.relocate g)) := by
  cases h with
  | openBrace hn hk => exact .openBrace hn.relocate hk
  | closeBrace hn hk => exact .closeBrace hn.relocate hk
  | pass hn hk hstop => exact .pass hn.relocate hk hstop.relocate
  | «break» hn hk hstop => exact .break hn.relocate hk hstop.relocate
  | returnNothing hn hk hstop => exact .returnNothing hn.relocate hk hstop.relocate
  | returnValue hn hk hn' hk' he hstop =>
    exact .returnValue hn.relocate hk hn'.relocate hk' he.relocate hstop.relocate
  | function hn hk hn₁ hn₂ hk₂ hp ht hn₃ hk₃ =>
    exact .function (f := FunctionHeader.relocate g _) hn.relocate hk hn₁.relocate hn₂.relocate hk₂
      hp.relocate ht.relocate hn₃.relocate hk₃
  | expression hn hk he hstop => exact .expression hn.relocate hk he.relocate hstop.relocate

theorem ReadsProgram.relocate {cs : List Construct} (h : ReadsProgram xs cs) :
    ReadsProgram (xs.map (Upcoming.relocate g)) (cs.map (Construct.relocate g)) := by
  induction h with
  | done => exact .done
  | construct hc _ ih => exact .construct hc.relocate ih

theorem Variable.erase_relocate (v : Variable) : (v.relocate g).erase = v.erase := by
  obtain ⟨n, star⟩ := v
  cases star <;> rfl

theorem Expr.erase_relocate (e : Expr) : (e.relocate g).erase = e.erase := by
  induction e with
  | literal l => rfl
  | var v => rw [relocate, erase, erase, v.erase_relocate]
  | assignment operator target value ih =>
    rw [relocate, erase, erase, ih, target.erase_relocate]
    rfl
  | binary operator left right ihl ihr =>
    rw [relocate, erase, erase, ihl, ihr]
    rfl
  | unary operator operand ih =>
    rw [relocate, erase, erase, ih]
    rfl
  | call callee openToken arguments closeToken ihf iha =>
    rw [relocate, erase, erase, ihf, relocateAll_eq, eraseAll_eq_map, eraseAll_eq_map, List.map_map,
      List.map_congr_left (f := erase ∘ relocate g) iha]
    rfl
  | index target openToken i closeToken iht ih =>
    rw [relocate, erase, erase, iht, ih]
    rfl
  | group openToken inner closeToken ih =>
    rw [relocate, erase, erase, ih]
    rfl

theorem Parameter.erase_relocate (p : Parameter) : (p.relocate g).erase = p.erase := by
  obtain ⟨n, type⟩ := p
  cases type <;> rfl

theorem FunctionHeader.erase_relocate (f : FunctionHeader) : (f.relocate g).erase = f.erase := by
  obtain ⟨keyword, name, openParen, params, closeParen, type, bodyOpen⟩ := f
  have hparams : (params.map (Parameter.relocate g)).map Parameter.erase =
      params.map Parameter.erase := by
    rw [List.map_map]
    exact List.map_congr_left fun p _ ↦ p.erase_relocate
  rw [relocate, erase, hparams]
  cases type <;> rfl

theorem Construct.erase_relocate (c : Construct) : (c.relocate g).erase = c.erase := by
  cases c with
  | expression e => rw [relocate, erase, erase, e.erase_relocate]
  | function f => rw [relocate, erase, erase, f.erase_relocate]
  | returnStatement keyword value =>
    cases value with
    | none => rfl
    | some e =>
      rw [relocate, erase, erase, Option.map_some, Option.map_some, Option.map_some, e.erase_relocate]
      rfl
  | _ => rfl

end Linewise
