import Mathlib.Data.List.Forall2
import Linewise.Proofs.Grammar

namespace Linewise

/-- What a tree says about one token of the text. -/
inductive Piece where
  | kept (token : Token)
  | dropped (kind : TokenKind)
deriving DecidableEq, Repr

/-- The token is the one that the tree keeps, or else of the kind that it drops. -/
def Piece.Is : Piece → Token → Prop
  | kept token, t => t = token
  | dropped kind, t => t.kind = kind

def Covers (pieces : List Piece) (tokens : List Token) : Prop := List.Forall₂ Piece.Is pieces tokens

def Variable.pieces (v : Variable) : List Piece := v.star.toList.map .kept ++ [.kept v.name.token]

namespace Expr

mutual

def pieces : Expr → List Piece
  | literal l => [.kept l.token]
  | var v => v.pieces
  | assignment operator target value => target.pieces ++ .kept operator :: value.pieces
  | binary operator left right => left.pieces ++ .kept operator :: right.pieces
  | unary operator operand => .kept operator :: operand.pieces
  | call callee openToken arguments closeToken =>
    callee.pieces ++ .kept openToken :: (argumentPieces arguments ++ [.kept closeToken])
  | index target openToken i closeToken =>
    target.pieces ++ .kept openToken :: (i.pieces ++ [.kept closeToken])
  | group openToken inner closeToken => .kept openToken :: (inner.pieces ++ [.kept closeToken])

def argumentPieces : List Expr → List Piece
  | [] => []
  | [argument] => argument.pieces
  | argument :: arguments => argument.pieces ++ .dropped .comma :: argumentPieces arguments

end

theorem argumentPieces_cons {argument : Expr} {arguments : List Expr} (h : arguments ≠ []) :
    argumentPieces (argument :: arguments) =
      argument.pieces ++ .dropped .comma :: argumentPieces arguments := by
  cases arguments with
  | nil => exact absurd rfl h
  | cons => simp [argumentPieces]

theorem pieces_of_joins {left right e : Expr} {operator : Token}
    (h : left.Joins operator right e) :
    e.pieces = left.pieces ++ .kept operator :: right.pieces := by
  cases h <;> simp only [pieces]

end Expr

def typePieces (mark : TokenKind) : Option Identifier → List Piece
  | none => []
  | some type => [.dropped mark, .kept type.token]

def Parameter.pieces (p : Parameter) : List Piece := .kept p.name.token :: typePieces .colon p.type

def parameterPieces : List Parameter → List Piece
  | [] => []
  | p :: ps => p.pieces ++ ps.flatMap fun q ↦ .dropped .comma :: q.pieces

def FunctionHeader.pieces (f : FunctionHeader) : List Piece :=
  .kept f.keyword :: .kept f.name.token :: .kept f.openParen ::
    (parameterPieces f.parameters ++ [.kept f.closeParen] ++ typePieces .arrow f.returnType ++
      [.kept f.bodyOpen])

def Construct.pieces : Construct → List Piece
  | expression e => e.pieces
  | openBrace t | closeBrace t | returnStatement t none | passStatement t | breakStatement t =>
    [.kept t]
  | function f => f.pieces
  | returnStatement t (some e) => .kept t :: e.pieces

def Program.pieces (p : Program) : List Piece := p.constructs.flatMap (·.pieces)

open Upcoming

inductive Leads : List Upcoming → List Token → List Upcoming → Prop
  | here {xs ys : List Upcoming} : looked true xs = looked true ys → Leads xs [] ys
  | token {later : Bool} {token : Token} {tokens : List Token} {xs ys : List Upcoming} :
      Leads xs tokens ys → Leads (⟨later, .ok token⟩ :: xs) (token :: tokens) ys

variable {xs ys zs : List Upcoming}

namespace Leads

variable {tokens tokens' : List Token}

theorem looked (b : Bool) (xs : List Upcoming) : Leads xs [] (looked b xs) := by
  refine .here ?_
  cases xs with
  | nil => rfl
  | cons i xs => simp [Upcoming.looked]

theorem trans (h : Leads xs tokens ys) (h' : Leads ys tokens' zs) :
    Leads xs (tokens ++ tokens') zs := by
  induction h with
  | token _ ih => exact .token (ih h')
  | @here xs ys heq =>
    cases h' with
    | here heq' => exact .here (heq.trans heq')
    | @token later token tokens' ys' _ h' =>
      cases xs with
      | nil => cases heq
      | cons i xs =>
        obtain ⟨later', content⟩ := i
        simp only [Upcoming.looked, List.cons.injEq, Upcoming.mk.injEq] at heq
        obtain ⟨⟨-, rfl⟩, rfl⟩ := heq
        exact .token h'

theorem contents (h : Leads xs tokens ys) :
    xs.map (·.content) = tokens.map .ok ++ ys.map (·.content) := by
  induction h with
  | @here xs ys heq =>
    have := congrArg (List.map (·.content)) heq
    rwa [map_content_looked, map_content_looked] at this
  | token _ ih => rw [List.map_cons, ih, List.map_cons, List.cons_append]

theorem length (h : Leads xs tokens ys) : xs.length = tokens.length + ys.length := by
  have := congrArg List.length h.contents
  rwa [List.length_map, List.length_append, List.length_map, List.length_map] at this

theorem single {b : Bool} {token : Token} (h : Next b xs token ys) : Leads xs [token] ys := by
  obtain ⟨later, rfl, -⟩ := h
  exact .token (.here rfl)

theorem suffix {b : Bool} {token : Token} (h : Leads xs tokens ys) (hn : Next b ys token zs) :
    zs <:+ xs := by
  induction h with
  | token _ ih => exact (ih hn).trans (List.suffix_cons _ _)
  | @here xs ys heq =>
    obtain ⟨later, rfl, -⟩ := hn
    cases xs with
    | nil => cases heq
    | cons i xs =>
      simp only [Upcoming.looked, List.cons.injEq] at heq
      rw [heq.2]
      exact List.suffix_cons _ _

end Leads

/-- The pieces stand for what lies ahead in `xs`, up to `ys`. -/
def Spells (xs : List Upcoming) (pieces : List Piece) (ys : List Upcoming) : Prop :=
  ∃ tokens : List Token, Leads xs tokens ys ∧ Covers pieces tokens

namespace Spells

theorem looked (b : Bool) (xs : List Upcoming) : Spells xs [] (looked b xs) :=
  ⟨[], .looked b xs, .nil⟩

theorem append {ps qs : List Piece} (h : Spells xs ps ys) (h' : Spells ys qs zs) :
    Spells xs (ps ++ qs) zs := by
  obtain ⟨tokens, hx, hc⟩ := h
  obtain ⟨tokens', hy, hc'⟩ := h'
  exact ⟨tokens ++ tokens', hx.trans hy, List.rel_append hc hc'⟩

theorem of_looked {b : Bool} {pieces : List Piece} (h : Spells (Upcoming.looked b xs) pieces ys) :
    Spells xs pieces ys := append (looked b xs) h

theorem cons {b : Bool} {token : Token} {p : Piece} {ps : List Piece} (h : Next b xs token ys)
    (hp : p.Is token) (h' : Spells ys ps zs) : Spells xs (p :: ps) zs := by
  obtain ⟨tokens, hy, hc⟩ := h'
  exact ⟨token :: tokens, (Leads.single h).trans hy, .cons hp hc⟩

theorem single {b : Bool} {token : Token} (h : Next b xs token ys) : Spells xs [.kept token] ys :=
  ⟨[token], .single h, .cons rfl .nil⟩

theorem length {ps : List Piece} (h : Spells xs ps ys) : xs.length = ps.length + ys.length := by
  obtain ⟨tokens, hx, hc⟩ := h
  rw [hx.length, hc.length_eq]

end Spells

def Phrase.Adds : Phrase → List Piece → Prop
  | primary e, ps | operand e, ps | expression _ e, ps => ps = e.pieces
  | suffix start e, ps | suffixes start e, ps | operators _ start e, ps => e.pieces = start.pieces ++ ps
  | arguments args closeToken, ps =>
    args ≠ [] ∧ ps = Expr.argumentPieces args ++ [.kept closeToken]

theorem Reads.spells {b : Bool} {phrase : Phrase} (h : Reads b phrase xs ys) :
    ∃ ps, phrase.Adds ps ∧ Spells xs ps ys := by
  induction h with
  | literal hn => exact ⟨_, rfl, .single hn⟩
  | name hn => exact ⟨_, rfl, .single hn⟩
  | dereference hn _ hn' => exact ⟨_, rfl, .cons hn rfl (.single hn')⟩
  | group hn _ _ hc _ ih =>
    obtain ⟨_, rfl, hs⟩ := ih
    exact ⟨_, rfl, .cons hn rfl (hs.append (.single hc))⟩
  | emptyCall hn _ hc _ => exact ⟨_, rfl, .cons hn rfl (.single hc)⟩
  | call hn _ _ _ ih =>
    obtain ⟨_, ⟨-, rfl⟩, hs⟩ := ih
    exact ⟨_, rfl, .cons hn rfl hs.of_looked⟩
  | index hn _ _ hc _ ih =>
    obtain ⟨_, rfl, hs⟩ := ih
    exact ⟨_, rfl, .cons hn rfl (hs.append (.single hc))⟩
  | noSuffix | noOperator => exact ⟨[], (List.append_nil _).symm, .looked _ _⟩
  | moreSuffixes _ _ ih₁ ih₂ =>
    obtain ⟨ps, hp, hs⟩ := ih₁
    obtain ⟨qs, hq, hs'⟩ := ih₂
    refine ⟨ps ++ qs, ?_, hs.append hs'⟩
    simp only [Phrase.Adds] at hp hq ⊢
    rw [hq, hp, List.append_assoc]
  | suffixed _ _ ih₁ ih₂ =>
    obtain ⟨ps, rfl, hs⟩ := ih₁
    obtain ⟨qs, hq, hs'⟩ := ih₂
    exact ⟨_, hq.symm, hs.append hs'⟩
  | unary hn _ _ ih =>
    obtain ⟨_, rfl, hs⟩ := ih
    exact ⟨_, rfl, .cons hn rfl hs⟩
  | lastArgument _ hc _ ih =>
    obtain ⟨_, rfl, hs⟩ := ih
    exact ⟨_, ⟨by simp, rfl⟩, hs.append (.single hc)⟩
  | moreArguments _ hc hk _ ih₁ ih₂ =>
    obtain ⟨_, rfl, hs⟩ := ih₁
    obtain ⟨_, ⟨hne, rfl⟩, hs'⟩ := ih₂
    refine ⟨_, ⟨by simp, rfl⟩, ?_⟩
    rw [Expr.argumentPieces_cons hne, List.append_assoc, List.cons_append]
    exact hs.append (.cons hc hk hs')
  | @operator _ _ _ right _ _ operator _ _ _ _ _ hn _ _ _ hj _ ih₁ ih₂ =>
    obtain ⟨_, rfl, hs⟩ := ih₁
    obtain ⟨qs, hq, hs'⟩ := ih₂
    refine ⟨.kept operator :: (right.pieces ++ qs), ?_, .cons hn rfl (hs.append hs')⟩
    simp only [Phrase.Adds] at hq ⊢
    rw [hq, Expr.pieces_of_joins hj]
    simp
  | expression _ _ ih₁ ih₂ =>
    obtain ⟨ps, rfl, hs⟩ := ih₁
    obtain ⟨qs, hq, hs'⟩ := ih₂
    exact ⟨_, hq.symm, hs.append hs'⟩

theorem Reads.spells_expression {b : Bool} {least : Nat} {e : Expr}
    (h : Reads b (.expression least e) xs ys) : Spells xs e.pieces ys := by
  obtain ⟨_, rfl, hs⟩ := h.spells
  exact hs

theorem ReadsType.spells {mark : TokenKind} {type : Option Identifier}
    (h : ReadsType mark type xs ys) : Spells xs (typePieces mark type) ys := by
  cases h with
  | absent => exact .looked _ _
  | given hn hk hn' => exact .cons hn hk (.single hn')

theorem ReadsParameters.ne_nil {params : List Parameter} {closeParen : Token}
    (h : ReadsParameters .name params closeParen xs ys) : params ≠ [] := by
  cases h with
  | close _ _ hs => exact absurd rfl hs
  | parameter => simp

theorem ReadsParameters.spells {slot : Parser.Action.ParameterSlot} {params : List Parameter}
    {closeParen : Token} (h : ReadsParameters slot params closeParen xs ys) :
    Spells xs ((if slot = .commaOrClose then params.flatMap fun q ↦ .dropped .comma :: q.pieces
      else parameterPieces params) ++ [.kept closeParen]) ys := by
  induction h with
  | close hn _ _ =>
    have := Spells.single hn
    split <;> exact this
  | @comma comma closeParen params xs ys zs hn hk hr ih =>
    have hs := Spells.cons (p := .dropped .comma) hn hk ih
    cases params with
    | nil => exact absurd rfl hr.ne_nil
    | cons p ps => simpa [parameterPieces] using hs
  | @parameter slot name type params closeParen xs ys zs ws hs hn ht _ ih =>
    have hs' := Spells.cons (p := .kept name.token) hn rfl (ht.spells.append ih)
    simpa [parameterPieces, Parameter.pieces, hs] using hs'

theorem ReadsConstruct.spells {c : Construct} (h : ReadsConstruct xs c ys) :
    Spells xs c.pieces ys := by
  cases h with
  | openBrace hn _ | closeBrace hn _ | pass hn _ _ | «break» hn _ _ | returnNothing hn _ _ =>
    exact .single hn
  | returnValue hn _ _ _ hr _ => exact .cons hn rfl hr.spells_expression
  | function hn _ hn₁ hn₂ _ hr ht hn₃ _ =>
    have hs := (hr.spells.append ht.spells).append (.single hn₃)
    exact .cons hn rfl (.cons hn₁ rfl (.cons hn₂ rfl hs))
  | expression hn _ hr _ =>
    rw [← hn.looked_eq] at hr
    exact hr.spells_expression.of_looked

theorem ReadsProgram.spells {cs : List Construct} (h : ReadsProgram xs cs) :
    Spells xs (cs.flatMap (·.pieces)) [] := by
  induction h with
  | done => exact ⟨[], .here rfl, .nil⟩
  | construct hc _ ih => exact hc.spells.append ih

end Linewise
