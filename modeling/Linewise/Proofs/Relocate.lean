import Linewise.Construct
import Linewise.Proofs.Upcoming

namespace Linewise

section

variable (g : Span → Span)

def Token.relocate (t : Token) : Token := ⟨t.kind, g t.span⟩

def Identifier.relocate (n : Identifier) : Identifier := ⟨n.text, g n.span⟩

def Literal.relocate (l : Literal) : Literal := ⟨l.token.relocate g, l.isLiteral⟩

def Variable.relocate (v : Variable) : Variable := ⟨v.name.relocate g, v.star.map (Token.relocate g)⟩

namespace Expr

mutual

def relocate : Expr → Expr
  | literal l => literal (l.relocate g)
  | var v => var (v.relocate g)
  | assignment operator target value =>
    assignment (operator.relocate g) (target.relocate g) value.relocate
  | binary operator left right => binary (operator.relocate g) left.relocate right.relocate
  | unary operator operand => unary (operator.relocate g) operand.relocate
  | call callee openToken arguments closeToken =>
    call callee.relocate (openToken.relocate g) (relocateAll arguments) (closeToken.relocate g)
  | index target openToken i closeToken =>
    index target.relocate (openToken.relocate g) i.relocate (closeToken.relocate g)
  | group openToken inner closeToken =>
    group (openToken.relocate g) inner.relocate (closeToken.relocate g)

def relocateAll : List Expr → List Expr
  | [] => []
  | e :: es => e.relocate :: relocateAll es

end

end Expr

def Parameter.relocate (p : Parameter) : Parameter :=
  ⟨p.name.relocate g, p.type.map (Identifier.relocate g)⟩

def FunctionHeader.relocate (f : FunctionHeader) : FunctionHeader where
  keyword := f.keyword.relocate g
  name := f.name.relocate g
  openParen := f.openParen.relocate g
  parameters := f.parameters.map (Parameter.relocate g)
  closeParen := f.closeParen.relocate g
  returnType := f.returnType.map (Identifier.relocate g)
  bodyOpen := f.bodyOpen.relocate g

namespace Construct

def relocate : Construct → Construct
  | expression e => expression (e.relocate g)
  | openBrace t => openBrace (t.relocate g)
  | closeBrace t => closeBrace (t.relocate g)
  | function f => function (f.relocate g)
  | returnStatement t value => returnStatement (t.relocate g) (value.map (Expr.relocate g))
  | passStatement t => passStatement (t.relocate g)
  | breakStatement t => breakStatement (t.relocate g)

end Construct

def Program.relocate (p : Program) : Program := ⟨p.constructs.map (Construct.relocate g)⟩

def LexicalError.relocate (e : LexicalError) : LexicalError := ⟨e.cause, g e.span⟩

def GrammarError.relocate (e : GrammarError) : GrammarError := ⟨e.cause, e.span.map g⟩

def SyntaxError.relocate : SyntaxError → SyntaxError
  | lexical e => lexical (e.relocate g)
  | grammar e => grammar (e.relocate g)

def Upcoming.relocate (i : Upcoming) : Upcoming :=
  ⟨i.onLaterLine, match i.content with
    | .ok t => .ok (t.relocate g)
    | .error e => .error (e.relocate g)⟩

end

/-- A change of places that takes a stretch of text as a whole. -/
def Uniform (g : Span → Span) : Prop := ∀ s t : Span, g (s.merge t) = (g s).merge (g t)

variable {g : Span → Span}

@[simp]
theorem Token.relocate_kind (t : Token) : (t.relocate g).kind = t.kind := rfl

theorem Token.identifier?_relocate (t : Token) :
    (t.relocate g).identifier? = t.identifier?.map (Identifier.relocate g) := by
  simp only [identifier?, relocate_kind]
  cases t.kind <;> rfl

theorem Literal.ofToken?_relocate (t : Token) :
    ofToken? (t.relocate g) = (ofToken? t).map (Literal.relocate g) := by
  by_cases h : t.kind.isLiteral = true
  · have h' : (t.relocate g).kind.isLiteral = true := h
    rw [ofToken?, ofToken?, dif_pos h, dif_pos h']
    rfl
  · have h' : ¬ (t.relocate g).kind.isLiteral = true := h
    rw [ofToken?, ofToken?, dif_neg h, dif_neg h']
    rfl

theorem Variable.span_relocate (hg : Uniform g) (v : Variable) : (v.relocate g).span = g v.span := by
  obtain ⟨name, star⟩ := v
  cases star with
  | none => rfl
  | some star => exact (hg _ _).symm

theorem Expr.span_relocate (hg : Uniform g) (e : Expr) : (e.relocate g).span = g e.span := by
  induction e with
  | literal l => rfl
  | var v => exact v.span_relocate hg
  | assignment operator target value ih => rw [relocate, span, span, ih, target.span_relocate hg, hg]
  | binary operator left right ihl ihr => rw [relocate, span, span, ihl, ihr, hg]
  | unary operator operand ih =>
    rw [relocate, span, span, ih, hg]
    rfl
  | call callee openToken arguments closeToken ih =>
    rw [relocate, span, span, ih, hg]
    rfl
  | index target openToken i closeToken ih =>
    rw [relocate, span, span, ih, hg]
    rfl
  | group openToken inner closeToken =>
    rw [relocate, span, span, hg]
    rfl

theorem uniform_id : Uniform id := fun _ _ ↦ rfl

theorem Token.relocate_id : Token.relocate id = id := rfl

theorem Upcoming.relocate_id : Upcoming.relocate id = id := by
  funext ⟨later, content⟩
  cases content <;> rfl

theorem Variable.relocate_id (v : Variable) : v.relocate id = v := by
  obtain ⟨name, star⟩ := v
  cases star <;> rfl

theorem Expr.relocateAll_eq (es : List Expr) : relocateAll g es = es.map (relocate g) := by
  induction es with
  | nil => rfl
  | cons e es ih => rw [relocateAll, ih, List.map_cons]

theorem Expr.relocate_id (e : Expr) : e.relocate id = e := by
  induction e with
  | literal l => rfl
  | var v => rw [relocate, v.relocate_id]
  | assignment operator target value ih => rw [relocate, ih, target.relocate_id, Token.relocate_id, id]
  | binary operator left right ihl ihr => rw [relocate, ihl, ihr, Token.relocate_id, id]
  | unary operator operand ih => rw [relocate, ih, Token.relocate_id, id]
  | call callee openToken arguments closeToken ih iha =>
    rw [relocate, ih, relocateAll_eq, List.map_congr_left iha, List.map_id', Token.relocate_id, id, id]
  | index target openToken i closeToken iht ihi => rw [relocate, iht, ihi, Token.relocate_id, id, id]
  | group openToken inner closeToken ih => rw [relocate, ih, Token.relocate_id, id, id]

theorem FunctionHeader.relocate_id (f : FunctionHeader) : f.relocate id = f := by
  have hparameter : Parameter.relocate id = id := by
    funext ⟨name, type⟩
    cases type <;> rfl
  obtain ⟨keyword, name, openParen, parameters, closeParen, returnType, bodyOpen⟩ := f
  rw [relocate, hparameter, List.map_id]
  cases returnType <;> rfl

theorem Construct.relocate_id : Construct.relocate id = id := by
  funext c
  cases c with
  | expression e => rw [relocate, e.relocate_id, id]
  | function f => rw [relocate, f.relocate_id, id]
  | returnStatement keyword value =>
    cases value with
    | none => rfl
    | some e =>
      rw [relocate, Option.map_some, e.relocate_id]
      rfl
  | _ => rfl

theorem Program.relocate_id (p : Program) : p.relocate id = p := by
  rw [relocate, Construct.relocate_id, List.map_id]

theorem SyntaxError.relocate_id (e : SyntaxError) : e.relocate id = e := by
  cases e with
  | lexical e => rfl
  | grammar e => rw [relocate, GrammarError.relocate, Option.map_id, id]

end Linewise
