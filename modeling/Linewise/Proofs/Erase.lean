import Linewise.Proofs.Canonical
import Linewise.Proofs.Need
import Linewise.Proofs.Pieces

namespace Linewise

def Token.erase (t : Token) : Token := ⟨t.kind, .point 0 0⟩

@[simp]
theorem Token.erase_kind (t : Token) : t.erase.kind = t.kind := rfl

def Identifier.erase (n : Identifier) : Identifier := ⟨n.text, .point 0 0⟩

def Literal.erase (l : Literal) : Literal := ⟨l.token.erase, l.isLiteral⟩

def Variable.erase (v : Variable) : Variable := ⟨v.name.erase, v.star.map Token.erase⟩

namespace Expr

mutual

@[simp]
def erase : Expr → Expr
  | literal l => literal l.erase
  | var v => var v.erase
  | assignment operator target value => assignment operator.erase target.erase value.erase
  | binary operator left right => binary operator.erase left.erase right.erase
  | unary operator operand => unary operator.erase operand.erase
  | call callee openToken arguments closeToken =>
    call callee.erase openToken.erase (eraseAll arguments) closeToken.erase
  | index target openToken i closeToken =>
    index target.erase openToken.erase i.erase closeToken.erase
  | group openToken inner closeToken => group openToken.erase inner.erase closeToken.erase

@[simp]
def eraseAll : List Expr → List Expr
  | [] => []
  | e :: es => e.erase :: eraseAll es

end

theorem eraseAll_eq_map (es : List Expr) : eraseAll es = es.map erase := by
  induction es with
  | nil => rfl
  | cons e es ih => rw [eraseAll, ih, List.map_cons]

theorem isPrimary_erase {e : Expr} : e.erase.IsPrimary ↔ e.IsPrimary := by
  cases e <;> simp only [erase, IsPrimary]

theorem binds_erase {n : Nat} {e : Expr} : e.erase.Binds n ↔ e.Binds n := by
  cases e <;> simp [erase, Binds, operator?]

theorem yields_erase {n : Nat} {e : Expr} : e.erase.Yields n ↔ e.Yields n := by
  induction e with
  | assignment operator target value ih => simp only [erase, Yields, ih, Token.erase_kind]
  | binary operator left right _ ih => simp only [erase, Yields, ih, Token.erase_kind]
  | unary operator operand ih => simp only [erase, Yields, ih]
  | _ => simp only [erase, Yields]

theorem Canonical.erase {e : Expr} (h : e.Canonical) : e.erase.Canonical := by
  induction h with
  | literal => exact .literal
  | var => exact .var
  | assignment _ hb ih =>
    rw [Expr.erase]
    exact .assignment ih fun power hp ↦ binds_erase.2 (hb power hp)
  | binary _ _ hb ihl ihr =>
    rw [Expr.erase]
    exact .binary ihl ihr fun power hp ↦ ⟨yields_erase.2 (hb power hp).1, binds_erase.2 (hb power hp).2⟩
  | unary _ hb ih =>
    rw [Expr.erase]
    exact .unary ih (binds_erase.2 hb)
  | call _ hp _ ihf iha =>
    rw [Expr.erase, eraseAll_eq_map]
    exact .call ihf (isPrimary_erase.2 hp) (by simpa using iha)
  | index _ hp _ iht ih =>
    rw [Expr.erase]
    exact .index iht (isPrimary_erase.2 hp) ih
  | group _ ih =>
    rw [Expr.erase]
    exact .group ih

theorem canonical_of_erase {e : Expr} (h : e.erase.Canonical) : e.Canonical := by
  induction e with
  | literal => exact .literal
  | var => exact .var
  | assignment operator target value ih =>
    rw [Expr.erase] at h
    cases h with
    | assignment hv hb => exact .assignment (ih hv) fun power hp ↦ binds_erase.1 (hb power hp)
  | binary operator left right ihl ihr =>
    rw [Expr.erase] at h
    cases h with
    | binary hl hr hb =>
      refine .binary (ihl hl) (ihr hr) fun power hp ↦ ?_
      exact ⟨yields_erase.1 (hb power hp).1, binds_erase.1 (hb power hp).2⟩
  | unary operator operand ih =>
    rw [Expr.erase] at h
    cases h with
    | unary ho hb => exact .unary (ih ho) (binds_erase.1 hb)
  | call callee openToken arguments closeToken ihf iha =>
    rw [Expr.erase, eraseAll_eq_map] at h
    cases h with
    | call hf hp ha =>
      refine .call (ihf hf) (isPrimary_erase.1 hp) fun a hm ↦ ?_
      exact iha a hm (ha _ (List.mem_map_of_mem hm))
  | index target openToken i closeToken iht ih =>
    rw [Expr.erase] at h
    cases h with
    | index ht hp hi => exact .index (iht ht) (isPrimary_erase.1 hp) (ih hi)
  | group openToken inner closeToken ih =>
    rw [Expr.erase] at h
    cases h with
    | group hi => exact .group (ih hi)

theorem SlotsRight.erase {e : Expr} (h : e.SlotsRight) : e.erase.SlotsRight := by
  induction h with
  | literal => exact .literal
  | var => exact .var
  | dereference hk => exact .dereference hk
  | assignment hk _ _ iht ihv =>
    rw [Expr.erase]
    exact .assignment hk iht ihv
  | binary hk _ _ ihl ihr =>
    rw [Expr.erase]
    exact .binary hk ihl ihr
  | unary hk _ ih =>
    rw [Expr.erase]
    exact .unary hk ih
  | call _ ho _ hc ihf iha =>
    rw [Expr.erase, eraseAll_eq_map]
    exact .call ihf ho (by simpa using iha) hc
  | index _ ho _ hc iht ih =>
    rw [Expr.erase]
    exact .index iht ho ih hc
  | group ho _ hc ih =>
    rw [Expr.erase]
    exact .group ho ih hc

theorem slotsRight_var_of_erase {v : Variable} (h : (var v.erase).SlotsRight) :
    (var v).SlotsRight := by
  obtain ⟨n, star⟩ := v
  cases star with
  | none => exact .var
  | some star =>
    cases h with
    | dereference hk => exact .dereference hk

theorem slotsRight_of_erase {e : Expr} (h : e.erase.SlotsRight) : e.SlotsRight := by
  induction e with
  | literal => exact .literal
  | var => exact slotsRight_var_of_erase h
  | assignment operator target value ih =>
    rw [Expr.erase] at h
    cases h with
    | assignment hk ht hv => exact .assignment hk (slotsRight_var_of_erase ht) (ih hv)
  | binary operator left right ihl ihr =>
    rw [Expr.erase] at h
    cases h with
    | binary hk hl hr => exact .binary hk (ihl hl) (ihr hr)
  | unary operator operand ih =>
    rw [Expr.erase] at h
    cases h with
    | unary hk ho => exact .unary hk (ih ho)
  | call callee openToken arguments closeToken ihf iha =>
    rw [Expr.erase, eraseAll_eq_map] at h
    cases h with
    | call hf ho ha hc =>
      exact .call (ihf hf) ho (fun a hm ↦ iha a hm (ha _ (List.mem_map_of_mem hm))) hc
  | index target openToken i closeToken iht ih =>
    rw [Expr.erase] at h
    cases h with
    | index ht ho hi hc => exact .index (iht ht) ho (ih hi) hc
  | group openToken inner closeToken ih =>
    rw [Expr.erase] at h
    cases h with
    | group ho hi hc => exact .group ho (ih hi) hc

theorem argumentsNeed_map {f : Expr → Expr} {es : List Expr} (h : ∀ e ∈ es, (f e).need = e.need) :
    argumentsNeed (es.map f) = argumentsNeed es := by
  induction es with
  | nil => rfl
  | cons e es ih =>
    obtain ⟨he, hes⟩ := List.forall_mem_cons.1 h
    rw [List.map_cons, argumentsNeed, argumentsNeed, he, ih hes]

@[simp]
theorem need_erase (e : Expr) : e.erase.need = e.need := by
  induction e with
  | call callee openToken arguments closeToken ihf iha =>
    rw [erase, need, need, eraseAll_eq_map, ihf, argumentsNeed_map iha]
  | _ => simp only [erase, need, *]

end Expr

def Parameter.erase (p : Parameter) : Parameter := ⟨p.name.erase, p.type.map Identifier.erase⟩

def FunctionHeader.erase (f : FunctionHeader) : FunctionHeader :=
  ⟨f.keyword.erase, f.name.erase, f.openParen.erase, f.parameters.map Parameter.erase,
    f.closeParen.erase, f.returnType.map Identifier.erase, f.bodyOpen.erase⟩

namespace Construct

def erase : Construct → Construct
  | expression e => expression e.erase
  | openBrace t => openBrace t.erase
  | closeBrace t => closeBrace t.erase
  | function f => function f.erase
  | returnStatement t value => returnStatement t.erase (value.map Expr.erase)
  | passStatement t => passStatement t.erase
  | breakStatement t => breakStatement t.erase

theorem expression?_erase (c : Construct) : c.erase.expression? = c.expression?.map Expr.erase := by
  cases c <;> rfl

theorem SlotsRight.erase {c : Construct} (h : c.SlotsRight) : c.erase.SlotsRight := by
  cases h with
  | expression hs => exact .expression hs.erase
  | openBrace hk => exact .openBrace hk
  | closeBrace hk => exact .closeBrace hk
  | function hs => exact .function ⟨hs.keyword, hs.openParen, hs.closeParen, hs.bodyOpen⟩
  | returnStatement hk hv =>
    refine .returnStatement hk fun e he ↦ ?_
    obtain ⟨e', he', rfl⟩ := Option.map_eq_some_iff.1 he
    exact (hv e' he').erase
  | passStatement hk => exact .passStatement hk
  | breakStatement hk => exact .breakStatement hk

theorem slotsRight_of_erase {c : Construct} (h : c.erase.SlotsRight) : c.SlotsRight := by
  cases c with
  | expression e =>
    cases h with
    | expression hs => exact .expression (Expr.slotsRight_of_erase hs)
  | openBrace t =>
    cases h with
    | openBrace hk => exact .openBrace hk
  | closeBrace t =>
    cases h with
    | closeBrace hk => exact .closeBrace hk
  | function f =>
    cases h with
    | function hs => exact .function ⟨hs.keyword, hs.openParen, hs.closeParen, hs.bodyOpen⟩
  | returnStatement t value =>
    cases h with
    | returnStatement hk hv =>
      exact .returnStatement hk fun e he ↦
        Expr.slotsRight_of_erase (hv e.erase (Option.mem_map_of_mem _ he))
  | passStatement t =>
    cases h with
    | passStatement hk => exact .passStatement hk
  | breakStatement t =>
    cases h with
    | breakStatement hk => exact .breakStatement hk

end Construct

def Program.erase (p : Program) : Program := ⟨p.constructs.map Construct.erase⟩

end Linewise
