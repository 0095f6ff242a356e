import Linewise.Proofs.ErrorPlaces
import Linewise.Proofs.Reading
import Linewise.Proofs.Successive

namespace Linewise

namespace Position

theorem min_eq_left {p q : Position} (h : p ≤ q) : min p q = p := if_pos h

theorem max_eq_right {p q : Position} (h : p ≤ q) : max p q = q := if_pos h

end Position

/-- The span begins with the first of the tokens and ends with the last. -/
structure Span.Covers (s : Span) (ts : List Token) : Prop where
  start : ∃ t ∈ ts.head?, s.start = t.span.start
  stop : ∃ t ∈ ts.getLast?, s.stop = t.span.stop

namespace Span.Covers

variable {s s' : Span} {us vs : List Token}

theorem single (t : Token) : t.span.Covers [t] := ⟨⟨t, rfl, rfl⟩, ⟨t, rfl, rfl⟩⟩

/-- Two stretches of tokens are covered by merging the spans that cover them, whatever stands in between. -/
theorem merge (h : s.Covers us) (h' : s'.Covers vs) (between : List Token)
    (ho : Successive (us ++ (between ++ vs))) : (s.merge s').Covers (us ++ (between ++ vs)) := by
  obtain ⟨⟨t, ht, hstart⟩, ⟨t', ht', hstop⟩⟩ := h
  obtain ⟨⟨u, hu, hstart'⟩, ⟨u', hu', hstop'⟩⟩ := h'
  have hbefore {a b : Token} (ha : a ∈ us) (hb : b ∈ vs) := ho.before ha (List.mem_append_right between hb)
  have hfirst : t.span.start ≤ u.span.start := Position.le_trans
    (ho.left.ordered t (List.mem_of_head? ht)) (hbefore (List.mem_of_head? ht) (List.mem_of_head? hu)).le
  have hlast : t'.span.stop ≤ u'.span.stop := Position.le_trans
    (hbefore (List.mem_of_getLast? ht') (List.mem_of_getLast? hu')).le
    (ho.right.right.ordered u' (List.mem_of_getLast? hu'))
  refine ⟨⟨t, ?_, ?_⟩, ⟨u', ?_, ?_⟩⟩
  · rw [List.head?_append, ht]
    rfl
  · rw [Span.merge, hstart, hstart', Position.min_eq_left hfirst]
  · rw [← List.append_assoc, List.getLast?_append, hu']
    rfl
  · rw [Span.merge, hstop, hstop', Position.max_eq_right hlast]

theorem merge_cons {t : Token} (h : s.Covers vs) (ho : Successive (t :: vs)) :
    (t.span.merge s).Covers (t :: vs) := (single t).merge h [] ho

end Span.Covers

theorem Variable.span_covers {v : Variable} {ts : List Token} (hc : Covers v.pieces ts) (ho : Successive ts) :
    v.span.Covers ts := by
  obtain ⟨name, star⟩ := v
  cases star with
  | none =>
    obtain rfl := Covers.of_single hc
    exact .single name.token
  | some star =>
    obtain ⟨us, rfl, hname⟩ := Covers.of_kept hc
    obtain rfl := Covers.of_single hname
    exact (Span.Covers.single name.token).merge_cons ho

theorem Expr.span_covers {e : Expr} {ts : List Token} (hc : Covers e.pieces ts) (ho : Successive ts) :
    e.span.Covers ts := by
  induction e generalizing ts with
  | literal l =>
    rw [pieces] at hc
    obtain rfl := hc.of_single
    exact .single l.token
  | var v =>
    rw [pieces] at hc
    exact v.span_covers hc ho
  | assignment operator target value ih =>
    rw [pieces] at hc
    obtain ⟨us, ws, rfl, htarget, hrest⟩ := hc.of_append
    obtain ⟨vs, rfl, hvalue⟩ := hrest.of_kept
    exact (target.span_covers htarget ho.left).merge (ih hvalue ho.right.tail) [operator] ho
  | binary operator left right ihl ihr =>
    rw [pieces] at hc
    obtain ⟨us, ws, rfl, hleft, hrest⟩ := hc.of_append
    obtain ⟨vs, rfl, hright⟩ := hrest.of_kept
    exact (ihl hleft ho.left).merge (ihr hright ho.right.tail) [operator] ho
  | unary operator operand ih =>
    rw [pieces] at hc
    obtain ⟨vs, rfl, hoperand⟩ := hc.of_kept
    exact (ih hoperand ho.tail).merge_cons ho
  | call callee openToken arguments closeToken ih _ =>
    rw [pieces] at hc
    obtain ⟨us, ws, rfl, hcallee, hrest⟩ := hc.of_append
    obtain ⟨ws, rfl, hlast⟩ := hrest.of_kept
    obtain ⟨vs, close, rfl, -, hclose⟩ := hlast.of_append
    obtain rfl := hclose.of_single
    exact (ih hcallee ho.left).merge (.single closeToken) (openToken :: vs) ho
  | index target openToken i closeToken ih _ =>
    rw [pieces] at hc
    obtain ⟨us, ws, rfl, htarget, hrest⟩ := hc.of_append
    obtain ⟨ws, rfl, hlast⟩ := hrest.of_kept
    obtain ⟨vs, close, rfl, -, hclose⟩ := hlast.of_append
    obtain rfl := hclose.of_single
    exact (ih htarget ho.left).merge (.single closeToken) (openToken :: vs) ho
  | group openToken inner closeToken _ =>
    rw [pieces] at hc
    obtain ⟨ws, rfl, hrest⟩ := hc.of_kept
    obtain ⟨vs, close, rfl, -, hclose⟩ := hrest.of_append
    obtain rfl := hclose.of_single
    exact (Span.Covers.single openToken).merge (.single closeToken) vs ho

theorem Construct.span_covers {c : Construct} {ts : List Token} (hc : Covers c.pieces ts) (ho : Successive ts) :
    c.span.Covers ts := by
  cases c with
  | expression e => exact e.span_covers hc ho
  | openBrace t | closeBrace t | passStatement t | breakStatement t =>
    obtain rfl := Covers.of_single hc
    exact .single t
  | returnStatement t value =>
    cases value with
    | none =>
      obtain rfl := Covers.of_single hc
      exact .single t
    | some e =>
      obtain ⟨us, rfl, he⟩ := Covers.of_kept hc
      exact (e.span_covers he ho.tail).merge_cons ho
  | function f =>
    obtain ⟨us, rfl, hus⟩ := Covers.of_kept hc
    obtain ⟨vs, rfl, hvs⟩ := hus.of_kept
    obtain ⟨ws, rfl, hws⟩ := hvs.of_kept
    obtain ⟨between, bodyOpen, rfl, -, hbody⟩ := hws.of_append
    obtain rfl := hbody.of_single
    exact (Span.Covers.single f.keyword).merge (.single f.bodyOpen) (f.name.token :: f.openParen :: between) ho

end Linewise
