import Linewise.Proofs.Erase

namespace Linewise

def Piece.kind : Piece → TokenKind
  | kept token => token.kind
  | dropped kind => kind

def Fit (pieces : List Piece) (tokens : List Token) : Prop :=
  tokens.map (·.kind) = pieces.map Piece.kind

namespace Fit

variable {p : Piece} {ps qs : List Piece} {ts : List Token}

theorem of_append (h : Fit (ps ++ qs) ts) : ∃ us vs, ts = us ++ vs ∧ Fit ps us ∧ Fit qs vs := by
  rw [Fit, List.map_append] at h
  obtain ⟨us, vs, rfl, hu, hv⟩ := List.map_eq_append_iff.1 h
  exact ⟨us, vs, rfl, hu, hv⟩

theorem of_cons (h : Fit (p :: ps) ts) : ∃ t us, ts = t :: us ∧ t.kind = p.kind ∧ Fit ps us := by
  obtain ⟨t, us, rfl, ht, hu⟩ := List.map_eq_cons_iff.1 h
  exact ⟨t, us, rfl, ht, hu⟩

theorem of_single (h : Fit [p] ts) : ∃ t, ts = [t] ∧ t.kind = p.kind := by
  obtain ⟨t, us, rfl, ht, hu⟩ := h.of_cons
  obtain rfl := List.map_eq_nil_iff.1 hu
  exact ⟨t, rfl, ht⟩

end Fit

theorem Token.erase_eq {t u : Token} (h : t.kind = u.kind) : t.erase = u.erase := by
  simp only [erase, h]

theorem Identifier.exists_refit {n : Identifier} {t : Token} (h : t.kind = n.token.kind) :
    ∃ m : Identifier, m.erase = n.erase ∧ m.token = t := by
  obtain ⟨kind, span⟩ := t
  cases h
  exact ⟨⟨n.text, span⟩, rfl, rfl⟩

theorem Covers.append {ps qs : List Piece} {us vs : List Token} (h : Covers ps us)
    (h' : Covers qs vs) : Covers (ps ++ qs) (us ++ vs) := List.rel_append h h'

theorem Covers.kept {ps : List Piece} {us : List Token} (t : Token) (h : Covers ps us) :
    Covers (.kept t :: ps) (t :: us) := .cons rfl h

theorem Variable.exists_refit {v : Variable} {ts : List Token} (h : Fit v.pieces ts) :
    ∃ w : Variable, w.erase = v.erase ∧ Covers w.pieces ts := by
  obtain ⟨n, star⟩ := v
  cases star with
  | none =>
    obtain ⟨t, rfl, ht⟩ := Fit.of_single h
    obtain ⟨m, hm, rfl⟩ := Identifier.exists_refit ht
    exact ⟨⟨m, none⟩, by simp [erase, hm], .kept m.token .nil⟩
  | some star =>
    obtain ⟨t, us, rfl, ht, hu⟩ := Fit.of_cons h
    obtain ⟨u, rfl, hn⟩ := hu.of_single
    obtain ⟨m, hm, rfl⟩ := Identifier.exists_refit hn
    exact ⟨⟨m, some t⟩, by simp [erase, hm, Token.erase_eq ht], .kept t (.kept m.token .nil)⟩

namespace Expr

def Refits (e : Expr) : Prop :=
  ∀ ts : List Token, Fit e.pieces ts → ∃ e' : Expr, e'.erase = e.erase ∧ Covers e'.pieces ts

theorem exists_refit_arguments {arguments : List Expr} {ts : List Token}
    (ha : ∀ a ∈ arguments, a.Refits) (h : Fit (argumentPieces arguments) ts) :
    ∃ arguments' : List Expr, arguments'.map erase = arguments.map erase ∧
      Covers (argumentPieces arguments') ts := by
  induction arguments generalizing ts with
  | nil =>
    obtain rfl := List.map_eq_nil_iff.1 h
    exact ⟨[], rfl, .nil⟩
  | cons a arguments ih =>
    obtain ⟨hhead, htail⟩ := List.forall_mem_cons.1 ha
    cases arguments with
    | nil =>
      rw [argumentPieces] at h
      obtain ⟨a', he, hc⟩ := hhead ts h
      exact ⟨[a'], by simp [he], by rwa [argumentPieces]⟩
    | cons b arguments =>
      rw [argumentPieces_cons (by simp)] at h
      obtain ⟨us, vs, rfl, hu, hv⟩ := h.of_append
      obtain ⟨comma, ws, rfl, hcomma, hw⟩ := hv.of_cons
      obtain ⟨a', he, hc⟩ := hhead us hu
      obtain ⟨arguments', hes, hcs⟩ := ih htail hw
      have hne : arguments' ≠ [] := by
        rintro rfl
        cases hes
      refine ⟨a' :: arguments', by rw [List.map_cons, List.map_cons, he, hes], ?_⟩
      rw [argumentPieces_cons hne]
      exact hc.append (.cons hcomma hcs)

theorem refits (e : Expr) : e.Refits := by
  intro ts h
  induction e generalizing ts with
  | literal l =>
    rw [pieces] at h
    obtain ⟨t, rfl, ht⟩ := h.of_single
    have hl : t.kind.isLiteral = true := by
      rw [ht]
      exact l.isLiteral
    refine ⟨literal ⟨t, hl⟩, ?_, by rw [pieces]; exact .kept t .nil⟩
    simp only [erase, Literal.erase, Token.erase_eq ht]
  | var v =>
    obtain ⟨w, hw, hc⟩ := Variable.exists_refit (v := v) h
    exact ⟨var w, by rw [erase, erase, hw], hc⟩
  | assignment operator target value ih =>
    rw [pieces] at h
    obtain ⟨us, vs, rfl, hu, hv⟩ := h.of_append
    obtain ⟨op, ws, rfl, hop, hw⟩ := hv.of_cons
    obtain ⟨target', ht, hct⟩ := Variable.exists_refit hu
    obtain ⟨value', hv, hcv⟩ := ih ws hw
    refine ⟨assignment op target' value', ?_, ?_⟩
    · rw [erase, erase, ht, hv, Token.erase_eq hop]
    · rw [pieces]
      exact hct.append (.kept op hcv)
  | binary operator left right ihl ihr =>
    rw [pieces] at h
    obtain ⟨us, vs, rfl, hu, hv⟩ := h.of_append
    obtain ⟨op, ws, rfl, hop, hw⟩ := hv.of_cons
    obtain ⟨left', hl, hcl⟩ := ihl us hu
    obtain ⟨right', hr, hcr⟩ := ihr ws hw
    refine ⟨binary op left' right', ?_, ?_⟩
    · rw [erase, erase, hl, hr, Token.erase_eq hop]
    · rw [pieces]
      exact hcl.append (.kept op hcr)
  | unary operator operand ih =>
    rw [pieces] at h
    obtain ⟨op, us, rfl, hop, hu⟩ := h.of_cons
    obtain ⟨operand', ho, hc⟩ := ih us hu
    refine ⟨unary op operand', ?_, ?_⟩
    · rw [erase, erase, ho, Token.erase_eq hop]
    · rw [pieces]
      exact .kept op hc
  | call callee openToken arguments closeToken ihf iha =>
    rw [pieces] at h
    obtain ⟨us, vs, rfl, hu, hv⟩ := h.of_append
    obtain ⟨op, ws, rfl, hop, hrest⟩ := hv.of_cons
    obtain ⟨ws, zs, rfl, hw, hz⟩ := hrest.of_append
    obtain ⟨cl, rfl, hcl⟩ := hz.of_single
    obtain ⟨callee', hf, hcf⟩ := ihf us hu
    obtain ⟨arguments', ha, hca⟩ := exists_refit_arguments iha hw
    refine ⟨call callee' op arguments' cl, ?_, ?_⟩
    · simp only [erase, eraseAll_eq_map, hf, ha, Token.erase_eq hop, Token.erase_eq hcl]
    · rw [pieces]
      exact hcf.append (.kept op (hca.append (.kept cl .nil)))
  | index target openToken i closeToken iht ih =>
    rw [pieces] at h
    obtain ⟨us, vs, rfl, hu, hv⟩ := h.of_append
    obtain ⟨op, ws, rfl, hop, hrest⟩ := hv.of_cons
    obtain ⟨ws, zs, rfl, hw, hz⟩ := hrest.of_append
    obtain ⟨cl, rfl, hcl⟩ := hz.of_single
    obtain ⟨target', ht, hct⟩ := iht us hu
    obtain ⟨i', hi, hci⟩ := ih ws hw
    refine ⟨index target' op i' cl, ?_, ?_⟩
    · rw [erase, erase, ht, hi, Token.erase_eq hop, Token.erase_eq hcl]
    · rw [pieces]
      exact hct.append (.kept op (hci.append (.kept cl .nil)))
  | group openToken inner closeToken ih =>
    rw [pieces] at h
    obtain ⟨op, us, rfl, hop, hrest⟩ := h.of_cons
    obtain ⟨us, zs, rfl, hu, hz⟩ := hrest.of_append
    obtain ⟨cl, rfl, hcl⟩ := hz.of_single
    obtain ⟨inner', hi, hc⟩ := ih us hu
    refine ⟨group op inner' cl, ?_, ?_⟩
    · rw [erase, erase, hi, Token.erase_eq hop, Token.erase_eq hcl]
    · rw [pieces]
      exact .kept op (hc.append (.kept cl .nil))

end Expr

theorem exists_refit_type {mark : TokenKind} {type : Option Identifier} {ts : List Token}
    (h : Fit (typePieces mark type) ts) : ∃ type' : Option Identifier,
      type'.map Identifier.erase = type.map Identifier.erase ∧ Covers (typePieces mark type') ts := by
  cases type with
  | none =>
    obtain rfl := List.map_eq_nil_iff.1 h
    exact ⟨none, rfl, .nil⟩
  | some n =>
    obtain ⟨t, us, rfl, ht, hu⟩ := Fit.of_cons h
    obtain ⟨u, rfl, hn⟩ := hu.of_single
    obtain ⟨m, hm, rfl⟩ := Identifier.exists_refit hn
    exact ⟨some m, by rw [Option.map_some, Option.map_some, hm],
      .cons ht (Covers.kept m.token .nil)⟩

theorem Parameter.exists_refit {p : Parameter} {ts : List Token} (h : Fit p.pieces ts) :
    ∃ q : Parameter, q.erase = p.erase ∧ Covers q.pieces ts := by
  obtain ⟨t, us, rfl, ht, hu⟩ := Fit.of_cons h
  obtain ⟨m, hm, rfl⟩ := Identifier.exists_refit ht
  obtain ⟨type, htype, hc⟩ := exists_refit_type hu
  exact ⟨⟨m, type⟩, by rw [erase, erase, hm, htype], .kept m.token hc⟩

theorem exists_refit_moreParameters {ps : List Parameter} {ts : List Token}
    (h : Fit (ps.flatMap fun p ↦ .dropped .comma :: p.pieces) ts) :
    ∃ qs : List Parameter, qs.map Parameter.erase = ps.map Parameter.erase ∧
      Covers (qs.flatMap fun p ↦ .dropped .comma :: p.pieces) ts := by
  induction ps generalizing ts with
  | nil =>
    obtain rfl := List.map_eq_nil_iff.1 h
    exact ⟨[], rfl, .nil⟩
  | cons p ps ih =>
    rw [List.flatMap_cons, List.cons_append] at h
    obtain ⟨comma, us, rfl, hcomma, hu⟩ := h.of_cons
    obtain ⟨us, vs, rfl, hp, hv⟩ := hu.of_append
    obtain ⟨q, hq, hc⟩ := Parameter.exists_refit hp
    obtain ⟨qs, hqs, hcs⟩ := ih hv
    exact ⟨q :: qs, by rw [List.map_cons, List.map_cons, hq, hqs], .cons hcomma (hc.append hcs)⟩

theorem exists_refit_parameters {ps : List Parameter} {ts : List Token}
    (h : Fit (parameterPieces ps) ts) : ∃ qs : List Parameter,
      qs.map Parameter.erase = ps.map Parameter.erase ∧ Covers (parameterPieces qs) ts := by
  cases ps with
  | nil =>
    obtain rfl := List.map_eq_nil_iff.1 h
    exact ⟨[], rfl, .nil⟩
  | cons p ps =>
    obtain ⟨us, vs, rfl, hp, hv⟩ := Fit.of_append h
    obtain ⟨q, hq, hc⟩ := Parameter.exists_refit hp
    obtain ⟨qs, hqs, hcs⟩ := exists_refit_moreParameters hv
    exact ⟨q :: qs, by rw [List.map_cons, List.map_cons, hq, hqs], hc.append hcs⟩

theorem FunctionHeader.exists_refit {f : FunctionHeader} {ts : List Token} (h : Fit f.pieces ts) :
    ∃ g : FunctionHeader, g.erase = f.erase ∧ Covers g.pieces ts := by
  obtain ⟨keyword, _, rfl, hkeyword, h₁⟩ := Fit.of_cons h
  obtain ⟨name, _, rfl, hname, h₂⟩ := h₁.of_cons
  obtain ⟨openParen, _, rfl, hopen, h₃⟩ := h₂.of_cons
  obtain ⟨us, _, rfl, h₄, hbody⟩ := h₃.of_append
  obtain ⟨us, types, rfl, h₅, htype⟩ := h₄.of_append
  obtain ⟨params, _, rfl, hparams, hclose⟩ := h₅.of_append
  obtain ⟨closeParen, rfl, hcl⟩ := hclose.of_single
  obtain ⟨bodyOpen, rfl, hop⟩ := hbody.of_single
  obtain ⟨name, hn, rfl⟩ := Identifier.exists_refit hname
  obtain ⟨params', hp, hcp⟩ := exists_refit_parameters hparams
  obtain ⟨type, ht, hct⟩ := exists_refit_type htype
  refine ⟨⟨keyword, name, openParen, params', closeParen, type, bodyOpen⟩, ?_, ?_⟩
  · simp only [erase, hn, hp, ht, Token.erase_eq hkeyword, Token.erase_eq hopen,
      Token.erase_eq hcl, Token.erase_eq hop]
  · have hc := ((hcp.append (.kept closeParen .nil)).append hct).append (.kept bodyOpen .nil)
    exact .kept keyword (.kept name.token (.kept openParen hc))

theorem Construct.exists_refit {c : Construct} {ts : List Token} (h : Fit c.pieces ts) :
    ∃ d : Construct, d.erase = c.erase ∧ Covers d.pieces ts := by
  cases c with
  | expression e =>
    obtain ⟨e', he, hc⟩ := e.refits ts h
    exact ⟨.expression e', by rw [erase, erase, he], hc⟩
  | openBrace brace =>
    obtain ⟨t, rfl, ht⟩ := Fit.of_single h
    exact ⟨.openBrace t, by rw [erase, erase, Token.erase_eq ht], .kept t .nil⟩
  | closeBrace brace =>
    obtain ⟨t, rfl, ht⟩ := Fit.of_single h
    exact ⟨.closeBrace t, by rw [erase, erase, Token.erase_eq ht], .kept t .nil⟩
  | function f =>
    obtain ⟨g, hg, hc⟩ := FunctionHeader.exists_refit (f := f) h
    exact ⟨.function g, by rw [erase, erase, hg], hc⟩
  | returnStatement keyword value =>
    cases value with
    | none =>
      obtain ⟨t, rfl, ht⟩ := Fit.of_single h
      exact ⟨.returnStatement t none, by rw [erase, erase, Token.erase_eq ht], .kept t .nil⟩
    | some e =>
      obtain ⟨t, us, rfl, ht, hu⟩ := Fit.of_cons h
      obtain ⟨e', he, hc⟩ := e.refits us hu
      refine ⟨.returnStatement t (some e'), ?_, .kept t hc⟩
      rw [erase, erase, Option.map_some, Option.map_some, he, Token.erase_eq ht]
  | passStatement keyword =>
    obtain ⟨t, rfl, ht⟩ := Fit.of_single h
    exact ⟨.passStatement t, by rw [erase, erase, Token.erase_eq ht], .kept t .nil⟩
  | breakStatement keyword =>
    obtain ⟨t, rfl, ht⟩ := Fit.of_single h
    exact ⟨.breakStatement t, by rw [erase, erase, Token.erase_eq ht], .kept t .nil⟩

end Linewise
