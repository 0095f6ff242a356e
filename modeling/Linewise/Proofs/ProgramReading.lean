import Linewise.Proofs.Reading

namespace Linewise

open Upcoming Parser.Action

def EndsLine (xs : List Upcoming) : Prop := ∀ i ∈ xs.head?, i.onLaterLine = true

theorem EndsLine.stops {xs : List Upcoming} (h : EndsLine xs) (ends : TokenKind → Prop) :
    Stops false ends xs := by
  rintro i hi (hb | hl)
  · cases hb
  · rw [h i hi] at hl
    cases hl

def onNextLine : List Token → List Upcoming → List Upcoming
  | [], xs => xs
  | t :: ts, xs => ⟨true, .ok t⟩ :: here ts xs

theorem next_onNextLine (t : Token) (ts : List Token) (xs : List Upcoming) :
    Next true (onNextLine (t :: ts) xs) t (here ts xs) := ⟨true, rfl, inReach_true _⟩

variable {ts : List Token} {xs : List Upcoming}

theorem type_reads {mark : TokenKind} {type : Option Identifier} {t : Token}
    (hc : Covers (typePieces mark type) ts) (ht : t.kind ≠ mark) (us : List Token)
    (xs : List Upcoming) :
    ReadsType mark type (here ts (here (t :: us) xs)) (here (t :: us) xs) := by
  cases type with
  | none =>
    cases hc
    exact .absent (stops_here ht)
  | some n =>
    obtain ⟨colon, vs, rfl, hcolon, hn⟩ := hc.of_cons
    obtain rfl := Covers.of_single hn
    exact .given (next_here true colon [n.token] _) hcolon (next_here true n.token [] _)

/-- The parameters after the first one, with the bracket after them, begin with a comma or with that
bracket. -/
theorem exists_separator {params : List Parameter} {closeParen : Token}
    (hk : closeParen.kind = .closeParen)
    (hc : Covers ((params.flatMap fun p ↦ .dropped .comma :: p.pieces) ++ [.kept closeParen]) ts) :
    ∃ t us, ts = t :: us ∧ t.kind ≠ .colon := by
  cases params with
  | nil =>
    obtain rfl := Covers.of_single hc
    exact ⟨closeParen, [], rfl, by simp [hk]⟩
  | cons p params =>
    obtain ⟨comma, us, rfl, hcomma, -⟩ := Covers.of_cons hc
    have hcomma : comma.kind = .comma := hcomma
    exact ⟨comma, us, rfl, by simp [hcomma]⟩

theorem moreParameters_read {params : List Parameter} {closeParen : Token}
    (hk : closeParen.kind = .closeParen)
    (hc : Covers ((params.flatMap fun p ↦ .dropped .comma :: p.pieces) ++ [.kept closeParen]) ts) :
    ReadsParameters .commaOrClose params closeParen (here ts xs) xs := by
  induction params generalizing ts with
  | nil =>
    obtain rfl := Covers.of_single hc
    exact .close (next_here true closeParen [] xs) hk (by decide)
  | cons p params ih =>
    rw [List.flatMap_cons, List.append_assoc, List.cons_append, Parameter.pieces,
      List.cons_append] at hc
    obtain ⟨comma, us, rfl, hcomma, hafter⟩ := hc.of_cons
    obtain ⟨vs, rfl, hrest⟩ := hafter.of_kept
    obtain ⟨ws, zs, rfl, htype, hmore⟩ := hrest.of_append
    obtain ⟨t, zs', rfl, ht⟩ := exists_separator hk hmore
    have htypes := type_reads htype ht zs' xs
    rw [← here_append] at htypes
    exact .comma (next_here true comma _ xs) hcomma
      (.parameter (by decide) (next_here true p.name.token _ xs) htypes (ih hmore))

theorem parameters_read {params : List Parameter} {closeParen : Token}
    (hk : closeParen.kind = .closeParen)
    (hc : Covers (parameterPieces params ++ [.kept closeParen]) ts) :
    ReadsParameters .nameOrClose params closeParen (here ts xs) xs := by
  cases params with
  | nil =>
    obtain rfl := Covers.of_single hc
    exact .close (next_here true closeParen [] xs) hk (by decide)
  | cons p params =>
    rw [parameterPieces, List.append_assoc, Parameter.pieces, List.cons_append] at hc
    obtain ⟨vs, rfl, hrest⟩ := hc.of_kept
    obtain ⟨ws, zs, rfl, htype, hmore⟩ := hrest.of_append
    obtain ⟨t, zs', rfl, ht⟩ := exists_separator hk hmore
    have htypes := type_reads htype ht zs' xs
    rw [← here_append] at htypes
    exact .parameter (by decide) (next_here true p.name.token _ xs) htypes
      (moreParameters_read hk hmore)

theorem function_reads {f : FunctionHeader} (hs : f.SlotsRight) (hc : Covers f.pieces ts) :
    ReadsConstruct (onNextLine ts xs) (.function f) xs := by
  rw [FunctionHeader.pieces, List.append_assoc] at hc
  obtain ⟨us, rfl, hc₁⟩ := hc.of_kept
  obtain ⟨us, rfl, hc₂⟩ := hc₁.of_kept
  obtain ⟨us, rfl, hc₃⟩ := hc₂.of_kept
  obtain ⟨us, vs, rfl, hparameters, hc₄⟩ := hc₃.of_append
  obtain ⟨vs, ws, rfl, htype, hbody⟩ := hc₄.of_append
  obtain rfl := hbody.of_single
  have htypes := type_reads htype (t := f.bodyOpen) (by simp [hs.bodyOpen]) [] xs
  rw [← here_append] at htypes
  refine .function (next_onNextLine f.keyword _ xs) hs.keyword (next_here true f.name.token _ xs)
    (next_here true f.openParen _ xs) hs.openParen ?_ htypes (next_here true f.bodyOpen [] xs)
    hs.bodyOpen
  rw [here_append]
  exact parameters_read hs.closeParen hparameters

theorem Expr.Canonical.reads_line {e : Expr} (hc : e.Canonical) (hs : e.SlotsRight)
    (ht : Covers e.pieces ts) (hx : EndsLine xs) :
    Reads false (.expression 0 e) (here ts xs) xs := by
  have hr := (hc.reads hs).2.reads ht e.leftBinds_zero (hx.stops _) (hx.stops _)
  rwa [looked_false] at hr

theorem Construct.reads_line {c : Construct} (hs : c.SlotsRight)
    (hcanonical : ∀ e ∈ c.expression?, e.Canonical) (hc : Covers c.pieces ts) (hx : EndsLine xs) :
    ReadsConstruct (onNextLine ts xs) c xs := by
  cases hs with
  | @expression e hse =>
    obtain ⟨t, ps, hp, hk⟩ := hse.exists_start
    have hce : Covers e.pieces ts := hc
    obtain ⟨us, rfl, -⟩ := (hp ▸ hce).of_kept
    exact .expression (next_onNextLine t us xs) hk ((hcanonical e rfl).reads_line hse hce hx)
      (hx.stops _)
  | openBrace hk =>
    obtain rfl := Covers.of_single hc
    exact .openBrace (next_onNextLine _ [] xs) hk
  | closeBrace hk =>
    obtain rfl := Covers.of_single hc
    exact .closeBrace (next_onNextLine _ [] xs) hk
  | function hsf => exact function_reads hsf hc
  | @returnStatement keyword value hk hsv =>
    cases value with
    | none =>
      obtain rfl := Covers.of_single hc
      exact .returnNothing (next_onNextLine keyword [] xs) hk (hx.stops _)
    | some e =>
      obtain ⟨us, rfl, hce⟩ := Covers.of_kept hc
      obtain ⟨t, ps, hp, hkt⟩ := (hsv e rfl).exists_start
      have hr := (hcanonical e rfl).reads_line (hsv e rfl) hce hx
      obtain ⟨vs, rfl, -⟩ := (hp ▸ hce).of_kept
      refine .returnValue (next_onNextLine keyword _ xs) hk (next_here false t vs xs) ?_ hr (hx.stops _)
      intro hclose
      rw [hclose] at hkt
      cases hkt
  | passStatement hk =>
    obtain rfl := Covers.of_single hc
    exact .pass (next_onNextLine _ [] xs) hk (hx.stops _)
  | breakStatement hk =>
    obtain rfl := Covers.of_single hc
    exact .break (next_onNextLine _ [] xs) hk (hx.stops _)

/-- What lies ahead when each list of tokens has a line to itself. -/
def inLines (lines : List (List Token)) : List Upcoming := lines.foldr onNextLine []

theorem endsLine_inLines (lines : List (List Token)) : EndsLine (inLines lines) := by
  induction lines with
  | nil => simp [inLines, EndsLine]
  | cons ts lines ih =>
    cases ts with
    | nil => exact ih
    | cons t ts =>
      intro i hi
      cases hi
      rfl

theorem readsProgram_inLines {cs : List Construct} {lines : List (List Token)}
    (hs : ∀ c ∈ cs, c.SlotsRight) (hcanonical : ∀ c ∈ cs, ∀ e ∈ c.expression?, e.Canonical)
    (hc : List.Forall₂ (fun c ts ↦ Covers c.pieces ts) cs lines) :
    ReadsProgram (inLines lines) cs := by
  induction hc with
  | nil => exact .done
  | @cons c ts cs lines hc _ ih =>
    obtain ⟨hsc, hs⟩ := List.forall_mem_cons.1 hs
    obtain ⟨hcc, hcanonical⟩ := List.forall_mem_cons.1 hcanonical
    exact .construct (Construct.reads_line hsc hcc hc (endsLine_inLines lines))
      (ih hs hcanonical)

end Linewise
