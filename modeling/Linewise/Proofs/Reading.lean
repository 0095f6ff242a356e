import Linewise.Proofs.Pieces
import Linewise.Proofs.Precedence

namespace Linewise

open Upcoming Parser.Action

def here (tokens : List Token) (xs : List Upcoming) : List Upcoming := tokens.map .givenBack ++ xs

@[simp]
theorem here_nil (xs : List Upcoming) : here [] xs = xs := rfl

@[simp]
theorem here_append (ts us : List Token) (xs : List Upcoming) :
    here (ts ++ us) xs = here ts (here us xs) := by
  simp [here]

namespace Upcoming

variable {b : Bool} {xs : List Upcoming}

theorem next_here (b : Bool) (t : Token) (ts : List Token) (xs : List Upcoming) :
    Next b (here (t :: ts) xs) t (here ts xs) := ⟨false, rfl, inReach_givenBack b t⟩

@[simp]
theorem looked_looked (b : Bool) (xs : List Upcoming) : looked b (looked b xs) = looked b xs := by
  cases xs with
  | nil => rfl
  | cons i xs => cases b <;> simp [looked]

theorem Stops.looked {ends : TokenKind → Prop} (h : Stops b ends xs) :
    Stops b ends (looked b xs) := by
  cases b with
  | false => rwa [looked_false]
  | true =>
    intro i hi reach
    cases xs with
    | nil => cases hi
    | cons j xs =>
      cases hi
      exact h j rfl (inReach_true j)

theorem stops_here {ends : TokenKind → Prop} {t : Token} {ts : List Token} (h : ends t.kind) :
    Stops b ends (here (t :: ts) xs) := (next_here b t ts xs).stops h

theorem Stops.imp {ends ends' : TokenKind → Prop} (h : Stops b ends xs)
    (himp : ∀ k, ends k → ends' k) : Stops b ends' xs := by
  intro i hi reach
  obtain ⟨t, ht, he⟩ := h i hi reach
  exact ⟨t, ht, himp t.kind he⟩

end Upcoming

namespace Covers

variable {p : Piece} {ps qs : List Piece} {ts : List Token}

theorem of_append (h : Covers (ps ++ qs) ts) :
    ∃ us vs, ts = us ++ vs ∧ Covers ps us ∧ Covers qs vs := by
  induction ps generalizing ts with
  | nil => exact ⟨[], ts, rfl, .nil, h⟩
  | cons p ps ih =>
    obtain ⟨t, us, hp, hs, rfl⟩ := List.forall₂_cons_left_iff.1 h
    obtain ⟨us, vs, rfl, hu, hv⟩ := ih hs
    exact ⟨t :: us, vs, rfl, .cons hp hu, hv⟩

theorem of_cons (h : Covers (p :: ps) ts) : ∃ t us, ts = t :: us ∧ p.Is t ∧ Covers ps us := by
  obtain ⟨t, us, hp, hs, rfl⟩ := List.forall₂_cons_left_iff.1 h
  exact ⟨t, us, rfl, hp, hs⟩

theorem of_kept {token : Token} (h : Covers (.kept token :: ps) ts) :
    ∃ us, ts = token :: us ∧ Covers ps us := by
  obtain ⟨t, us, rfl, rfl, hs⟩ := of_cons h
  exact ⟨us, rfl, hs⟩

theorem of_single {token : Token} (h : Covers [.kept token] ts) : ts = [token] := by
  obtain ⟨us, rfl, hs⟩ := of_kept h
  cases hs
  rfl

end Covers

namespace Expr

/-- The operators down the left edge of the tree bind at least as tightly as `least`. -/
def LeftBinds (least : Nat) : Expr → Prop
  | assignment operator _ _ => ∀ power ∈ operator.kind.bindingPower?, least ≤ power.left
  | binary operator left _ =>
    (∀ power ∈ operator.kind.bindingPower?, least ≤ power.left) ∧ left.LeftBinds least
  | _ => True

theorem leftBinds_zero (e : Expr) : e.LeftBinds 0 := by
  induction e with
  | binary operator left right ihl _ => exact ⟨fun _ _ ↦ Nat.zero_le _, ihl⟩
  | assignment operator target value _ => exact fun _ _ ↦ Nat.zero_le _
  | _ => trivial

theorem SlotsRight.exists_start {e : Expr} (h : e.SlotsRight) :
    ∃ t ps, e.pieces = .kept t :: ps ∧ startsExpression t.kind = true := by
  induction h with
  | @literal l =>
    refine ⟨l.token, [], by rw [pieces], ?_⟩
    have hl := l.isLiteral
    cases hk : l.token.kind <;> first | rfl | (rw [hk] at hl; cases hl)
  | @var n => exact ⟨n.token, [], by rw [pieces]; rfl, rfl⟩
  | @dereference n star hk => exact ⟨star, [.kept n.token], by rw [pieces]; rfl, by rw [hk]; rfl⟩
  | assignment _ _ _ iht _ | binary _ _ _ iht _ | call _ _ _ _ iht _ | index _ _ _ _ iht _ =>
    obtain ⟨t, ps, hp, ht⟩ := iht
    exact ⟨t, _, by simp only [pieces] at hp ⊢; rw [hp]; rfl, ht⟩
  | @unary operator operand hk _ _ =>
    refine ⟨operator, operand.pieces, by rw [pieces], ?_⟩
    rcases hk with hk | hk | hk <;> rw [hk] <;> rfl
  | @group inner openToken closeToken hk _ _ _ =>
    exact ⟨openToken, _, by rw [pieces], by rw [hk]; rfl⟩

/-- Nothing in reach goes on with the tree or with an operand on its right edge. -/
def EndsBefore (b : Bool) (e : Expr) (xs : List Upcoming) : Prop :=
  Stops b (fun k ↦ k ≠ .openParen ∧ k ≠ .openSquareBracket ∧
    ∀ power ∈ k.bindingPower?, e.Yields power.left) xs

def ReadsWithSuffixes (e : Expr) : Prop :=
  ∀ (b : Bool) (ts : List Token) (xs ys : List Upcoming) (whole : Expr), Covers e.pieces ts →
    Reads b (.suffixes e whole) xs ys → Reads b (.operand whole) (here ts xs) ys

def ReadsWithOperators (e : Expr) : Prop :=
  ∀ (b : Bool) (least : Nat) (ts : List Token) (xs ys : List Upcoming) (whole : Expr),
    Covers e.pieces ts → e.LeftBinds least → e.EndsBefore b xs →
    Reads b (.operators least e whole) (looked b xs) ys →
    Reads b (.expression least whole) (here ts xs) ys

theorem ReadsWithSuffixes.withOperators {e : Expr} (h : e.ReadsWithSuffixes) :
    e.ReadsWithOperators := by
  intro b least ts xs ys whole hc _ he hr
  have hs : Reads b (.suffixes e e) xs (looked b xs) := .noSuffix (he.imp fun _ hk ↦ ⟨hk.1, hk.2.1⟩)
  exact .expression (h b ts xs _ e hc hs) hr

/-- A tree is read on its own in front of what does not go on with it. -/
theorem ReadsWithOperators.reads {e : Expr} (h : e.ReadsWithOperators) {b : Bool} {least : Nat}
    {ts : List Token} {xs : List Upcoming} (hc : Covers e.pieces ts) (hl : e.LeftBinds least)
    (he : e.EndsBefore b xs)
    (hs : Stops b (fun k ↦ ∀ power ∈ k.bindingPower?, power.left < least) xs) :
    Reads b (.expression least e) (here ts xs) (looked b xs) := by
  have hr : Reads b (.operators least e e) (looked b xs) (looked b (looked b xs)) :=
    .noOperator hs.looked
  rw [looked_looked] at hr
  exact h b least ts xs _ e hc hl he hr

def IsCloser (k : TokenKind) : Prop := k = .closeParen ∨ k = .closeSquareBracket ∨ k = .comma

theorem IsCloser.endsBefore {k : TokenKind} (h : IsCloser k) : k ≠ .openParen ∧
    k ≠ .openSquareBracket ∧ k.bindingPower? = none := by
  rcases h with rfl | rfl | rfl <;> exact ⟨by decide, by decide, rfl⟩

theorem ReadsWithOperators.reads_before {e : Expr} (h : e.ReadsWithOperators) {ts : List Token}
    {t : Token} (hc : Covers e.pieces ts) (ht : IsCloser t.kind) (us : List Token)
    (xs : List Upcoming) :
    Reads true (.expression 0 e) (here ts (here (t :: us) xs)) (here (t :: us) xs) := by
  obtain ⟨hp, hs, hb⟩ := ht.endsBefore
  have hend : e.EndsBefore true (here (t :: us) xs) :=
    stops_here ⟨hp, hs, fun power hpower ↦ by rw [hb] at hpower; cases hpower⟩
  exact h.reads hc e.leftBinds_zero hend
    (stops_here fun power hpower ↦ by rw [hb] at hpower; cases hpower)

theorem binds_of_yields {n least : Nat} {e : Expr} (hs : e.SlotsRight) (hy : e.Yields n)
    (hn : least ≤ n) : e.Binds least := by
  intro operator ho power hp
  have hlt : n < power.right := by
    cases e with
    | assignment | binary =>
      cases ho
      exact hy.1 power hp
    | _ => cases ho
  obtain ⟨tier, -, -, -, rfl⟩ := TokenKind.exists_tier hp
  have hpower := tier.power_eq
  omega

theorem Canonical.leftBinds {least : Nat} {e : Expr} (hc : e.Canonical) (hs : e.SlotsRight)
    (hb : e.Binds least) : e.LeftBinds least := by
  induction e with
  | assignment operator target value _ => exact hb operator rfl
  | binary operator left right ihl _ =>
    obtain ⟨power, hp⟩ := hs.exists_power rfl
    cases hc with
    | binary hcl _ hy => cases hs with
      | binary _ hsl _ =>
        have hbl := binds_of_yields hsl (hy power hp).1 (hb operator rfl power hp)
        exact ⟨hb operator rfl, ihl hcl hsl hbl⟩
  | _ => trivial

theorem literal_reads (l : Literal) : (literal l).ReadsWithSuffixes := by
  intro b ts xs ys whole hc hr
  obtain rfl := hc.of_single
  exact .suffixed (.literal (next_here b l.token [] xs)) hr

theorem var_reads {v : Variable} (hs : (var v).SlotsRight) : (var v).ReadsWithSuffixes := by
  intro b ts xs ys whole hc hr
  obtain ⟨n, star⟩ := v
  cases hs with
  | var =>
    obtain rfl := Covers.of_single hc
    exact .suffixed (.name (next_here b n.token [] xs)) hr
  | @dereference _ star hk =>
    obtain ⟨us, rfl, hn⟩ := Covers.of_kept hc
    obtain rfl := Covers.of_single hn
    exact .suffixed (.dereference (next_here b star [n.token] xs) hk (next_here b n.token [] xs)) hr

theorem group_reads {openToken closeToken : Token} {inner : Expr} (h : inner.ReadsWithOperators)
    (ho : openToken.kind = .openParen) (hk : closeToken.kind = .closeParen) :
    (group openToken inner closeToken).ReadsWithSuffixes := by
  intro b ts xs ys whole hc hr
  rw [pieces] at hc
  obtain ⟨us, rfl, hrest⟩ := hc.of_kept
  obtain ⟨vs, ws, rfl, hv, hw⟩ := hrest.of_append
  obtain rfl := hw.of_single
  have hinner := h.reads_before hv (.inl hk) [] xs
  rw [← here_append] at hinner
  exact .suffixed (.group (next_here b openToken _ xs) ho hinner (next_here true closeToken [] xs) hk) hr

theorem index_reads {target i : Expr} {openToken closeToken : Token}
    (ht : target.ReadsWithSuffixes) (hi : i.ReadsWithOperators)
    (ho : openToken.kind = .openSquareBracket) (hk : closeToken.kind = .closeSquareBracket) :
    (index target openToken i closeToken).ReadsWithSuffixes := by
  intro b ts xs ys whole hc hr
  rw [pieces] at hc
  obtain ⟨us, vs, rfl, hu, hafter⟩ := hc.of_append
  obtain ⟨vs, rfl, hrest⟩ := hafter.of_kept
  obtain ⟨vs, ws, rfl, hv, hw⟩ := hrest.of_append
  obtain rfl := hw.of_single
  have hindex := hi.reads_before hv (.inr (.inl hk)) [] xs
  rw [← here_append] at hindex
  rw [here_append]
  refine ht b us _ ys whole hu (.moreSuffixes ?_ hr)
  exact .index (next_here b openToken _ xs) ho hindex (next_here true closeToken [] xs) hk

theorem arguments_read {arguments : List Expr} {closeToken : Token} {ts : List Token}
    {xs : List Upcoming} (hne : arguments ≠ []) (h : ∀ a ∈ arguments, a.ReadsWithOperators)
    (hk : closeToken.kind = .closeParen)
    (hc : Covers (argumentPieces arguments ++ [.kept closeToken]) ts) :
    Reads true (.arguments arguments closeToken) (here ts xs) xs := by
  induction arguments generalizing ts with
  | nil => exact absurd rfl hne
  | cons a arguments ih =>
    have ha := h a List.mem_cons_self
    cases arguments with
    | nil =>
      obtain ⟨us, vs, rfl, hu, hv⟩ := hc.of_append
      obtain rfl := hv.of_single
      rw [argumentPieces] at hu
      rw [here_append]
      exact .lastArgument (ha.reads_before hu (.inl hk) _ _) (next_here true closeToken [] xs) hk
    | cons a' arguments =>
      rw [argumentPieces_cons (by simp), List.append_assoc, List.cons_append] at hc
      obtain ⟨us, vs, rfl, hu, hafter⟩ := hc.of_append
      obtain ⟨comma, vs, rfl, hcomma, hrest⟩ := hafter.of_cons
      rw [here_append]
      have hmore := ih (by simp) (fun x hx ↦ h x (List.mem_cons_of_mem a hx)) hrest
      exact .moreArguments (ha.reads_before hu (.inr (.inr hcomma)) _ _)
        (next_here true comma vs xs) hcomma hmore

theorem exists_start_arguments {a : Expr} (h : a.SlotsRight) (arguments : List Expr) :
    ∃ t ps, argumentPieces (a :: arguments) = .kept t :: ps ∧ startsExpression t.kind = true := by
  obtain ⟨t, ps, hp, ht⟩ := h.exists_start
  cases arguments with
  | nil => exact ⟨t, ps, by rw [argumentPieces, hp], ht⟩
  | cons a' arguments =>
    rw [argumentPieces_cons (by simp), hp]
    exact ⟨t, _, rfl, ht⟩

theorem call_reads {callee : Expr} {openToken closeToken : Token} {arguments : List Expr}
    (hf : callee.ReadsWithSuffixes) (h : ∀ a ∈ arguments, a.ReadsWithOperators)
    (hs : ∀ a ∈ arguments, a.SlotsRight) (ho : openToken.kind = .openParen)
    (hk : closeToken.kind = .closeParen) :
    (call callee openToken arguments closeToken).ReadsWithSuffixes := by
  intro b ts xs ys whole hc hr
  rw [pieces] at hc
  obtain ⟨us, vs, rfl, hu, hafter⟩ := hc.of_append
  obtain ⟨vs, rfl, hrest⟩ := hafter.of_kept
  rw [here_append]
  refine hf b us _ ys whole hu (.moreSuffixes ?_ hr)
  cases arguments with
  | nil =>
    obtain rfl := Covers.of_single hrest
    exact .emptyCall (next_here b openToken [closeToken] xs) ho (next_here true closeToken [] xs) hk
  | cons a arguments =>
    have hread : Reads true (.arguments (a :: arguments) closeToken) (here vs xs) xs :=
      arguments_read (by simp) h hk hrest
    obtain ⟨t, ps, hp, ht⟩ := exists_start_arguments (hs a List.mem_cons_self) arguments
    rw [hp, List.cons_append] at hrest
    obtain ⟨us, rfl, -⟩ := hrest.of_kept
    have hstop : Stops true (· ≠ .closeParen) (here (t :: us) xs) := by
      refine stops_here fun hclose ↦ ?_
      rw [hclose] at ht
      cases ht
    exact .call (next_here b openToken _ xs) ho hstop hread

/-- The operand of a unary operator ends where the operation ends. -/
theorem unary_reads {operator : Token} {operand : Expr} (h : operand.ReadsWithOperators)
    (hl : operand.LeftBinds BindingPower.unaryOperand) (hk : operator.kind.IsUnary) :
    (unary operator operand).ReadsWithOperators := by
  intro b least ts xs ys whole hc _ he hr
  rw [pieces] at hc
  obtain ⟨us, rfl, hu⟩ := hc.of_kept
  have hoperand := h.reads hu hl (he.imp fun k hk ↦ ⟨hk.1, hk.2.1, fun p hp ↦ (hk.2.2 p hp).2⟩)
    (he.imp fun k hk p hp ↦ (hk.2.2 p hp).1)
  exact .expression (.unary (next_here b operator us xs) hk hoperand) hr

/-- The right operand ends where the operator before it lets the next one take over. -/
theorem operator_reads {left right e : Expr} {operator : Token} {power : BindingPower}
    (hj : left.Joins operator right e) (hp : operator.kind.bindingPower? = some power)
    (hleft : left.ReadsWithOperators) (hright : right.ReadsWithOperators)
    (hy : left.Yields power.left) (hlr : right.LeftBinds power.right)
    (hll : ∀ least, e.LeftBinds least → least ≤ power.left ∧ left.LeftBinds least)
    (hye : ∀ n, e.Yields n → n < power.right ∧ right.Yields n) : e.ReadsWithOperators := by
  intro b least ts xs ys whole hc hl he hr
  rw [pieces_of_joins hj] at hc
  obtain ⟨us, vs, rfl, hu, hafter⟩ := hc.of_append
  obtain ⟨vs, rfl, hv⟩ := hafter.of_kept
  obtain ⟨hle, hll⟩ := hll least hl
  have hread := hright.reads hv hlr
    (he.imp fun k hk ↦ ⟨hk.1, hk.2.1, fun p hp ↦ (hye _ (hk.2.2 p hp)).2⟩)
    (he.imp fun k hk p hp ↦ (hye _ (hk.2.2 p hp)).1)
  rw [here_append]
  refine hleft b least us _ ys whole hu hll ?_ ?_
  · refine stops_here ⟨?_, ?_, fun p hp' ↦ ?_⟩
    · intro hk
      rw [hk] at hp
      cases hp
    · intro hk
      rw [hk] at hp
      cases hp
    · obtain rfl := Option.some.inj (hp.symm.trans hp')
      exact hy
  · exact .operator (next_here b operator vs xs) hp hle hread hj hr

/-- A canonical tree is read back: with the suffixes after it if it is primary, and with the operators
after it in any case. -/
theorem Canonical.reads {e : Expr} (hc : e.Canonical) (hs : e.SlotsRight) :
    (e.IsPrimary → e.ReadsWithSuffixes) ∧ e.ReadsWithOperators := by
  -- What can be read with suffixes after it can be read with operators after it, so for primary expressions the
  -- first part is all there is to show.
  have primary {e : Expr} (h : e.ReadsWithSuffixes) :
      (e.IsPrimary → e.ReadsWithSuffixes) ∧ e.ReadsWithOperators :=
    ⟨fun _ ↦ h, h.withOperators⟩
  induction e with
  | literal l => exact primary (literal_reads l)
  | var v => exact primary (var_reads hs)
  | assignment operator target value ih =>
    obtain ⟨power, hp⟩ := hs.exists_power rfl
    cases hc with
    | assignment hcv hb => cases hs with
      | assignment hk hst hsv =>
        refine ⟨False.elim, ?_⟩
        refine operator_reads (.assignment hk) hp (var_reads hst).withOperators (ih hcv hsv).2 trivial
          (hcv.leftBinds hsv (hb power hp)) (fun least hl ↦ ⟨hl power hp, trivial⟩)
          fun n hn ↦ ⟨hn.1 power hp, hn.2⟩
  | binary operator left right ihl ihr =>
    obtain ⟨power, hp⟩ := hs.exists_power rfl
    cases hc with
    | binary hcl hcr hb => cases hs with
      | binary hk hsl hsr =>
        refine ⟨False.elim, ?_⟩
        obtain ⟨hy, hb⟩ := hb power hp
        exact operator_reads (.binary hk.1) hp (ihl hcl hsl).2 (ihr hcr hsr).2 hy
          (hcr.leftBinds hsr hb) (fun least hl ↦ ⟨hl.1 power hp, hl.2⟩)
          fun n hn ↦ ⟨hn.1 power hp, hn.2⟩
  | unary operator operand ih =>
    cases hc with
    | unary hco hb => cases hs with
      | unary hk hso =>
        exact ⟨False.elim, unary_reads (ih hco hso).2 (hco.leftBinds hso hb) hk⟩
  | call callee openToken arguments closeToken ihf ih =>
    cases hc with
    | call hcf hpf hca => cases hs with
      | call hsf ho hsa hk =>
        exact primary (call_reads ((ihf hcf hsf).1 hpf) (fun a ha ↦ (ih a ha (hca a ha) (hsa a ha)).2)
          hsa ho hk)
  | index target openToken i closeToken iht ih =>
    cases hc with
    | index hct hpt hci => cases hs with
      | index hst ho hsi hk =>
        exact primary (index_reads ((iht hct hst).1 hpt) (ih hci hsi).2 ho hk)
  | group openToken inner closeToken ih =>
    cases hc with
    | group hci => cases hs with
      | group ho hsi hk => exact primary (group_reads (ih hci hsi).2 ho hk)

end Expr

end Linewise
