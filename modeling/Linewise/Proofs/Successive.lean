import Linewise.Proofs.Coverage

namespace Linewise

/-- The tokens stand one after the other, none of them ends before it begins. -/
structure Successive (ts : List Token) : Prop where
  pairwise : ts.Pairwise fun t u ↦ t.span.stop.Before u.span.start
  ordered : ∀ t ∈ ts, t.span.start ≤ t.span.stop

namespace Successive

variable {ts us vs : List Token} {t u : Token} {i j : Nat}

theorem sublist (h : Successive ts) (hs : us.Sublist ts) : Successive us :=
  ⟨h.pairwise.sublist hs, fun t ht ↦ h.ordered t (hs.subset ht)⟩

theorem left (h : Successive (us ++ vs)) : Successive us := h.sublist (List.sublist_append_left us vs)

theorem right (h : Successive (us ++ vs)) : Successive vs := h.sublist (List.sublist_append_right us vs)

theorem tail (h : Successive (t :: ts)) : Successive ts := h.sublist (List.sublist_cons_self t ts)

theorem before (h : Successive (us ++ vs)) (ht : t ∈ us) (hu : u ∈ vs) : t.span.stop.Before u.span.start :=
  (List.pairwise_append.1 h.pairwise).2.2 t ht u hu

theorem before_of_lt (h : Successive ts) (ht : ts[i]? = some t) (hu : ts[j]? = some u) (hij : i < j) :
    t.span.stop.Before u.span.start := by
  obtain ⟨hi, rfl⟩ := List.getElem?_eq_some_iff.1 ht
  obtain ⟨hj, rfl⟩ := List.getElem?_eq_some_iff.1 hu
  exact List.pairwise_iff_getElem.1 h.pairwise i j hi hj hij

theorem start_le (h : Successive ts) (ht : ts[i]? = some t) (hu : ts[j]? = some u) (hij : i ≤ j) :
    t.span.start ≤ u.span.start := by
  rcases Nat.eq_or_lt_of_le hij with rfl | hlt
  · obtain rfl := Option.some.inj (ht.symm.trans hu)
    exact Position.le_refl _
  · exact Position.le_trans (h.ordered t (List.mem_of_getElem? ht)) (h.before_of_lt ht hu hlt).le

theorem stop_le (h : Successive ts) (ht : ts[i]? = some t) (hu : ts[j]? = some u) (hij : i ≤ j) :
    t.span.stop ≤ u.span.stop := by
  rcases Nat.eq_or_lt_of_le hij with rfl | hlt
  · obtain rfl := Option.some.inj (ht.symm.trans hu)
    exact Position.le_refl _
  · exact Position.le_trans (h.before_of_lt ht hu hlt).le (h.ordered u (List.mem_of_getElem? hu))

theorem le_of_start_le (h : Successive ts) (ht : ts[i]? = some t) (hu : ts[j]? = some u)
    (hle : t.span.start ≤ u.span.start) : i ≤ j := by
  refine Nat.le_of_not_lt fun hlt ↦ ?_
  exact (h.before_of_lt hu ht hlt).not_le (Position.le_trans hle (h.ordered u (List.mem_of_getElem? hu)))

theorem le_of_stop_le (h : Successive ts) (ht : ts[i]? = some t) (hu : ts[j]? = some u)
    (hle : t.span.stop ≤ u.span.stop) : i ≤ j := by
  refine Nat.le_of_not_lt fun hlt ↦ ?_
  exact (h.before_of_lt hu ht hlt).not_le (Position.le_trans (h.ordered t (List.mem_of_getElem? ht)) hle)

theorem nodup_spans (h : Successive ts) : (ts.map Token.span).Nodup := by
  refine List.pairwise_map.2 (h.pairwise.imp_of_mem fun {t u} ht _ hbefore heq ↦ ?_)
  rw [← heq] at hbefore
  exact hbefore.not_le (h.ordered t ht)

theorem nodup (h : Successive ts) : ts.Nodup :=
  List.Pairwise.of_map Token.span (fun _ _ ↦ mt (congrArg Token.span)) h.nodup_spans

end Successive

theorem Lexer.Inside.successive {ls : List (List Char)} {s : Lexer} (h : Inside ls s) {later : Bool}
    {ts : List Token} (hs : (ts.map Except.ok).Sublist ((ahead later s).map (·.content))) : Successive ts :=
  ⟨(List.pairwise_map.1 ((pairwise_contents_ahead later s).sublist hs)).imp fun h ↦ h _ _ rfl rfl,
    fun _ ht ↦ h.ordered_of_mem_ahead (hs.subset (List.mem_map_of_mem ht))⟩

theorem Lexer.successive_of_readAll {text : List Char} {keepComments : Bool} {tokens : Array Token}
    (h : (ofText text keepComments).readAll = .ok tokens) : Successive tokens.toList := by
  have hcontents := readAll_eq_ok.1 h
  rw [upcoming_of_not_held rfl] at hcontents
  refine @Inside.successive _ _ (inside_ofText text keepComments) false tokens.toList ?_
  rw [← hcontents]

theorem successive_of_tokenize {source : String} {tokens : List Token}
    (h : tokenize source = .ok tokens.toArray) : Successive tokens := Lexer.successive_of_readAll h

end Linewise
