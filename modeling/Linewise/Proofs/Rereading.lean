import Linewise.Proofs.Pieces

namespace Linewise

open Upcoming

def SameContents (xs ys : List Upcoming) : Prop := xs.map (·.content) = ys.map (·.content)

namespace SameContents

variable {xs ys : List Upcoming} {i : Upcoming}

theorem symm (h : SameContents xs ys) : SameContents ys xs := Eq.symm h

theorem looked (b : Bool) (h : SameContents xs ys) :
    SameContents (looked b xs) (looked b ys) := by
  rw [SameContents, map_content_looked, map_content_looked]
  exact h

theorem of_cons (h : SameContents (i :: xs) ys) :
    ∃ later ys', ys = ⟨later, i.content⟩ :: ys' ∧ SameContents xs ys' := by
  obtain ⟨j, ys', rfl, hj, hys⟩ := List.map_eq_cons_iff.1 h.symm
  obtain ⟨later, content⟩ := j
  cases hj
  exact ⟨later, ys', rfl, Eq.symm hys⟩

end SameContents

variable {xs ys xs' : List Upcoming}

theorem Upcoming.Next.reread {token : Token} (h : Next true xs token ys)
    (hs : SameContents xs xs') : ∃ ys', Next true xs' token ys' ∧ SameContents ys ys' := by
  obtain ⟨later, rfl, -⟩ := h
  obtain ⟨later', ys', rfl, hys⟩ := hs.of_cons
  exact ⟨ys', ⟨later', rfl, inReach_true _⟩, hys⟩

theorem Upcoming.Stops.reread {ends : TokenKind → Prop} (h : Stops true ends xs)
    (hs : SameContents xs xs') : Stops true ends xs' := by
  intro j hj _
  obtain ⟨ys', rfl⟩ := List.head?_eq_some_iff.1 hj
  obtain ⟨later, xs, rfl, -⟩ := hs.symm.of_cons
  exact h ⟨later, j.content⟩ rfl (inReach_true _)

/-- Between brackets a phrase is read again wherever lines end. -/
theorem Reads.reread {phrase : Phrase} (h : Reads true phrase xs ys) (hs : SameContents xs xs') :
    ∃ ys', Reads true phrase xs' ys' ∧ SameContents ys ys' := by
  -- Between brackets all the parts of a phrase are read between brackets, too, which the induction has to keep.
  generalize hb : true = b at h
  induction h generalizing xs' with
  | literal hn =>
    subst hb
    obtain ⟨ys', hn, hy⟩ := hn.reread hs
    exact ⟨ys', .literal hn, hy⟩
  | name hn =>
    subst hb
    obtain ⟨ys', hn, hy⟩ := hn.reread hs
    exact ⟨ys', .name hn, hy⟩
  | dereference hn hk hn' =>
    subst hb
    obtain ⟨ys', hn, hy⟩ := hn.reread hs
    obtain ⟨zs', hn', hz⟩ := hn'.reread hy
    exact ⟨zs', .dereference hn hk hn', hz⟩
  | group hn hk _ hc hkc ih =>
    subst hb
    obtain ⟨ys', hn, hy⟩ := hn.reread hs
    obtain ⟨zs', hr, hz⟩ := ih hy rfl
    obtain ⟨ws', hc, hw⟩ := hc.reread hz
    exact ⟨ws', .group hn hk hr hc hkc, hw⟩
  | emptyCall hn hk hc hkc =>
    subst hb
    obtain ⟨ys', hn, hy⟩ := hn.reread hs
    obtain ⟨zs', hc, hz⟩ := hc.reread hy
    exact ⟨zs', .emptyCall hn hk hc hkc, hz⟩
  | call hn hk hstop _ ih =>
    subst hb
    obtain ⟨ys', hn, hy⟩ := hn.reread hs
    obtain ⟨zs', hr, hz⟩ := ih (hy.looked true) rfl
    exact ⟨zs', .call hn hk (hstop.reread hy) hr, hz⟩
  | index hn hk _ hc hkc ih =>
    subst hb
    obtain ⟨ys', hn, hy⟩ := hn.reread hs
    obtain ⟨zs', hr, hz⟩ := ih hy rfl
    obtain ⟨ws', hc, hw⟩ := hc.reread hz
    exact ⟨ws', .index hn hk hr hc hkc, hw⟩
  | noSuffix hstop =>
    subst hb
    exact ⟨_, .noSuffix (hstop.reread hs), hs.looked true⟩
  | moreSuffixes _ _ ih₁ ih₂ =>
    obtain ⟨ys', hr, hy⟩ := ih₁ hs hb
    obtain ⟨zs', hr', hz⟩ := ih₂ hy hb
    exact ⟨zs', .moreSuffixes hr hr', hz⟩
  | suffixed _ _ ih₁ ih₂ =>
    obtain ⟨ys', hr, hy⟩ := ih₁ hs hb
    obtain ⟨zs', hr', hz⟩ := ih₂ hy hb
    exact ⟨zs', .suffixed hr hr', hz⟩
  | unary hn hk _ ih =>
    subst hb
    obtain ⟨ys', hn, hy⟩ := hn.reread hs
    obtain ⟨zs', hr, hz⟩ := ih hy rfl
    exact ⟨zs', .unary hn hk hr, hz⟩
  | lastArgument _ hc hkc ih =>
    obtain ⟨ys', hr, hy⟩ := ih hs rfl
    obtain ⟨zs', hc, hz⟩ := hc.reread hy
    exact ⟨zs', .lastArgument hr hc hkc, hz⟩
  | moreArguments _ hc hkc _ ih₁ ih₂ =>
    obtain ⟨ys', hr, hy⟩ := ih₁ hs rfl
    obtain ⟨zs', hc, hz⟩ := hc.reread hy
    obtain ⟨ws', hr', hw⟩ := ih₂ hz rfl
    exact ⟨ws', .moreArguments hr hc hkc hr', hw⟩
  | noOperator hstop =>
    subst hb
    exact ⟨_, .noOperator (hstop.reread hs), hs.looked true⟩
  | operator hn hp hle _ hj _ ih₁ ih₂ =>
    subst hb
    obtain ⟨ys', hn, hy⟩ := hn.reread hs
    obtain ⟨zs', hr, hz⟩ := ih₁ hy rfl
    obtain ⟨ws', hr', hw⟩ := ih₂ hz rfl
    exact ⟨ws', .operator hn hp hle hr hj hr', hw⟩
  | expression _ _ ih₁ ih₂ =>
    obtain ⟨ys', hr, hy⟩ := ih₁ hs hb
    obtain ⟨zs', hr', hz⟩ := ih₂ hy hb
    exact ⟨zs', .expression hr hr', hz⟩

theorem ReadsType.reread {mark : TokenKind} {type : Option Identifier}
    (h : ReadsType mark type xs ys) (hs : SameContents xs xs') :
    ∃ ys', ReadsType mark type xs' ys' ∧ SameContents ys ys' := by
  cases h with
  | absent hstop => exact ⟨_, .absent (hstop.reread hs), hs.looked true⟩
  | given hn hk hn' =>
    obtain ⟨ys', hn, hy⟩ := hn.reread hs
    obtain ⟨zs', hn', hz⟩ := hn'.reread hy
    exact ⟨zs', .given hn hk hn', hz⟩

theorem ReadsParameters.reread {slot : Parser.Action.ParameterSlot} {params : List Parameter}
    {closeParen : Token} (h : ReadsParameters slot params closeParen xs ys)
    (hs : SameContents xs xs') :
    ∃ ys', ReadsParameters slot params closeParen xs' ys' ∧ SameContents ys ys' := by
  induction h generalizing xs' with
  | close hn hk hslot =>
    obtain ⟨ys', hn, hy⟩ := hn.reread hs
    exact ⟨ys', .close hn hk hslot, hy⟩
  | comma hn hk _ ih =>
    obtain ⟨ys', hn, hy⟩ := hn.reread hs
    obtain ⟨zs', hr, hz⟩ := ih hy
    exact ⟨zs', .comma hn hk hr, hz⟩
  | parameter hslot hn ht _ ih =>
    obtain ⟨ys', hn, hy⟩ := hn.reread hs
    obtain ⟨zs', ht, hz⟩ := ht.reread hy
    obtain ⟨ws', hr, hw⟩ := ih hz
    exact ⟨ws', .parameter hslot hn ht hr, hw⟩

end Linewise
