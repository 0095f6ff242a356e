import Mathlib.Data.List.Basic
import Mathlib.Data.List.TakeDrop
import Mathlib.Data.List.TakeWhile
import Linewise.Discovery

namespace Linewise.Path

def IsName (name : String) : Prop :=
  name ≠ "" ∧ '/' ∉ name.toList ∧ name ≠ "." ∧ name ≠ ".." ∧ '\x00' ∉ name.toList

instance (name : String) : Decidable (IsName name) :=
  inferInstanceAs (Decidable (name ≠ "" ∧ '/' ∉ name.toList ∧ name ≠ "." ∧ name ≠ ".." ∧ '\x00' ∉ name.toList))

def IsSourceName (name : String) : Prop := ∃ stem, stem ≠ "" ∧ name = stem ++ ".exl"

/-- The path at which some names lead from a directory. -/
def along (p : Path) (names : List String) : Path := names.foldl join p

def Before (p q : Path) : Prop := compare p.components q.components = .lt

variable {p q : Path} {name : String} {names : List String}

theorem Component.eq_of_compare {a b : Component} (h : compare a b = .eq) : a = b := by
  obtain ⟨hrank, htext⟩ := compareLex_eq_eq.1 h
  have hrank : a.rank = b.rank := Std.LawfulEqOrd.eq_of_compare hrank
  have htext : a.text = b.text := Std.LawfulEqOrd.eq_of_compare htext
  cases a <;> cases b <;> simp_all [Component.rank, Component.text]

instance : Std.LawfulEqOrd Component where
  eq_of_compare := Component.eq_of_compare

theorem Before.of_le (h : p.le q = true) (hne : p.components ≠ q.components) : p.Before q := by
  rw [le] at h
  rw [Before]
  cases hc : compare p.components q.components with
  | lt => rfl
  | eq => exact absurd (Std.LawfulEqOrd.eq_of_compare hc) hne
  | gt => simp [hc] at h

theorem Before.asymm (h : p.Before q) : ¬ q.Before p := by
  rw [Before] at *
  rw [Std.OrientedOrd.eq_swap (a := q.components), h]
  decide

theorem nodup_of_pairwise_before {ps : List Path} (h : ps.Pairwise Before) : ps.Nodup :=
  h.imp fun {f g} hfg (he : f = g) ↦ hfg.asymm (he ▸ hfg)

theorem eq_of_pairwise_before {ps qs : List Path} (hp : ps.Pairwise Before) (hq : qs.Pairwise Before)
    (hmem : ∀ f, f ∈ ps ↔ f ∈ qs) : ps = qs := by
  refine List.Perm.eq_of_pairwise (fun f g _ _ h h' ↦ absurd h' h.asymm) hp hq ?_
  exact (List.perm_ext_iff_of_nodup (nodup_of_pairwise_before hp) (nodup_of_pairwise_before hq)).2 hmem

theorem Component.ofText?_of_isName (h : IsName name) : Component.ofText? name.toList = some (.name name) := by
  obtain ⟨hne, -, hdot, hdots, -⟩ := h
  have toList_ne {s : String} (hs : name ≠ s) : name.toList ≠ s.toList := fun he ↦ hs (String.toList_injective he)
  have hempty : name.toList ≠ [] := toList_ne hne
  have hdot : name.toList ≠ ['.'] := toList_ne hdot
  have hdots : name.toList ≠ ['.', '.'] := toList_ne hdots
  rw [Component.ofText?, if_neg (not_or.2 ⟨hempty, hdot⟩), if_neg hdots, String.ofList_toList]

/-- The path of an entry has the parts of the directory's path and then its name, which stands in place of an empty
part at the end. -/
structure Joined (p q : Path) (name : String) (front last : List (List Char)) : Prop where
  of_directory : p.parts = front ++ last
  of_entry : q.parts = front ++ [name.toList]
  last : last = [] ∨ last = [[]]
  isAbsolute : q.isAbsolute = p.isAbsolute
  components : q.components = p.components ++ [.name name]

theorem Joined.of_parts {front last : List (List Char)} (h : IsName name) (hp : p.parts = front ++ last)
    (hq : q.parts = front ++ [name.toList]) (hlast : last = [] ∨ last = [[]])
    (habsolute : q.isAbsolute = p.isAbsolute)
    (hhere : q.parts.head? = some ['.'] ↔ p.parts.head? = some ['.']) : Joined p q name front last where
  of_directory := hp
  of_entry := hq
  last := hlast
  isAbsolute := habsolute
  components := by
    have hnone : last.filterMap Component.ofText? = [] := by
      obtain rfl | rfl := hlast <;> rfl
    have hsteps : q.parts.filterMap Component.ofText? = p.parts.filterMap Component.ofText? ++ [.name name] := by
      rw [hp, hq, List.filterMap_append, List.filterMap_append, hnone, List.append_nil,
        List.filterMap_cons_some (Component.ofText?_of_isName h), List.filterMap_nil]
    simp only [Path.components, habsolute, hhere, hsteps, List.append_assoc]

theorem exists_joined (p : Path) (h : IsName name) : ∃ front last, Joined p (p.join name) name front last := by
  obtain ⟨text⟩ := p
  have hname : name.toList.splitOn '/' = [name.toList] := List.splitOn_eq_singleton h.2.1
  have hparts (front : List Char) :
      (front ++ '/' :: name.toList).splitOn '/' = front.splitOn '/' ++ [name.toList] := by
    rw [List.splitOn_append_cons_self, hname]
  have hhead (front : List Char) (more : List (List Char)) :
      (front.splitOn '/' ++ more).head? = (front.splitOn '/').head? :=
    List.head?_append_of_ne_nil _ (List.splitOn_ne_nil _ _)
  by_cases hempty : text = ""
  · subst hempty
    have hjoin : join ⟨""⟩ name = ⟨name⟩ := by simp [join]
    have hdot : name.toList ≠ ['.'] := fun he ↦ h.2.2.1 (String.toList_injective he)
    refine ⟨[], [[]], .of_parts h rfl (hjoin ▸ hname) (.inr rfl) ?_ ?_⟩
    · have hslash : name.toList.head? ≠ some '/' := fun he ↦ h.2.1 (List.mem_of_head? he)
      simp [hjoin, Path.isAbsolute, hslash]
    · simp [hjoin, parts, hname, hdot]
  by_cases hslash : text.toList.getLast? = some '/'
  · obtain ⟨body, hbody⟩ := List.getLast?_eq_some_iff.1 hslash
    have hjoin : (join ⟨text⟩ name).text.toList = body ++ '/' :: name.toList := by simp [join, hbody]
    refine ⟨body.splitOn '/', [[]], .of_parts h ?_ ?_ (.inr rfl) ?_ ?_⟩
    · rw [parts, hbody, List.splitOn_append_cons_self, List.splitOn_nil]
    · rw [parts, hjoin, hparts]
    · rw [Path.isAbsolute, Path.isAbsolute, hjoin, hbody]
      cases body <;> rfl
    · rw [parts, parts, hjoin, hparts, hbody, List.splitOn_append_cons_self, hhead, hhead]
  · have hjoin : (join ⟨text⟩ name).text.toList = text.toList ++ '/' :: name.toList := by
      simp [join, hempty, hslash]
    refine ⟨text.toList.splitOn '/', [], .of_parts h ?_ ?_ (.inl rfl) ?_ ?_⟩
    · exact (List.append_nil _).symm
    · rw [parts, hjoin, hparts]
    · have hne : text.toList ≠ [] := fun he ↦ hempty (String.toList_injective he)
      rw [Path.isAbsolute, Path.isAbsolute, hjoin, List.head?_append_of_ne_nil _ hne]
    · rw [parts, parts, hjoin, hparts, hhead]

theorem components_join (h : IsName name) : (p.join name).components = p.components ++ [.name name] := by
  obtain ⟨front, last, hjoined⟩ := exists_joined p h
  exact hjoined.components

theorem not_mem_join {c : Char} (hc : c ≠ '/') (hp : c ∉ p.text.toList) (hname : c ∉ name.toList) :
    c ∉ (p.join name).text.toList := by
  rw [join]
  split <;> simp [hc, hp, hname]

/-- On the way down paths get longer. -/
theorem lt_utf8ByteSize_join (h : name ≠ "") : p.text.utf8ByteSize < (p.join name).text.utf8ByteSize := by
  have hpos : 0 < name.utf8ByteSize := Nat.pos_of_ne_zero fun he ↦ h (String.utf8ByteSize_eq_zero_iff.1 he)
  rw [join]
  split
  · rw [String.utf8ByteSize_append]
    omega
  · rw [String.utf8ByteSize_append, String.utf8ByteSize_append]
    omega

theorem components_along (h : ∀ name ∈ names, IsName name) :
    (p.along names).components = p.components ++ names.map .name := by
  induction names generalizing p with
  | nil => exact (List.append_nil _).symm
  | cons name names ih =>
    obtain ⟨hname, hnames⟩ := List.forall_mem_cons.1 h
    have hstep := ih (p := p.join name) hnames
    rw [components_join hname, List.append_assoc, List.singleton_append] at hstep
    exact hstep

theorem eq_of_components_along_eq {names' : List String} (h : ∀ name ∈ names, IsName name)
    (h' : ∀ name ∈ names', IsName name) (hc : (p.along names).components = (p.along names').components) :
    names = names' := by
  rw [components_along h, components_along h'] at hc
  exact List.map_injective_iff.2 (fun _ _ hn ↦ Component.name.inj hn) (List.append_cancel_left hc)

theorem extensionOf?_of_reverse {after before : List Char} (h : name.toList.reverse = after ++ '.' :: before)
    (hafter : '.' ∉ after) :
    extensionOf? name = if before = [] then none else some (String.ofList after.reverse) := by
  have hplain : ∀ c ∈ after, decide (c ≠ '.') = true := fun c hc ↦ decide_eq_true fun he ↦ hafter (he ▸ hc)
  rw [extensionOf?, List.span_eq_takeWhile_dropWhile, h, List.takeWhile_append_of_pos hplain,
    List.dropWhile_append_of_pos hplain]
  cases before with
  | nil => rfl
  | cons c before => simp

theorem extensionOf?_eq_some_iff {extension : String} (hdot : '.' ∉ extension.toList) :
    extensionOf? name = some extension ↔ ∃ stem, stem ≠ "" ∧ name = stem ++ "." ++ extension := by
  constructor
  · intro h
    by_cases hmem : '.' ∈ name.toList.reverse
    · obtain ⟨after, before, hreverse, hafter⟩ := List.eq_append_cons_of_mem hmem
      rw [extensionOf?_of_reverse hreverse hafter] at h
      split at h
      · cases h
      next hbefore =>
      obtain rfl := Option.some.inj h
      refine ⟨String.ofList before.reverse, ?_, String.toList_injective ?_⟩
      · simpa using hbefore
      · rw [← List.reverse_reverse (String.toList name), hreverse]
        simp
    · have hrest : name.toList.reverse.dropWhile (· ≠ '.') = [] :=
        List.dropWhile_eq_nil_iff.2 fun c hc ↦ decide_eq_true fun he ↦ hmem (he ▸ hc)
      rw [extensionOf?, List.span_eq_takeWhile_dropWhile, hrest] at h
      cases h
  · rintro ⟨stem, hne, rfl⟩
    have hreverse : (stem ++ "." ++ extension).toList.reverse =
        extension.toList.reverse ++ '.' :: stem.toList.reverse := by simp
    have hstem : stem.toList.reverse ≠ [] := by simpa using hne
    rw [extensionOf?_of_reverse hreverse (by simpa using hdot), if_neg hstem]
    simp

theorem isSource_join (h : IsName name) : (p.join name).isSource = true ↔ IsSourceName name := by
  rw [isSource, extension?, components_join h, List.getLast?_concat, beq_iff_eq,
    extensionOf?_eq_some_iff (by decide), IsSourceName]
  simp only [String.append_assoc]
  rfl

end Linewise.Path
