import Mathlib.Data.List.Forall2
import Linewise.Proofs.NamedEntries
import Linewise.Proofs.PathOrder

namespace Linewise.FileTree

/-- Entries have names as file systems allow them, and no two entries of a directory have the same name. -/
inductive WellFormed : FileTree → Prop
  | file (content : Content) : WellFormed (.file content)
  | link (target : Path) : WellFormed (.link target)
  | special (content : Content) : WellFormed (.special content)
  | unknown (reason : String) : WellFormed (.unknown reason)
  | directory {access : Access} {entries : List (String × FileTree)} (names : ∀ e ∈ entries, Path.IsName e.1)
      (distinct : (entries.map (·.1)).Nodup) (trees : ∀ e ∈ entries, WellFormed e.2) :
      WellFormed (.directory access entries)

inductive Reordered : FileTree → FileTree → Prop
  | file (content : Content) : Reordered (.file content) (.file content)
  | link (target : Path) : Reordered (.link target) (.link target)
  | special (content : Content) : Reordered (.special content) (.special content)
  | unknown (reason : String) : Reordered (.unknown reason) (.unknown reason)
  | directory {access : Access} {entries entries' : List (String × FileTree)}
      (names : (entries.map (·.1)).Perm (entries'.map (·.1)))
      (trees : ∀ e ∈ entries, ∀ e' ∈ entries', e.1 = e'.1 → Reordered e.2 e'.2) :
      Reordered (.directory access entries) (.directory access entries')

variable {t t' top top' : FileTree} {access access' : Access} {entries entries' : List (String × FileTree)}
  {p : Path} {base : List String}

namespace Reordered

theorem refl (h : t.WellFormed) : t.Reordered t := by
  induction h with
  | file content => exact .file content
  | link target => exact .link target
  | special content => exact .special content
  | unknown reason => exact .unknown reason
  | directory _ distinct _ ih =>
    refine .directory (.refl _) fun e he e' he' hname ↦ ?_
    obtain rfl := NamedEntries.eq_of_name_eq distinct he he' hname
    exact ih e he

theorem symm (h : t.Reordered t') : t'.Reordered t := by
  induction h with
  | file content => exact .file content
  | link target => exact .link target
  | special content => exact .special content
  | unknown reason => exact .unknown reason
  | directory names _ ih =>
    exact .directory names.symm fun e' he' e he hname ↦ ih e he e' he' hname.symm

theorem exists_entry (h : Reordered (.directory access entries) (.directory access' entries')) {name : String}
    {u : FileTree} (hu : (name, u) ∈ entries) : ∃ u', (name, u') ∈ entries' ∧ u.Reordered u' := by
  cases h with
  | directory names trees =>
    obtain ⟨⟨_, u'⟩, hmem, rfl⟩ := List.mem_map.1 (names.subset (List.mem_map_of_mem hu))
    exact ⟨u', hmem, trees _ hu _ hmem rfl⟩

theorem wellFormed (h : t.Reordered t') (ht : t.WellFormed) : t'.WellFormed := by
  induction h with
  | file content => exact .file content
  | link target => exact .link target
  | special content => exact .special content
  | unknown reason => exact .unknown reason
  | directory names trees ih =>
    cases ht with
    | directory legal distinct below =>
      have counterpart {e' : String × FileTree} (he' : e' ∈ _) :=
        List.mem_map.1 (names.symm.subset (List.mem_map_of_mem he'))
      refine .directory (fun e' he' ↦ ?_) (names.nodup_iff.1 distinct) fun e' he' ↦ ?_
      · obtain ⟨e, he, hname⟩ := counterpart he'
        exact hname ▸ legal e he
      · obtain ⟨e, he, hname⟩ := counterpart he'
        exact ih e he e' he' hname (below e he)

end Reordered

structure Matches (t t' : FileTree) : Prop where
  wellFormed : t.WellFormed
  reordered : t.Reordered t'

/-- Both fail in the same way, or both have results, which are related. -/
inductive Alike {α : Type} (R : α → α → Prop) : Except Fault α → Except Fault α → Prop
  | error (e : Fault) : Alike R (.error e) (.error e)
  | ok {a a' : α} : R a a' → Alike R (.ok a) (.ok a')

/-- The same names are found in both directories, and what stands there matches. -/
theorem Matches.lookup_rel (h : Matches (.directory access entries) (.directory access' entries')) (name : String) :
    Option.Rel Matches (entries.lookup name) (entries'.lookup name) := by
  obtain ⟨hwf, hreordered⟩ := h
  cases hwf with
  | directory _ _ below =>
  cases hreordered with
  | directory names trees =>
  exact NamedEntries.lookup_rel names (fun e he e' he' hname ↦ ⟨below e he, trees e he e' he' hname⟩) name

namespace Trail

structure Matches (s s' : Trail) : Prop where
  here : s.here.Matches s'.here
  above : List.Forall₂ FileTree.Matches s.above s'.above

inductive Step.Matches : Step → Step → Prop
  | on {s s' : Trail} : s.Matches s' → Step.Matches (.on s) (.on s')
  | link (target : Path) : Step.Matches (.link target) (.link target)

variable {s s' : Trail}

theorem Matches.atTop (h : t.Matches t') : Matches ⟨t, []⟩ ⟨t', []⟩ := ⟨h, .nil⟩

theorem Matches.parent (h : s.Matches s') : s.parent.Matches s'.parent := by
  obtain ⟨here, above⟩ := s
  obtain ⟨here', above'⟩ := s'
  obtain ⟨hhere, habove⟩ := h
  cases habove with
  | nil => exact ⟨hhere, .nil⟩
  | cons haround habove => exact ⟨haround, habove⟩

theorem Matches.step (h : s.Matches s') (part : List Char) : Alike Step.Matches (s.step part) (s'.step part) := by
  obtain ⟨here, above⟩ := s
  obtain ⟨here', above'⟩ := s'
  have hhere : here.Matches here' := h.here
  obtain ⟨hwf, hreordered⟩ := hhere
  cases hreordered with
  | file | link | special | unknown => exact .error .notDirectory
  | @directory access entries entries' names trees =>
    have hhere : FileTree.Matches (.directory access entries) (.directory access entries') :=
      ⟨hwf, .directory names trees⟩
    dsimp only [Trail.step]
    by_cases hempty : part = []
    · rw [if_pos hempty, if_pos hempty]
      exact .ok (.on h)
    rw [if_neg hempty, if_neg hempty]
    cases access.search with
    | some reason => exact .error (.refused reason)
    | none =>
      cases Path.Component.ofText? part with
      | none => exact .ok (.on h)
      | some component =>
        cases component with
        | root | here | up => exact .ok (.on h.parent)
        | name name =>
          dsimp only
          -- A name that is too long is an error before the directory is looked at, in both trees.
          by_cases hlong : name.utf8ByteSize > maxNameLength
          · rw [if_pos hlong, if_pos hlong]
            exact .error .badName
          rw [if_neg hlong, if_neg hlong]
          have hrel := hhere.lookup_rel name
          generalize entries.lookup name = u, entries'.lookup name = u' at hrel ⊢
          cases hrel with
          | none => exact .error .missing
          | some hmatch =>
            obtain ⟨hwf', hreordered'⟩ := hmatch
            have hbelow := List.Forall₂.cons hhere h.above
            cases hreordered' with
            | link target => exact .ok (.link target)
            | unknown reason => exact .error (.refused reason)
            | file | special => exact .ok (.on ⟨⟨hwf', .refl hwf'⟩, hbelow⟩)
            | directory names trees => exact .ok (.on ⟨⟨hwf', .directory names trees⟩, hbelow⟩)

theorem Matches.walk {jump jump' : Trail → Path → List (List Char) → Except Fault Trail}
    (hjump : ∀ s s' target parts, s.Matches s' → Alike Trail.Matches (jump s target parts) (jump' s' target parts))
    (h : s.Matches s') (parts : List (List Char)) :
    Alike Trail.Matches (walk jump s parts) (walk jump' s' parts) := by
  induction parts generalizing s s' with
  | nil => exact .ok h
  | cons part parts ih =>
    rw [Trail.walk, Trail.walk]
    have hstep := h.step part
    generalize s.step part = result, s'.step part = result' at hstep
    cases hstep with
    | error e => exact .error e
    | ok hstep =>
      cases hstep with
      | on h => exact ih h
      | link target => exact hjump s s' target parts h

theorem Matches.follow (htop : top.Matches top') (links : Nat) (h : s.Matches s') (parts : List (List Char)) :
    Alike Trail.Matches (follow top links s parts) (follow top' links s' parts) := by
  induction links generalizing s s' parts with
  | zero => exact h.walk (fun _ _ _ _ _ ↦ .error .tooManyLinks) parts
  | succ links ih =>
    refine h.walk (fun s s' target parts h ↦ ?_) parts
    split
    · exact ih (.atTop htop) _
    · exact ih h _

theorem Matches.enter? (h : s.Matches s') (names : List String) :
    Option.Rel Trail.Matches (enter? s names) (enter? s' names) := by
  induction names generalizing s s' with
  | nil =>
    rw [Trail.enter?, Trail.enter?]
    exact .some h
  | cons name names ih =>
    obtain ⟨here, above⟩ := s
    obtain ⟨here', above'⟩ := s'
    have hhere : here.Matches here' := h.here
    obtain ⟨hwf, hreordered⟩ := hhere
    cases hreordered with
    | file | link | special | unknown =>
      rw [Trail.enter?, Trail.enter?]
      · exact .none
      all_goals simp
    | @directory access entries entries' hnames trees =>
      have hhere : FileTree.Matches (.directory access entries) (.directory access entries') :=
        ⟨hwf, .directory hnames trees⟩
      rw [Trail.enter?, Trail.enter?]
      have hrel := hhere.lookup_rel name
      generalize entries.lookup name = u, entries'.lookup name = u' at hrel ⊢
      cases hrel with
      | none => exact .none
      | some hmatch => exact ih ⟨hmatch, .cons hhere h.above⟩

end Trail

/-- A path leads to the same in both trees. -/
theorem Matches.find (h : t.Matches t') (p : Path) (base : List String) :
    Alike Matches (t.find p base) (t'.find p base) := by
  unfold FileTree.find
  split
  · exact .error .badName
  split
  · exact .error .missing
  have hstart : Option.Rel Trail.Matches (t.start? p base) (t'.start? p base) := by
    unfold start?
    split
    · exact .some (.atTop h)
    · exact Trail.Matches.enter? (.atTop h) base
  generalize t.start? p base = start, t'.start? p base = start' at hstart
  cases hstart with
  | none => exact .error .missing
  | some hstart =>
    have hfollow := hstart.follow h maxLinks p.parts
    dsimp only
    generalize Trail.follow t _ _ _ = result, Trail.follow t' _ _ _ = result' at hfollow
    cases hfollow with
    | error e => exact .error e
    | ok hs => exact .ok hs.here

/-- A directory that lists its entries in one of the trees does so in the other. -/
theorem Matches.exists_listing (h : t.Matches t') (hl : t.listing p base = .ok entries) :
    ∃ entries', t'.listing p base = .ok entries' := by
  have hfind := h.find p base
  rw [listing] at hl
  rw [listing]
  generalize t.find p base = found, t'.find p base = found' at hfind hl
  cases hfind with
  | error e => cases hl
  | ok hmatch =>
    obtain ⟨_, hreordered⟩ := hmatch
    cases hreordered with
    | file | link | special | unknown => cases hl
    | @directory access entries entries' =>
      cases hlist : access.list with
      | some reason => simp [hlist] at hl
      | none => exact ⟨entries', by simp only [hlist]⟩

end Linewise.FileTree
