import Linewise.Proofs.DirectoryOrder

namespace Linewise.FileTree

variable {t u v top : FileTree} {access : Access} {entries : List (String × FileTree)} {p : Path} {name : String}
  {base : List String}

namespace Trail

/-- A path fails in the same way however it goes on, or what it goes on with is followed from where it led. -/
def GoesOn (top : FileTree) (run : List (List Char) → Except Fault Trail) : Prop :=
  (∃ e, ∀ more, run more = .error e) ∨ ∃ links s, ∀ more, run more = follow top links s more

theorem walk_goesOn {jump : Trail → Path → List (List Char) → Except Fault Trail} (links : Nat)
    (hself : ∀ s parts, walk jump s parts = follow top links s parts)
    (hjump : ∀ s target parts, GoesOn top fun more ↦ jump s target (parts ++ more)) (s : Trail)
    (parts : List (List Char)) : GoesOn top fun more ↦ walk jump s (parts ++ more) := by
  induction parts generalizing s with
  | nil => exact .inr ⟨links, s, hself s⟩
  | cons part parts ih =>
    simp only [List.cons_append, walk]
    cases s.step part with
    | error e => exact .inl ⟨e, fun _ ↦ rfl⟩
    | ok step =>
      cases step with
      | on s' => exact ih s'
      | link target => exact hjump s target parts

theorem follow_goesOn (top : FileTree) (links : Nat) (s : Trail) (parts : List (List Char)) :
    GoesOn top fun more ↦ follow top links s (parts ++ more) := by
  induction links generalizing s parts with
  | zero => exact walk_goesOn 0 (fun _ _ ↦ rfl) (fun _ _ _ ↦ .inl ⟨.tooManyLinks, fun _ ↦ rfl⟩) s parts
  | succ links ih =>
    refine walk_goesOn (links + 1) (fun _ _ ↦ rfl) (fun s target parts ↦ ?_) s parts
    simp only [← List.append_assoc]
    exact ih _ _

variable {links : Nat} {s s' : Trail} {front last more : List (List Char)} {part : List Char}

@[simp]
theorem follow_nil : follow top links s [] = .ok s := by
  cases links <;> rfl

theorem follow_of_step_on (h : s.step part = .ok (.on s')) : follow top links s [part] = .ok s' := by
  cases links <;> rw [follow, walk, h] <;> rfl

theorem follow_of_step_error {e : Fault} (h : s.step part = .error e) :
    follow top links s (part :: more) = .error e := by
  cases links <;> rw [follow, walk, h]

theorem step_nil (s : Trail) : s.step [] = .ok (.on s) ∨ s.step [] = .error .notDirectory := by
  unfold step
  split
  · exact .inl rfl
  · exact .inr rfl

/-- An empty part at the end of a path leads nowhere else. -/
theorem exists_follow_of_last (hlast : last = [] ∨ last = [[]]) (h : follow top links s (front ++ last) = .ok s') :
    ∃ links', ∀ more, follow top links s (front ++ more) = follow top links' s' more := by
  obtain ⟨e, hrun⟩ | ⟨links', s'', hrun⟩ := follow_goesOn top links s front
  · cases (hrun last).symm.trans h
  have h := (hrun last).symm.trans h
  have hsame : s'' = s' := by
    obtain rfl | rfl := hlast
    · rw [follow_nil] at h
      exact Except.ok.inj h
    · obtain hstep | hstep := step_nil s''
      · rw [follow_of_step_on hstep] at h
        exact Except.ok.inj h
      · rw [follow_of_step_error hstep] at h
        cases h
  exact ⟨links', hsame ▸ hrun⟩

/-- A name leads to the entry, unless the directory may not be searched or the name is too long. -/
theorem step_name (hname : Path.IsName name) (hhere : s.here = .directory access entries)
    (hentry : entries.lookup name = some v) (hlink : ∀ target, v ≠ .link target)
    (hunknown : ∀ reason, v ≠ .unknown reason) :
    s.step name.toList = match access.search with
      | some reason => .error (.refused reason)
      | none => if name.utf8ByteSize > maxNameLength then .error .badName
        else .ok (.on ⟨v, s.here :: s.above⟩) := by
  have hne : name.toList ≠ [] := fun he ↦ hname.1 (String.toList_injective he)
  rw [step, hhere]
  dsimp only
  rw [if_neg hne, Path.Component.ofText?_of_isName hname]
  dsimp only
  rw [hentry]
  cases v with
  | link target => exact absurd rfl (hlink target)
  | unknown reason => exact absurd rfl (hunknown reason)
  | file | special | directory => rfl

end Trail

theorem find_eq_ok_iff : t.find p base = .ok u ↔
    '\x00' ∉ p.text.toList ∧ p.text.utf8ByteSize < maxPathLength ∧ p.text ≠ "" ∧
      ∃ start s, t.start? p base = some start ∧ start.follow t maxLinks p.parts = .ok s ∧ s.here = u := by
  rw [find]
  by_cases hbad : '\x00' ∈ p.text.toList ∨ maxPathLength ≤ p.text.utf8ByteSize
  · rw [if_pos hbad]
    exact iff_of_false nofun fun h ↦ hbad.elim h.1 (Nat.not_le.2 h.2.1)
  rw [if_neg hbad]
  obtain ⟨hnul, hlong⟩ := not_or.1 hbad
  by_cases hempty : p.text = ""
  · simp [hempty]
  rw [if_neg hempty]
  cases t.start? p base with
  | none => simp
  | some start =>
    cases hs : start.follow t maxLinks p.parts with
    | error e => simp [hs, Except.map]
    | ok s => simp [hs, hnul, hempty, Nat.lt_of_not_le hlong, Except.map]

/-- The path of an entry, if it leads anywhere, leads to that entry. -/
theorem find_join (h : t.find p base = .ok (.directory access entries)) (hname : Path.IsName name)
    (hentry : entries.lookup name = some v) (hlink : ∀ target, v ≠ .link target)
    (hunknown : ∀ reason, v ≠ .unknown reason) (hu : t.find (p.join name) base = .ok u) : u = v := by
  obtain ⟨front, last, hjoined⟩ := p.exists_joined hname
  obtain ⟨-, -, -, start, s, hstart, hs, hhere⟩ := find_eq_ok_iff.1 h
  obtain ⟨-, -, -, start', s', hstart', hs', rfl⟩ := find_eq_ok_iff.1 hu
  have hsame : t.start? (p.join name) base = t.start? p base := by rw [start?, start?, hjoined.isAbsolute]
  obtain rfl : start = start' := Option.some.inj (hstart.symm.trans (hsame.symm.trans hstart'))
  rw [hjoined.of_directory] at hs
  rw [hjoined.of_entry] at hs'
  obtain ⟨links, hrun⟩ := Trail.exists_follow_of_last hjoined.last hs
  rw [hrun] at hs'
  have hstep := Trail.step_name hname hhere hentry hlink hunknown
  split at hstep
  · rw [Trail.follow_of_step_error hstep] at hs'
    cases hs'
  split at hstep
  · rw [Trail.follow_of_step_error hstep] at hs'
    cases hs'
  · rw [Trail.follow_of_step_on hstep] at hs'
    obtain rfl := Except.ok.inj hs'
    rfl

/-- The path of an entry leads to it, if the directory may be searched and neither the name nor the path is too
long. -/
theorem find_join_of_open (h : t.find p base = .ok (.directory access entries)) (hname : Path.IsName name)
    (hentry : entries.lookup name = some v) (hlink : ∀ target, v ≠ .link target)
    (hunknown : ∀ reason, v ≠ .unknown reason) (hsearch : access.search = none)
    (hlong : name.utf8ByteSize ≤ maxNameLength) (hpath : (p.join name).text.utf8ByteSize < maxPathLength) :
    t.find (p.join name) base = .ok v := by
  obtain ⟨front, last, hjoined⟩ := p.exists_joined hname
  obtain ⟨hnul, -, -, start, s, hstart, hs, hhere⟩ := find_eq_ok_iff.1 h
  rw [hjoined.of_directory] at hs
  obtain ⟨links, hrun⟩ := Trail.exists_follow_of_last hjoined.last hs
  have hstep := Trail.step_name hname hhere hentry hlink hunknown
  rw [hsearch] at hstep
  dsimp only at hstep
  rw [if_neg (Nat.not_lt.2 hlong)] at hstep
  refine find_eq_ok_iff.2 ⟨Path.not_mem_join (by decide) hnul hname.2.2.2.2, hpath, ?_, start,
    ⟨v, s.here :: s.above⟩, ?_, ?_, rfl⟩
  · intro he
    have hlonger := Path.lt_utf8ByteSize_join (p := p) hname.1
    rw [he] at hlonger
    exact Nat.not_lt_zero _ hlonger
  · rw [← hstart, start?, start?, hjoined.isAbsolute]
  · rw [hjoined.of_entry, hrun, Trail.follow_of_step_on hstep]

theorem listing_of_find (h : t.find p base = .ok (.directory access entries))
    (hl : ∃ listed, t.listing p base = .ok listed) : t.listing p base = .ok entries := by
  obtain ⟨listed, hl⟩ := hl
  cases hlist : access.list with
  | some reason => simp [listing, h, hlist] at hl
  | none => simp [listing, h, hlist]

theorem exists_find_of_listing (h : t.listing p base = .ok entries) :
    ∃ access, t.find p base = .ok (.directory access entries) := by
  unfold listing at h
  split at h
  · cases h
  · next access entries' hfind =>
    split at h
    · cases h
    · cases h
      exact ⟨access, hfind⟩
  · cases h

end Linewise.FileTree
