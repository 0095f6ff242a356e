import Linewise.Proofs.TomlDocuments
import Linewise.Settings.Toml

namespace Linewise.Toml

variable {ε σ α : Type} {v : Value} {entries : Entries} {key : String}

def Value.IsRecord (v : Value) : Prop := v.entries?.isSome = true ∨ v.items?.isSome = true

/-- All keys of a value are names of fields, unless the record takes others. -/
def Schema.Knows (S : Schema ε σ) (v : Value) : Prop :=
  S.closed = true → ∀ entries, v.entries? = some entries → entries.map (·.1) ⊆ S.fields.map (·.name)

/-- What a library for documents promises. -/
structure Decoder.Lawful (D : Decoder ε) : Prop where
  /-- The keys of a table are distinct, and integers have 64 bits. -/
  wellFormed_of_document : ∀ text entries, D.document text = .ok entries → entries.WellFormed
  boolean_eq_ok_iff : ∀ v b, D.boolean v = .ok b ↔ v = .boolean b
  count_eq_ok_iff : ∀ v n, v.WellFormed → (D.count v = .ok n ↔ v = .integer n ∧ (n : Int) < 2 ^ 64)
  /-- A record that is closed is not read from a table with other keys. -/
  knows_of_record : ∀ {σ : Type} (S : Schema ε σ) v s, D.record S v = .ok s → S.Knows v
  /-- A field that is given is read from what is given for it. -/
  read_of_record : ∀ {σ : Type} (S : Schema ε σ) v s, v.WellFormed → D.record S v = .ok s →
    ∀ i f, S.fields[i]? = some f → ∀ w, v.offer i f.name = some w → f.read w = .ok (f.get s)
  /-- A field that is not given is taken from the default. -/
  get_of_record : ∀ {σ : Type} (S : Schema ε σ) v s, v.WellFormed → D.record S v = .ok s →
    ∀ i f, S.fields[i]? = some f → v.offer i f.name = none → f.get s = f.get S.default
  /-- Nothing else stands in the way of a record. -/
  exists_record : ∀ {σ : Type} (S : Schema ε σ) v, v.WellFormed → v.IsRecord → S.Knows v →
    (∀ i f, S.fields[i]? = some f → ∀ w, v.offer i f.name = some w → ∃ a, f.read w = .ok a) →
    ∃ s, D.record S v = .ok s

theorem Value.offer_of_entries (h : v.entries? = some entries) {i : Nat} : v.offer i key = entries.get? key := by
  rw [offer, h]

theorem Value.offer_of_items {items : List Value} (h : v.entries? = none) (hitems : v.items? = some items)
    {i : Nat} : v.offer i key = items[i]? := by
  rw [offer, h, hitems]

theorem Value.WellFormed.nodup_keys (hv : v.WellFormed) (h : v.entries? = some entries) :
    (entries.map (·.1)).Nodup := by
  cases hv with
  | table distinct _ =>
    obtain rfl := Option.some.inj h
    exact distinct
  | datetime text =>
    obtain rfl := Option.some.inj h
    exact List.nodup_singleton _
  | _ => cases h

def readOr (read : Value → Except ε α) (default : α) : Option Value → Except ε α
  | none => .ok default
  | some v => read v

theorem boolOf_eq_ok_iff {b : Bool} : boolOf v = .ok b ↔ v = .boolean b := by
  cases v <;> simp [boolOf]

theorem countOf_eq_ok_iff {n : Nat} : countOf v = .ok n ↔ v = .integer n := by
  cases v with
  | integer m =>
    rw [countOf, Value.integer.injEq]
    split
    · simp
      omega
    · rw [Except.ok.injEq]
      omega
  | _ => simp [countOf]

section

variable {S : Schema SettingsError σ} {fields : List (Field SettingsError σ)} {f g : Field SettingsError σ} {s s' : σ}

theorem Field.set_eq_ok_iff : f.set s v = .ok s' ↔ ∃ a, f.read v = .ok a ∧ f.put s a = s' := by
  rw [Field.set]
  cases hr : f.read v with
  | error e => exact ⟨nofun, nofun⟩
  | ok a =>
    constructor
    · rintro ⟨⟩
      exact ⟨a, rfl, rfl⟩
    · rintro ⟨_, ⟨⟩, rfl⟩
      rfl

theorem Field.read_of_set (h : f.set s v = .ok s') : f.read v = .ok (f.get s') := by
  obtain ⟨a, ha, rfl⟩ := set_eq_ok_iff.1 h
  rw [f.get_put, ha]

theorem Field.get_of_set (hf : f ∈ S.fields) (hg : g ∈ S.fields) (hne : g.name ≠ f.name)
    (h : g.set s v = .ok s') : f.get s' = f.get s := by
  obtain ⟨a, -, rfl⟩ := set_eq_ok_iff.1 h
  exact S.get_put_of_ne g hg f hf hne s a

namespace Schema

theorem find?_name (hf : f ∈ S.fields) : S.fields.find? (·.name = f.name) = some f := by
  obtain ⟨g, hg⟩ : ∃ g, S.fields.find? (·.name = f.name) = some g := by
    refine Option.isSome_iff_exists.1 (List.find?_isSome.2 ⟨f, hf, ?_⟩)
    simp
  have hname : g.name = f.name := by simpa using List.find?_some hg
  rw [hg, List.inj_on_of_nodup_map S.distinct (List.mem_of_find?_eq_some hg) hf hname]

theorem setNamed_cons_of_mem (hf : f ∈ S.fields) (v : Value) (more : Entries) :
    S.setNamed s ((f.name, v) :: more) = .ok s' ↔ ∃ s'', f.set s v = .ok s'' ∧ S.setNamed s'' more = .ok s' := by
  rw [setNamed, find?_name hf]
  cases hset : f.set s v <;> simp [hset, bind, Except.bind]

theorem setNamed_cons_of_not_mem (hkey : key ∉ S.fields.map (·.name)) (v : Value) (more : Entries) :
    S.setNamed s ((key, v) :: more) = .ok s' ↔ S.closed = false ∧ S.setNamed s more = .ok s' := by
  have hnone : S.fields.find? (·.name = key) = none := by
    refine List.find?_eq_none.2 fun f hf hname ↦ hkey (List.mem_map.2 ⟨f, hf, ?_⟩)
    simpa using hname
  rw [setNamed, hnone]
  cases S.closed <;> simp

theorem subset_of_setNamed (hclosed : S.closed = true) (h : S.setNamed s entries = .ok s') :
    entries.map (·.1) ⊆ S.fields.map (·.name) := by
  induction entries generalizing s with
  | nil => exact List.nil_subset _
  | cons e more ih =>
    obtain ⟨key, v⟩ := e
    by_cases hkey : key ∈ S.fields.map (·.name)
    · obtain ⟨f, hf, rfl⟩ := List.mem_map.1 hkey
      obtain ⟨s'', -, hmore⟩ := (setNamed_cons_of_mem hf v more).1 h
      exact List.cons_subset.2 ⟨hkey, ih hmore⟩
    · obtain ⟨hopen, -⟩ := (setNamed_cons_of_not_mem hkey v more).1 h
      rw [hclosed] at hopen
      cases hopen

/-- What a field holds in the end is decided by its own key: another key leaves it as it is, and its key comes no
second time. -/
theorem readOr_of_setNamed (hdistinct : (entries.map (·.1)).Nodup) (h : S.setNamed s entries = .ok s')
    (hf : f ∈ S.fields) : readOr f.read (f.get s) (entries.get? f.name) = .ok (f.get s') := by
  induction entries generalizing s with
  | nil =>
    cases h
    rfl
  | cons e more ih =>
    obtain ⟨key, v⟩ := e
    obtain ⟨hkey, hmore⟩ := List.nodup_cons.1 hdistinct
    by_cases hname : key = f.name
    · subst hname
      obtain ⟨s'', hset, h⟩ := (setNamed_cons_of_mem hf v more).1 h
      have hrest : readOr f.read (f.get s'') (Entries.get? more f.name) = .ok (f.get s'') := by
        rw [Entries.get?, NamedEntries.lookup_eq_none_iff.2 hkey]
        rfl
      rw [ih hmore h, Except.ok.injEq] at hrest
      rw [Entries.get?, List.lookup_cons_self, hrest]
      exact Field.read_of_set hset
    · have hskip : Entries.get? ((key, v) :: more) f.name = Entries.get? more f.name := by
        have hbeq : (f.name == key) = false := beq_false_of_ne (Ne.symm hname)
        rw [Entries.get?, List.lookup_cons, hbeq]
        rfl
      rw [hskip]
      by_cases hmem : key ∈ S.fields.map (·.name)
      · obtain ⟨g, hg, rfl⟩ := List.mem_map.1 hmem
        obtain ⟨s'', hset, h⟩ := (setNamed_cons_of_mem hg v more).1 h
        rw [← Field.get_of_set hf hg hname hset]
        exact ih hmore h
      · exact ih hmore ((setNamed_cons_of_not_mem hmem v more).1 h).2

theorem exists_setNamed (hknown : S.closed = true → entries.map (·.1) ⊆ S.fields.map (·.name))
    (hread : ∀ e ∈ entries, ∀ f ∈ S.fields, f.name = e.1 → ∃ a, f.read e.2 = .ok a) (s : σ) :
    ∃ s', S.setNamed s entries = .ok s' := by
  induction entries generalizing s with
  | nil => exact ⟨s, rfl⟩
  | cons e more ih =>
    obtain ⟨key, v⟩ := e
    obtain ⟨hfirst, hrest⟩ := List.forall_mem_cons.1 hread
    have ih := ih (fun hclosed ↦ (List.cons_subset.1 (hknown hclosed)).2) hrest
    by_cases hmem : key ∈ S.fields.map (·.name)
    · obtain ⟨f, hf, rfl⟩ := List.mem_map.1 hmem
      obtain ⟨a, ha⟩ := hfirst f hf rfl
      obtain ⟨s', hs'⟩ := ih (f.put s a)
      exact ⟨s', (setNamed_cons_of_mem hf v more).2 ⟨_, Field.set_eq_ok_iff.2 ⟨a, ha, rfl⟩, hs'⟩⟩
    · obtain ⟨s', hs'⟩ := ih s
      refine ⟨s', (setNamed_cons_of_not_mem hmem v more).2 ⟨?_, hs'⟩⟩
      exact Bool.eq_false_iff.2 fun hclosed ↦ hmem (List.cons_subset.1 (hknown hclosed)).1

theorem setInOrder_cons_eq_ok_iff {items : List Value} : setInOrder (f :: fields) s (v :: items) = .ok s' ↔
    ∃ s'', f.set s v = .ok s'' ∧ setInOrder fields s'' items = .ok s' := by
  rw [setInOrder]
  cases f.set s v <;> simp [bind, Except.bind]

theorem get_of_setInOrder {items : List Value} (hfields : fields ⊆ S.fields) (hf : f ∈ S.fields)
    (hnew : f.name ∉ fields.map (·.name)) (h : setInOrder fields s items = .ok s') : f.get s' = f.get s := by
  induction fields generalizing s items with
  | nil =>
    cases h
    rfl
  | cons g fields ih =>
    cases items with
    | nil =>
      cases h
      rfl
    | cons v items =>
      obtain ⟨hg, hfields⟩ := List.cons_subset.1 hfields
      obtain ⟨hne, hnew⟩ := not_or.1 (mt List.mem_cons.2 hnew)
      obtain ⟨s'', hset, h⟩ := setInOrder_cons_eq_ok_iff.1 h
      rw [ih hfields hnew h, Field.get_of_set hf hg (Ne.symm hne) hset]

theorem readOr_of_setInOrder {items : List Value} (hfields : fields ⊆ S.fields)
    (hdistinct : (fields.map (·.name)).Nodup) (h : setInOrder fields s items = .ok s') {i : Nat}
    (hf : fields[i]? = some f) : readOr f.read (f.get s) items[i]? = .ok (f.get s') := by
  induction fields generalizing s items i with
  | nil => cases hf
  | cons g fields ih =>
    cases items with
    | nil =>
      cases h
      rfl
    | cons v items =>
      obtain ⟨hg, hfields⟩ := List.cons_subset.1 hfields
      obtain ⟨hnew, hdistinct⟩ := List.nodup_cons.1 hdistinct
      obtain ⟨s'', hset, h⟩ := setInOrder_cons_eq_ok_iff.1 h
      cases i with
      | zero =>
        obtain rfl := Option.some.inj hf
        rw [get_of_setInOrder hfields hg hnew h]
        exact Field.read_of_set hset
      | succ i =>
        have hmem : f ∈ fields := List.mem_of_getElem? hf
        have hne : g.name ≠ f.name := fun he ↦ hnew (List.mem_map.2 ⟨f, hmem, he.symm⟩)
        rw [← Field.get_of_set (hfields hmem) hg hne hset]
        exact ih hfields hdistinct h hf

theorem exists_setInOrder {items : List Value} (hread : ∀ (i : Nat) (f : Field SettingsError σ), fields[i]? = some f →
      ∀ w, items[i]? = some w → ∃ a, f.read w = .ok a) (s : σ) : ∃ s', setInOrder fields s items = .ok s' := by
  induction fields generalizing s items with
  | nil => exact ⟨s, rfl⟩
  | cons f fields ih =>
    cases items with
    | nil => exact ⟨s, rfl⟩
    | cons v items =>
      obtain ⟨a, ha⟩ := hread 0 f rfl v rfl
      obtain ⟨s', hs'⟩ := ih (fun i ↦ hread (i + 1)) (f.put s a)
      exact ⟨s', setInOrder_cons_eq_ok_iff.2 ⟨_, Field.set_eq_ok_iff.2 ⟨a, ha, rfl⟩, hs'⟩⟩

/-- Each field of a record that is read is what its part of the value is read as, or the default. -/
theorem readOr_of_read (hv : v.WellFormed) (h : S.read v = .ok s) {i : Nat} (hf : S.fields[i]? = some f) :
    readOr f.read (f.get S.default) (v.offer i f.name) = .ok (f.get s) := by
  cases hentries : v.entries? with
  | some entries =>
    rw [read, hentries] at h
    rw [Value.offer_of_entries hentries]
    exact readOr_of_setNamed (hv.nodup_keys hentries) h (List.mem_of_getElem? hf)
  | none =>
    rw [read, hentries] at h
    cases hitems : v.items? with
    | some items =>
      rw [hitems] at h
      rw [Value.offer_of_items hentries hitems]
      exact readOr_of_setInOrder (List.Subset.refl _) S.distinct h hf
    | none =>
      rw [hitems] at h
      cases h

end Schema

end

/-- The library that the program comes with keeps the promises. -/
theorem decoder_lawful : decoder.Lawful where
  wellFormed_of_document text entries h := by
    have hparse : parse text = some entries := by
      simp only [decoder] at h
      split at h <;> cases h
      assumption
    exact parse_wellFormed hparse
  boolean_eq_ok_iff _ _ := boolOf_eq_ok_iff
  count_eq_ok_iff v n hv := by
    refine countOf_eq_ok_iff.trans (Iff.symm (and_iff_left_of_imp ?_))
    rintro rfl
    cases hv with
    | integer bounds => omega
  knows_of_record S v s h hclosed entries hentries := by
    have h : S.read v = .ok s := h
    rw [Schema.read, hentries] at h
    exact Schema.subset_of_setNamed hclosed h
  read_of_record S v s hv h i f hf w hw := by
    have hread := Schema.readOr_of_read hv h hf
    rwa [hw] at hread
  get_of_record S v s hv h i f hf hnone := by
    have hread := Schema.readOr_of_read hv h hf
    rw [hnone] at hread
    exact (Except.ok.inj hread).symm
  exists_record S v hv hrecord hknows hread := by
    change ∃ s, S.read v = .ok s
    cases hentries : v.entries? with
    | some entries =>
      rw [Schema.read, hentries]
      refine Schema.exists_setNamed (fun hclosed ↦ hknows hclosed entries hentries) (fun e he f hf hname ↦ ?_) _
      obtain ⟨i, hi⟩ := List.getElem?_of_mem hf
      refine hread i f hi e.2 ?_
      rw [Value.offer_of_entries hentries, hname]
      exact (NamedEntries.lookup_eq_some_iff (hv.nodup_keys hentries)).2 he
    | none =>
      rw [Schema.read, hentries]
      cases hitems : v.items? with
      | some items =>
        refine Schema.exists_setInOrder (fun i f hf w hw ↦ hread i f hf w ?_) _
        rwa [Value.offer_of_items hentries hitems]
      | none => simp [Value.IsRecord, hentries, hitems] at hrecord

end Linewise.Toml
