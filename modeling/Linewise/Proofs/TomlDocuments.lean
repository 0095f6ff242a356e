import Mathlib.Algebra.Group.Int.Defs
import Linewise.Proofs.NamedEntries
import Linewise.Toml.Document

namespace Linewise.Toml

/-- Tables have distinct keys, and integers have 64 bits with a sign, in all of a value. -/
inductive Value.WellFormed : Value → Prop
  | string (s : String) : WellFormed (.string s)
  | integer {n : Int} (bounds : -2 ^ 63 ≤ n ∧ n < 2 ^ 63) : WellFormed (.integer n)
  | float (x : Decimal.Binary64) : WellFormed (.float x)
  | boolean (b : Bool) : WellFormed (.boolean b)
  | datetime (text : String) : WellFormed (.datetime text)
  | array {ofTables : Bool} {items : List Value} (values : ∀ v ∈ items, WellFormed v) :
      WellFormed (.array ofTables items)
  | table {origin : Origin} {entries : List (String × Value)} (distinct : (entries.map (·.1)).Nodup)
      (values : ∀ e ∈ entries, WellFormed e.2) : WellFormed (.table origin entries)

structure Entries.WellFormed (entries : Entries) : Prop where
  distinct : (entries.map (·.1)).Nodup
  values : ∀ e ∈ entries, e.2.WellFormed

def Reader.Gives {α : Type} (read : Reader α) (P : α → Prop) : Prop :=
  ∀ text a rest, read text = some (a, rest) → P a

variable {entries : Entries} {key : String} {v : Value} {origin : Origin} {t t' : Table} {path : List String}

theorem Value.wellFormed_table_iff : (Value.table origin entries).WellFormed ↔ entries.WellFormed := by
  constructor
  · rintro ⟨⟩
    exact ⟨‹_›, ‹_›⟩
  · rintro ⟨distinct, values⟩
    exact .table distinct values

namespace Entries.WellFormed

theorem nil : Entries.WellFormed [] := ⟨.nil, by simp⟩

theorem get? (h : entries.WellFormed) (hv : entries.get? key = some v) : v.WellFormed :=
  h.values _ (NamedEntries.mem_of_lookup hv)

theorem add (h : entries.WellFormed) (hkey : entries.get? key = none) (hv : v.WellFormed) :
    (entries.add key v).WellFormed where
  distinct := by
    rw [Entries.add, List.map_append, List.map_singleton, ← List.concat_eq_append, List.nodup_concat]
    exact ⟨NamedEntries.lookup_eq_none_iff.1 hkey, h.distinct⟩
  values := List.forall_mem_append.2 ⟨h.values, List.forall_mem_singleton.2 hv⟩

theorem replace (h : entries.WellFormed) (hv : v.WellFormed) : (entries.replace key v).WellFormed where
  distinct := by
    have hkeys : (entries.replace key v).map (·.1) = entries.map (·.1) := by
      rw [Entries.replace, List.map_map]
      refine List.map_congr_left fun e _ ↦ ?_
      by_cases he : e.1 = key <;> simp [he]
    rw [hkeys]
    exact h.distinct
  values := by
    rw [Entries.replace, List.forall_mem_map]
    intro e he
    split
    · exact hv
    · exact h.values e he

theorem erase (h : entries.WellFormed) : (entries.erase key).WellFormed where
  distinct := h.distinct.sublist (List.filter_sublist.map _)
  values e he := h.values e (List.mem_of_mem_filter he)

end Entries.WellFormed

theorem integerOf?_wellFormed {negative : Bool} {n : Nat} (h : integerOf? negative n = some v) : v.WellFormed := by
  have hbound : integerBound = 2 ^ 63 := rfl
  unfold integerOf? at h
  split at h <;> split at h <;> simp at h
  all_goals
    subst h
    refine .integer ?_
    omega

theorem based_gives (base : Nat) : (based base).Gives Value.WellFormed := by
  intro text v rest h
  simp only [based, Option.bind_eq_bind, Option.bind_eq_some_iff] at h
  obtain ⟨_, _, v', hv', ⟨⟩⟩ := h
  exact integerOf?_wellFormed hv'

theorem decimal_gives : decimal.Gives Value.WellFormed := by
  intro text v rest h
  simp only [decimal, Option.bind_eq_bind, Option.bind_eq_some_iff] at h
  obtain ⟨_, _, _, _, _, _, h⟩ := h
  split at h
  · obtain ⟨v', hv', ⟨⟩⟩ := Option.bind_eq_some_iff.1 h
    exact integerOf?_wellFormed hv'
  · obtain ⟨v', hv', ⟨⟩⟩ := Option.bind_eq_some_iff.1 h
    unfold floatOf? at hv'
    split at hv' <;> cases hv'
    exact .float _

theorem datetime_gives : datetime.Gives Value.WellFormed := by
  intro text v rest h
  simp only [datetime, Option.bind_eq_bind] at h
  split at h
  · obtain ⟨_, _, ⟨⟩⟩ := Option.bind_eq_some_iff.1 h
    exact .datetime _
  split at h
  · split at h
    · simp only [Option.bind_eq_some_iff] at h
      obtain ⟨_, _, _, _, _, _, ⟨⟩⟩ := h
      exact .datetime _
    · cases h
      exact .datetime _
  · cases h
    exact .datetime _

theorem special?_wellFormed {text rest : List Char} (h : special? text = some (v, rest)) : v.WellFormed := by
  simp only [special?] at h
  split at h
  · cases h
    exact .float _
  split at h <;> cases h
  exact .float _

theorem number_gives : number.Gives Value.WellFormed := by
  intro text v rest h
  unfold number at h
  split at h
  · exact datetime_gives _ _ _ h
  split at h
  · exact based_gives 16 _ _ _ h
  · exact based_gives 8 _ _ _ h
  · exact based_gives 2 _ _ _ h
  split at h
  · next hr =>
    cases h
    exact special?_wellFormed hr
  · exact decimal_gives _ _ _ h

/-- What changes the table at a path keeps the table around it well formed. -/
theorem within_wellFormed {α : Type} {dotted : Bool} {f : Table → Option (α × Table)} {P : α → Prop}
    (hf : ∀ u a u', u.entries.WellFormed → f u = some (a, u') → P a ∧ u'.entries.WellFormed) {a : α}
    (ht : t.entries.WellFormed) (h : within dotted f path t = some (a, t')) : P a ∧ t'.entries.WellFormed := by
  induction path generalizing t t' a with
  | nil => exact hf t a t' ht h
  | cons key path ih =>
    rw [within] at h
    split at h
    · next hkey =>
      obtain ⟨⟨a, origin, inner⟩, hinner, ⟨⟩⟩ := Option.bind_eq_some_iff.1 h
      obtain ⟨ha, hinner⟩ := ih .nil hinner
      exact ⟨ha, ht.add hkey (Value.wellFormed_table_iff.2 hinner)⟩
    · next hkey =>
      dsimp only at h
      split at h
      · cases h
      obtain ⟨⟨a, origin, inner⟩, hinner, ⟨⟩⟩ := Option.bind_eq_some_iff.1 h
      obtain ⟨ha, hinner⟩ := ih (Value.wellFormed_table_iff.1 (ht.get? hkey)) hinner
      exact ⟨ha, ht.replace (Value.wellFormed_table_iff.2 hinner)⟩
    · next items hkey =>
      split at h
      · next hlast =>
        cases ht.get? hkey with
        | array values =>
        obtain ⟨⟨a, origin, inner⟩, hinner, ⟨⟩⟩ := Option.bind_eq_some_iff.1 h
        have hentries := Value.wellFormed_table_iff.1 (values _ (List.mem_of_getLast? hlast))
        obtain ⟨ha, hinner⟩ := ih hentries hinner
        refine ⟨ha, ht.replace (.array (List.forall_mem_append.2 ⟨?_, ?_⟩))⟩
        · exact fun v hv ↦ values v (List.dropLast_subset _ hv)
        · exact List.forall_mem_singleton.2 (Value.wellFormed_table_iff.2 hinner)
      · cases h
    · cases h

theorem insertAt_wellFormed (ht : t.entries.WellFormed) (hv : v.WellFormed) (h : t.insertAt path v = some t') :
    t'.entries.WellFormed := by
  obtain ⟨key, -, h⟩ := Option.bind_eq_some_iff.1 h
  obtain ⟨⟨_, t''⟩, hwithin, rfl⟩ := Option.map_eq_some_iff.1 h
  refine (within_wellFormed (P := fun _ ↦ True) ?_ ht hwithin).2
  intro u _ u' hu hu'
  split at hu'
  · cases hu'
  next hfree =>
  cases hu'
  have hkey : u.entries.get? key = none := by simp at hfree; exact hfree.2
  exact ⟨trivial, hu.add hkey hv⟩

section

variable {item : Reader Value} (hitem : item.Gives Value.WellFormed)

include hitem

theorem arrayItems_gives (fuel : Nat) : (arrayItems item fuel).Gives fun items ↦ ∀ v ∈ items, v.WellFormed := by
  induction fuel with
  | zero => rintro _ _ _ ⟨⟩
  | succ fuel ih =>
    intro text items rest h
    rw [arrayItems] at h
    split at h
    · cases h
      exact List.forall_mem_nil _
    obtain ⟨⟨v, rest'⟩, hv, h⟩ := Option.bind_eq_some_iff.1 h
    have hv := hitem _ _ _ hv
    dsimp only at h
    split at h
    · obtain ⟨⟨more, rest''⟩, hmore, ⟨⟩⟩ := Option.bind_eq_some_iff.1 h
      exact List.forall_mem_cons.2 ⟨hv, ih _ _ _ hmore⟩
    · cases h
      exact List.forall_mem_singleton.2 hv
    · cases h

theorem keyValue_gives : (keyValue item).Gives fun entry ↦ entry.2.WellFormed := by
  intro text entry rest h
  simp only [keyValue, Option.bind_eq_bind, Option.bind_eq_some_iff] at h
  obtain ⟨_, _, _, _, ⟨v, _⟩, hv, ⟨⟩⟩ := h
  exact hitem _ _ _ hv

theorem inlineEntries_gives (fuel : Nat) (ht : t.entries.WellFormed) :
    (inlineEntries item fuel t).Gives Entries.WellFormed := by
  induction fuel generalizing t with
  | zero => rintro _ _ _ ⟨⟩
  | succ fuel ih =>
    intro text entries rest h
    rw [inlineEntries] at h
    obtain ⟨⟨⟨path, v⟩, rest'⟩, hentry, h⟩ := Option.bind_eq_some_iff.1 h
    obtain ⟨t', ht', h⟩ := Option.bind_eq_some_iff.1 h
    have ht' := insertAt_wellFormed ht (keyValue_gives hitem _ _ _ hentry) ht'
    split at h
    · exact ih ht' _ _ _ h
    · cases h
      exact ht'
    · cases h

theorem inlineTable_gives : (inlineTable item).Gives Value.WellFormed := by
  intro text v rest h
  rw [inlineTable] at h
  split at h
  · cases h
    exact Value.wellFormed_table_iff.2 .nil
  · obtain ⟨⟨entries, _⟩, hentries, ⟨⟩⟩ := Option.bind_eq_some_iff.1 h
    exact Value.wellFormed_table_iff.2 (inlineEntries_gives hitem _ .nil _ _ _ hentries)

end

theorem scalar_gives : scalar.Gives Value.WellFormed := by
  intro text v rest h
  unfold scalar at h
  split at h
  · obtain ⟨_, _, ⟨⟩⟩ := Option.map_eq_some_iff.1 h
    exact .string _
  · obtain ⟨_, _, ⟨⟩⟩ := Option.map_eq_some_iff.1 h
    exact .string _
  · cases h
    exact .boolean _
  · cases h
    exact .boolean _
  · exact number_gives _ _ _ h

theorem value_gives (depth : Nat) : (value depth).Gives Value.WellFormed := by
  induction depth with
  | zero => exact scalar_gives
  | succ depth ih =>
    intro text v rest h
    unfold value at h
    split at h
    · obtain ⟨⟨items, _⟩, hitems, ⟨⟩⟩ := Option.bind_eq_some_iff.1 h
      exact .array (arrayItems_gives ih _ _ _ _ hitems)
    · exact inlineTable_gives ih _ _ _ h
    · exact scalar_gives _ _ _ h

namespace Draft

variable {d d' : Draft}

structure WellFormed (d : Draft) : Prop where
  root : d.root.WellFormed
  current : d.current.WellFormed

theorem WellFormed.close (h : d.WellFormed) (hc : d.close = some entries) : entries.WellFormed := by
  unfold Draft.close at hc
  split at hc
  · cases hc
    exact h.current
  next key _ =>
  obtain ⟨⟨_, root⟩, hwithin, ⟨⟩⟩ := Option.bind_eq_some_iff.1 hc
  have hcurrent : (Value.table .header d.current).WellFormed := Value.wellFormed_table_iff.2 h.current
  refine (within_wellFormed (P := fun _ ↦ True) ?_ h.root hwithin).2
  intro t _ t' ht ht'
  split at ht'
  · next items hkey =>
    split at ht' <;> cases ht'
    cases ht.get? hkey with
    | array values =>
    exact ⟨trivial, ht.replace (.array (List.forall_mem_append.2 ⟨values, List.forall_mem_singleton.2 hcurrent⟩))⟩
  · cases ht'
  · next hkey =>
    cases ht'
    exact ⟨trivial, ht.add hkey hcurrent⟩

theorem WellFormed.openTable (h : d.WellFormed) (ho : d.openTable path = some d') : d'.WellFormed := by
  simp only [Draft.openTable, Option.bind_eq_bind, Option.bind_eq_some_iff] at ho
  obtain ⟨root, hroot, key, -, ⟨current, t'⟩, hwithin, ⟨⟩⟩ := ho
  have hboth := within_wellFormed (P := Entries.WellFormed) ?_ (h.close hroot) hwithin
  · exact ⟨hboth.2, hboth.1⟩
  intro t current t' ht ht'
  split at ht'
  · cases ht'
    exact ⟨.nil, ht⟩
  · next hkey =>
    cases ht'
    exact ⟨Value.wellFormed_table_iff.1 (ht.get? hkey), ht.erase⟩
  · cases ht'

theorem WellFormed.openArray (h : d.WellFormed) (ho : d.openArray path = some d') : d'.WellFormed := by
  simp only [Draft.openArray, Option.bind_eq_bind, Option.bind_eq_some_iff] at ho
  obtain ⟨root, hroot, key, -, ⟨_, t'⟩, hwithin, ⟨⟩⟩ := ho
  have hboth := within_wellFormed (P := fun _ ↦ True) ?_ (h.close hroot) hwithin
  · exact ⟨hboth.2, .nil⟩
  intro t _ t' ht ht'
  split at ht'
  · next hkey =>
    cases ht'
    exact ⟨trivial, ht.add hkey (.array (List.forall_mem_nil _))⟩
  · cases ht'
    exact ⟨trivial, ht⟩
  · cases ht'

theorem WellFormed.insert (h : d.WellFormed) (hv : v.WellFormed) (hi : d.insert path v = some d') :
    d'.WellFormed := by
  obtain ⟨t, ht, ⟨⟩⟩ := Option.bind_eq_some_iff.1 hi
  exact ⟨h.root, insertAt_wellFormed h.current hv ht⟩

theorem WellFormed.line {text rest : List Char} (h : d.WellFormed) (hl : d.line text = some (d', rest)) :
    d'.WellFormed := by
  unfold Draft.line at hl
  split at hl
  · simp only [Option.bind_eq_bind, Option.bind_eq_some_iff] at hl
    obtain ⟨_, _, _, _, _, _, d', hd', _, _, ⟨⟩⟩ := hl
    exact h.openArray hd'
  · simp only [Option.bind_eq_bind, Option.bind_eq_some_iff] at hl
    obtain ⟨_, _, _, _, d', hd', _, _, ⟨⟩⟩ := hl
    exact h.openTable hd'
  split at hl
  · cases hl
    exact h
  · simp only [Option.bind_eq_bind, Option.bind_eq_some_iff] at hl
    obtain ⟨⟨⟨path, v⟩, _⟩, hentry, d', hd', _, _, ⟨⟩⟩ := hl
    exact h.insert (keyValue_gives (value_gives _) _ _ _ hentry) hd'

theorem WellFormed.lines {fuel : Nat} {text : List Char} (h : d.WellFormed)
    (hl : Draft.lines fuel d text = some entries) : entries.WellFormed := by
  induction fuel generalizing d text with
  | zero =>
    cases text with
    | nil => exact h.close hl
    | cons c rest => cases hl
  | succ fuel ih =>
    cases text with
    | nil => exact h.close hl
    | cons c rest =>
      obtain ⟨⟨d', rest'⟩, hd', hl⟩ := Option.bind_eq_some_iff.1 hl
      exact ih (h.line hd') hl

end Draft

/-- A document that is read is well formed. -/
theorem parse_wellFormed {document : String} (h : parse document = some entries) : entries.WellFormed := by
  have hempty : Draft.empty.WellFormed := ⟨.nil, .nil⟩
  exact hempty.lines h

end Linewise.Toml
