import Mathlib.Data.List.Nodup

namespace Linewise.NamedEntries

variable {α : Type} {entries : List (String × α)} {name : String} {a : α}

theorem mem_of_lookup (h : entries.lookup name = some a) : (name, a) ∈ entries := by
  obtain ⟨front, back, rfl, -⟩ := List.lookup_eq_some_iff.1 h
  exact List.mem_append_right front List.mem_cons_self

theorem lookup_eq_none_iff : entries.lookup name = none ↔ name ∉ entries.map (·.1) := by
  rw [List.lookup_eq_none_iff, List.mem_map]
  constructor
  · rintro h ⟨e, he, rfl⟩
    simpa using h e he
  · intro h e he
    rw [bne_iff_ne]
    rintro rfl
    exact h ⟨e, he, rfl⟩

theorem exists_lookup (h : name ∈ entries.map (·.1)) : ∃ a, entries.lookup name = some a := by
  cases hl : entries.lookup name with
  | none => exact absurd h (lookup_eq_none_iff.1 hl)
  | some a => exact ⟨a, rfl⟩

theorem eq_of_name_eq (h : (entries.map (·.1)).Nodup) {e e' : String × α} (he : e ∈ entries) (he' : e' ∈ entries)
    (hname : e.1 = e'.1) : e = e' := List.inj_on_of_nodup_map h he he' hname

theorem lookup_eq_some_iff (h : (entries.map (·.1)).Nodup) : entries.lookup name = some a ↔ (name, a) ∈ entries := by
  refine ⟨mem_of_lookup, fun hmem ↦ ?_⟩
  obtain ⟨b, hb⟩ := exists_lookup (List.mem_map_of_mem hmem)
  obtain ⟨-, rfl⟩ := Prod.mk.inj (eq_of_name_eq h (mem_of_lookup hb) hmem rfl)
  exact hb

theorem lookup_rel {R : α → α → Prop} {entries' : List (String × α)}
    (hnames : (entries.map (·.1)).Perm (entries'.map (·.1)))
    (h : ∀ e ∈ entries, ∀ e' ∈ entries', e.1 = e'.1 → R e.2 e'.2) (name : String) :
    Option.Rel R (entries.lookup name) (entries'.lookup name) := by
  cases hl : entries.lookup name with
  | none =>
    have hl' : entries'.lookup name = none :=
      lookup_eq_none_iff.2 fun hmem ↦ lookup_eq_none_iff.1 hl (hnames.symm.subset hmem)
    rw [hl']
    exact .none
  | some a =>
    have ha := mem_of_lookup hl
    obtain ⟨a', hl'⟩ := exists_lookup (hnames.subset (List.mem_map_of_mem ha))
    rw [hl']
    exact .some (h _ ha _ (mem_of_lookup hl') rfl)

end Linewise.NamedEntries
