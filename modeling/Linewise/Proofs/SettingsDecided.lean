import Linewise.Proofs.DecoderLaws

namespace Linewise

namespace Toml

/-- The same value, up to the order of keys and to how a table or an array of tables is written. Dates and times are
not told apart. -/
inductive Value.Same : Value → Value → Prop
  | string (s : String) : Same (.string s) (.string s)
  | integer (n : Int) : Same (.integer n) (.integer n)
  | float (x : Decimal.Binary64) : Same (.float x) (.float x)
  | boolean (b : Bool) : Same (.boolean b) (.boolean b)
  | datetime (text text' : String) : Same (.datetime text) (.datetime text')
  | array {ofTables ofTables' : Bool} {items items' : List Value} (length : items.length = items'.length)
      (each : ∀ pair ∈ items.zip items', Same pair.1 pair.2) :
      Same (.array ofTables items) (.array ofTables' items')
  | table {origin origin' : Origin} {entries entries' : List (String × Value)}
      (keys : (entries.map (·.1)).Perm (entries'.map (·.1)))
      (values : ∀ e ∈ entries, ∀ e' ∈ entries', e.1 = e'.1 → Same e.2 e'.2) :
      Same (.table origin entries) (.table origin' entries')

namespace Entries

def tableAt (entries : Entries) (key : String) : Entries :=
  match entries.get? key with
  | some (.table _ inner) => inner
  | _ => []

def OnlyTableAt (entries : Entries) (key : String) : Prop :=
  ∀ v, entries.get? key = some v → ∃ origin inner, v = .table origin inner

end Entries

variable {ε σ α : Type} {D : Decoder ε} {S : Schema ε σ} {s : σ} {entries entries' : Entries} {v v' w : Value}
  {o o' : Option Value} {origin : Origin}

theorem Value.WellFormed.offer {i : Nat} {name : String} (hv : v.WellFormed) (h : v.offer i name = some w) :
    w.WellFormed := by
  cases hv with
  | table _ values => exact values _ (NamedEntries.mem_of_lookup h)
  | array values => exact values _ (List.mem_of_getElem? h)
  | datetime text =>
    obtain ⟨-, rfl⟩ := Prod.mk.inj (List.mem_singleton.1 (NamedEntries.mem_of_lookup h))
    exact .string text
  | _ => cases h

theorem Value.getElem?_rel {items items' : List Value} (length : items.length = items'.length)
    (each : ∀ pair ∈ items.zip items', Same pair.1 pair.2) (i : Nat) : Option.Rel Same items[i]? items'[i]? := by
  obtain h | h := Nat.lt_or_ge i items.length
  · rw [List.getElem?_eq_getElem h, List.getElem?_eq_getElem (length ▸ h)]
    refine .some (each (items[i], items'[i]) ?_)
    exact List.mem_iff_getElem.2 ⟨i, by simpa [← length] using h, List.getElem_zip⟩
  · rw [List.getElem?_eq_none h, List.getElem?_eq_none (length ▸ h)]
    exact .none

theorem Schema.knows_table_iff : S.Knows (.table origin entries) ↔
    (S.closed = true → entries.map (·.1) ⊆ S.fields.map (·.name)) := by
  constructor
  · exact fun h hclosed ↦ h hclosed entries rfl
  · rintro h hclosed _ ⟨⟩
    exact h hclosed

def ReadsAlike (read : Value → Except ε α) : Prop :=
  ∀ v v', v.WellFormed → v'.WellFormed → v.Same v' → ∀ a, read v = .ok a ↔ read v' = .ok a

theorem ReadsAlike.readOr {read : Value → Except ε α} (h : ReadsAlike read) (ho : ∀ v ∈ o, v.WellFormed)
    (ho' : ∀ v ∈ o', v.WellFormed) (hrel : Option.Rel Value.Same o o') (default a : α) :
    readOr read default o = .ok a ↔ readOr read default o' = .ok a := by
  cases hrel with
  | none => rfl
  | some hsame => exact h _ _ (ho _ rfl) (ho' _ rfl) hsame a

namespace Decoder.Lawful

variable (hD : D.Lawful)

include hD

theorem record_eq_ok_iff (hv : v.WellFormed) (hrecord : v.IsRecord) : D.record S v = .ok s ↔ S.Knows v ∧
    ∀ i f, S.fields[i]? = some f → readOr f.read (f.get S.default) (v.offer i f.name) = .ok (f.get s) := by
  have hfields {s : σ} (h : D.record S v = .ok s) (i : Nat) (f : Field ε σ) (hf : S.fields[i]? = some f) :
      readOr f.read (f.get S.default) (v.offer i f.name) = .ok (f.get s) := by
    cases hoffer : v.offer i f.name with
    | none => exact congrArg Except.ok (hD.get_of_record S v s hv h i f hf hoffer).symm
    | some w => exact hD.read_of_record S v s hv h i f hf w hoffer
  refine ⟨fun h ↦ ⟨hD.knows_of_record S v s h, hfields h⟩, fun ⟨hknows, h⟩ ↦ ?_⟩
  obtain ⟨s', hs'⟩ := hD.exists_record S v hv hrecord hknows fun i f hf w hw ↦ ⟨f.get s, by rw [← h i f hf, hw]; rfl⟩
  have hsame : s' = s := by
    refine S.ext s' s fun f hf ↦ ?_
    obtain ⟨i, hi⟩ := List.getElem?_of_mem hf
    exact Except.ok.inj ((hfields hs' i f hi).symm.trans (h i f hi))
  rw [hs', hsame]

/-- A table is read field by field, each from its own key. -/
theorem record_table_eq_ok_iff (hentries : entries.WellFormed) : D.record S (.table origin entries) = .ok s ↔
    (S.closed = true → entries.map (·.1) ⊆ S.fields.map (·.name)) ∧
      ∀ f ∈ S.fields, readOr f.read (f.get S.default) (entries.get? f.name) = .ok (f.get s) := by
  rw [hD.record_eq_ok_iff (Value.wellFormed_table_iff.2 hentries) (.inl rfl), Schema.knows_table_iff]
  refine and_congr_right fun _ ↦ ⟨fun h f hf ↦ ?_, fun h i f hf ↦ h f (List.mem_of_getElem? hf)⟩
  obtain ⟨i, hi⟩ := List.getElem?_of_mem hf
  exact h i f hi

theorem boolean_readsAlike : ReadsAlike D.boolean := by
  intro v v' _ _ h b
  rw [hD.boolean_eq_ok_iff, hD.boolean_eq_ok_iff]
  cases h <;> simp

theorem count_readsAlike : ReadsAlike D.count := by
  intro v v' hv hv' h n
  rw [hD.count_eq_ok_iff v n hv, hD.count_eq_ok_iff v' n hv']
  cases h <;> simp

/-- A closed record is read alike from values that are the same, if its fields are. -/
theorem record_readsAlike (hclosed : S.closed = true) (hkey : Value.datetimeKey ∉ S.fields.map (·.name))
    (hfields : ∀ f ∈ S.fields, ReadsAlike f.read) : ReadsAlike (D.record S) := by
  intro v v' hv hv' hsame s
  have halike (hrecord : v.IsRecord) (hrecord' : v'.IsRecord) (hknows : S.Knows v ↔ S.Knows v')
      (hoffer : ∀ i name, Option.Rel Value.Same (v.offer i name) (v'.offer i name)) :
      D.record S v = .ok s ↔ D.record S v' = .ok s := by
    rw [hD.record_eq_ok_iff hv hrecord, hD.record_eq_ok_iff hv' hrecord']
    refine and_congr hknows (forall_congr' fun i ↦ forall_congr' fun f ↦ forall_congr' fun hf ↦ ?_)
    exact (hfields f (List.mem_of_getElem? hf)).readOr (fun w hw ↦ hv.offer hw) (fun w hw ↦ hv'.offer hw)
      (hoffer i f.name) _ _
  cases hsame with
  | string | integer | float | boolean => rfl
  | datetime text text' =>
    have hnone (text : String) : D.record S (.datetime text) ≠ .ok s := fun h ↦
      hkey (hD.knows_of_record S _ s h hclosed _ rfl (List.mem_singleton_self _))
    exact iff_of_false (hnone text) (hnone text')
  | array length each =>
    exact halike (.inr rfl) (.inr rfl) (iff_of_true nofun nofun) fun i _ ↦ Value.getElem?_rel length each i
  | table keys values =>
    refine halike (.inl rfl) (.inl rfl) ?_ fun _ name ↦ NamedEntries.lookup_rel keys values name
    rw [Schema.knows_table_iff, Schema.knows_table_iff]
    exact forall_congr' fun _ ↦ ⟨List.Subset.trans keys.symm.subset, List.Subset.trans keys.subset⟩

/-- A record under a key at which only a table may stand is read from the entries of that table, if there are any. -/
theorem readOr_record_iff (hentries : entries.WellFormed) {key : String} (h : entries.OnlyTableAt key) :
    readOr (D.record S) S.default (entries.get? key) = .ok s ↔
      (S.closed = true → (entries.tableAt key).map (·.1) ⊆ S.fields.map (·.name)) ∧
      ∀ f ∈ S.fields, readOr f.read (f.get S.default) ((entries.tableAt key).get? f.name) = .ok (f.get s) := by
  rw [Entries.tableAt]
  cases hv : entries.get? key with
  | none =>
    rw [readOr, Except.ok.injEq]
    constructor
    · rintro rfl
      exact ⟨fun _ ↦ List.nil_subset _, fun f _ ↦ rfl⟩
    · exact fun h ↦ S.ext _ _ fun f hf ↦ Except.ok.inj (h.2 f hf)
  | some v =>
    obtain ⟨origin, inner, rfl⟩ := h v hv
    exact hD.record_table_eq_ok_iff (Value.wellFormed_table_iff.1 (hentries.get? hv))

theorem readOr_boolean_iff {default b : Bool} :
    readOr D.boolean default o = .ok b ↔ o.getD (.boolean default) = .boolean b := by
  cases o with
  | none => simp [readOr]
  | some v => exact hD.boolean_eq_ok_iff v b

theorem readOr_count_iff (ho : ∀ v ∈ o, v.WellFormed) {default n : Nat} :
    readOr D.count default o = .ok n ↔ o.getD (.integer default) = .integer n := by
  cases o with
  | none => rw [readOr, Except.ok.injEq, Option.getD_none, Value.integer.injEq, Int.natCast_inj]
  | some v =>
    refine (hD.count_eq_ok_iff v n (ho v rfl)).trans (and_iff_left_of_imp ?_)
    rintro rfl
    cases ho _ rfl with
    | integer bounds => omega

end Decoder.Lawful

theorem Entries.WellFormed.tableAt {key : String} (h : entries.WellFormed) : (entries.tableAt key).WellFormed := by
  rw [Entries.tableAt]
  split
  · next hv => exact Value.wellFormed_table_iff.1 (h.get? hv)
  · exact .nil

end Toml

namespace Settings

open Toml

variable {ε : Type} {D : Decoder ε} {text : String} {document entries frontend diagnostics : Entries} {key : String}
  {s : Settings}

/-- The keys of `frontend` and of `diagnostics` in it are known, and their values have the right type. -/
structure Accepted (frontend diagnostics : Entries) : Prop where
  frontend_keys : frontend.map (·.1) ⊆ ["keep_comments", "diagnostics"]
  keep_comments : ∀ v, frontend.get? "keep_comments" = some v → ∃ b, v = .boolean b
  diagnostics_keys : diagnostics.map (·.1) ⊆ ["color", "unicode", "context_lines"]
  color : ∀ v, diagnostics.get? "color" = some v → ∃ b, v = .boolean b
  unicode : ∀ v, diagnostics.get? "unicode" = some v → ∃ b, v = .boolean b
  context_lines : ∀ v, diagnostics.get? "context_lines" = some v → ∃ n, v = .integer n ∧ 0 ≤ n ∧ n < 2 ^ 64

/-- Each setting is the value of its key, or the default if the key is absent. -/
structure Given (frontend diagnostics : Entries) (s : Settings) : Prop where
  keep_comments : (frontend.get? "keep_comments").getD (.boolean false) = .boolean s.keepComments
  color : (diagnostics.get? "color").getD (.boolean true) = .boolean s.diagnostics.color
  unicode : (diagnostics.get? "unicode").getD (.boolean true) = .boolean s.diagnostics.unicode
  context_lines : (diagnostics.get? "context_lines").getD (.integer 1) = .integer s.diagnostics.contextLines

theorem exists_boolean_iff (default : Bool) :
    (∃ b, (entries.get? key).getD (.boolean default) = .boolean b) ↔
      ∀ v, entries.get? key = some v → ∃ b, v = .boolean b := by
  cases entries.get? key <;> simp

theorem exists_count_iff (h : entries.WellFormed) (default : Nat) :
    (∃ n : Nat, (entries.get? key).getD (.integer default) = .integer n) ↔
      ∀ v, entries.get? key = some v → ∃ n, v = .integer n ∧ 0 ≤ n ∧ n < 2 ^ 64 := by
  cases hv : entries.get? key with
  | none => simp
  | some v =>
    constructor
    · rintro ⟨n, hn⟩ v' ⟨⟩
      obtain rfl : v = .integer n := hn
      cases h.get? hv with
      | integer bounds => exact ⟨n, rfl, by omega, by omega⟩
    · intro hall
      obtain ⟨n, rfl, hn, -⟩ := hall v rfl
      exact ⟨n.toNat, by rw [Option.getD_some, Int.toNat_of_nonneg hn]⟩

theorem exists_given_iff (h : diagnostics.WellFormed) :
    (∃ s, frontend.map (·.1) ⊆ ["keep_comments", "diagnostics"] ∧
      diagnostics.map (·.1) ⊆ ["color", "unicode", "context_lines"] ∧ Given frontend diagnostics s) ↔
      Accepted frontend diagnostics := by
  constructor
  · rintro ⟨s, hkeys, hkeys', hgiven⟩
    exact ⟨hkeys, (exists_boolean_iff _).1 ⟨_, hgiven.keep_comments⟩, hkeys',
      (exists_boolean_iff _).1 ⟨_, hgiven.color⟩, (exists_boolean_iff _).1 ⟨_, hgiven.unicode⟩,
      (exists_count_iff h _).1 ⟨_, hgiven.context_lines⟩⟩
  · intro hac
    obtain ⟨keep, hkeep⟩ := (exists_boolean_iff false).2 hac.keep_comments
    obtain ⟨color, hcolor⟩ := (exists_boolean_iff true).2 hac.color
    obtain ⟨unicode, hunicode⟩ := (exists_boolean_iff true).2 hac.unicode
    obtain ⟨lines, hlines⟩ := (exists_count_iff h 1).2 hac.context_lines
    exact ⟨⟨keep, color, unicode, lines⟩, hac.frontend_keys, hac.diagnostics_keys, hkeep, hcolor, hunicode, hlines⟩

section

variable (hD : D.Lawful)

include hD

theorem display_readsAlike : ReadsAlike (D.record (Display.schema D)) := by
  refine hD.record_readsAlike rfl (by simp [Display.schema, Value.datetimeKey]) ?_
  simp only [Display.schema, List.forall_mem_cons]
  exact ⟨hD.boolean_readsAlike, hD.boolean_readsAlike, hD.count_readsAlike, List.forall_mem_nil _⟩

theorem settings_readsAlike : ReadsAlike (D.record (schema D)) := by
  refine hD.record_readsAlike rfl (by simp [schema, Value.datetimeKey]) ?_
  simp only [schema, List.forall_mem_cons]
  exact ⟨hD.boolean_readsAlike, display_readsAlike hD, List.forall_mem_nil _⟩

/-- Only the value of `frontend` counts. -/
theorem decode_eq_ok_iff (hdocument : D.document text = .ok document) :
    decode D text = .ok s ↔ readOr (D.record (schema D)) {} (document.get? "frontend") = .ok s := by
  have hfile (file : SettingsFile) : D.record (SettingsFile.schema D) (.table .header document) = .ok file ↔
      readOr (D.record (schema D)) {} (document.get? "frontend") = .ok file.frontend := by
    rw [hD.record_table_eq_ok_iff (hD.wellFormed_of_document text document hdocument)]
    simp [SettingsFile.schema]
  have hdecode : decode D text =
      (D.record (SettingsFile.schema D) (.table .header document)).map (·.frontend) := by
    rw [decode, hdocument]
    rfl
  rw [hdecode]
  constructor
  · intro h
    cases hrecord : D.record (SettingsFile.schema D) (.table .header document) with
    | error e =>
      rw [hrecord] at h
      cases h
    | ok file =>
      rw [hrecord] at h
      cases h
      exact (hfile file).1 hrecord
  · intro h
    rw [(hfile ⟨s⟩).2 h]
    rfl

/-- Where `frontend` and `diagnostics` are tables, each of their keys counts by itself. -/
theorem decode_eq_ok_iff_given (hdocument : D.document text = .ok document)
    (hfrontend : document.OnlyTableAt "frontend") (hf : frontend = document.tableAt "frontend")
    (hdiagnostics : frontend.OnlyTableAt "diagnostics") (hg : diagnostics = frontend.tableAt "diagnostics") :
    decode D text = .ok s ↔ frontend.map (·.1) ⊆ ["keep_comments", "diagnostics"] ∧
      diagnostics.map (·.1) ⊆ ["color", "unicode", "context_lines"] ∧ Given frontend diagnostics s := by
  have hd := hD.wellFormed_of_document text document hdocument
  have hfwf : frontend.WellFormed := hf ▸ hd.tableAt
  have hgwf : diagnostics.WellFormed := hg ▸ hfwf.tableAt
  have hdisplay : readOr (D.record (Display.schema D)) {} (frontend.get? "diagnostics") = .ok s.diagnostics ↔
      diagnostics.map (·.1) ⊆ ["color", "unicode", "context_lines"] ∧
      (diagnostics.get? "color").getD (.boolean true) = .boolean s.diagnostics.color ∧
      (diagnostics.get? "unicode").getD (.boolean true) = .boolean s.diagnostics.unicode ∧
      (diagnostics.get? "context_lines").getD (.integer 1) = .integer s.diagnostics.contextLines := by
    have hlines {n : Nat} : readOr D.count 1 (diagnostics.get? "context_lines") = .ok n ↔
        (diagnostics.get? "context_lines").getD (.integer 1) = .integer n :=
      hD.readOr_count_iff fun v hv ↦ hgwf.get? hv
    refine (hD.readOr_record_iff (S := Display.schema D) hfwf hdiagnostics).trans ?_
    rw [← hg]
    simp [Display.schema, hD.readOr_boolean_iff, hlines]
  refine (decode_eq_ok_iff hD hdocument).trans ?_
  refine (hD.readOr_record_iff (S := schema D) hd hfrontend).trans ?_
  have hfields : (∀ f ∈ (schema D).fields,
        readOr f.read (f.get (schema D).default) (frontend.get? f.name) = .ok (f.get s)) ↔
      readOr D.boolean false (frontend.get? "keep_comments") = .ok s.keepComments ∧
      readOr (D.record (Display.schema D)) {} (frontend.get? "diagnostics") = .ok s.diagnostics := by
    simp [schema]
  rw [← hf, hfields, hD.readOr_boolean_iff, hdisplay]
  constructor
  · rintro ⟨hkeys, hkeep, hkeys', hcolor, hunicode, hlines⟩
    exact ⟨hkeys rfl, hkeys', hkeep, hcolor, hunicode, hlines⟩
  · rintro ⟨hkeys, hkeys', hkeep, hcolor, hunicode, hlines⟩
    exact ⟨fun _ ↦ hkeys, hkeep, hkeys', hcolor, hunicode, hlines⟩

end

/-- With every library that keeps its promises, two documents with the same `frontend`, or both without one, give the
same settings or none at all. A document in which `frontend` and `diagnostics` are tables, if they are there, gives
settings if and only if their keys are known and have values of the right types. Then each setting is the value of
its key, or the default. -/
theorem decode_decided (D : Decoder ε) (hD : D.Lawful) :
    (∀ text text' document document', D.document text = .ok document → D.document text' = .ok document' →
      Option.Rel Value.Same (document.get? "frontend") (document'.get? "frontend") →
      (decode D text).toOption = (decode D text').toOption) ∧
    ∀ text document frontend diagnostics, D.document text = .ok document →
      document.OnlyTableAt "frontend" → frontend = document.tableAt "frontend" →
      frontend.OnlyTableAt "diagnostics" → diagnostics = frontend.tableAt "diagnostics" →
      ((∃ s, decode D text = .ok s) ↔ Accepted frontend diagnostics) ∧
      ∀ s, decode D text = .ok s → Given frontend diagnostics s := by
  constructor
  · intro text text' document document' hdocument hdocument' hsame
    have hd := hD.wellFormed_of_document text document hdocument
    have hd' := hD.wellFormed_of_document text' document' hdocument'
    have halike (s : Settings) : decode D text = .ok s ↔ decode D text' = .ok s := by
      rw [decode_eq_ok_iff hD hdocument, decode_eq_ok_iff hD hdocument']
      exact (settings_readsAlike hD).readOr (fun v hv ↦ hd.get? hv) (fun v hv ↦ hd'.get? hv) hsame _ _
    cases hresult : decode D text with
    | ok s => rw [(halike s).1 hresult]
    | error e =>
      cases hresult' : decode D text' with
      | ok s =>
        rw [(halike s).2 hresult'] at hresult
        cases hresult
      | error e' => rfl
  · intro text document frontend diagnostics hdocument hfrontend hf hdiagnostics hg
    have hd := hD.wellFormed_of_document text document hdocument
    have hgwf : diagnostics.WellFormed := hg ▸ (hf ▸ hd.tableAt).tableAt
    have hiff (s : Settings) := decode_eq_ok_iff_given hD hdocument hfrontend hf hdiagnostics hg (s := s)
    constructor
    · rw [← exists_given_iff hgwf]
      exact exists_congr hiff
    · intro s hs
      exact ((hiff s).1 hs).2.2

/-- Tables between braces, and the same settings under headers, in another order and after a table that is passed
over. -/
theorem decode_decided_reordered : ∃ text text' document document' frontend diagnostics,
    text = "frontend = \x7bdiagnostics = \x7bcolor = false\x7d, keep_comments = true\x7d" ∧
    text' = "[package]\nname = 'x'\n[frontend]\nkeep_comments = true\n[frontend.diagnostics]\ncolor = false" ∧
    decoder.document text = .ok document ∧ decoder.document text' = .ok document' ∧
    Option.Rel Value.Same (document.get? "frontend") (document'.get? "frontend") ∧
    (decode decoder text).toOption = (decode decoder text').toOption ∧
    document.OnlyTableAt "frontend" ∧ frontend = document.tableAt "frontend" ∧
    frontend.OnlyTableAt "diagnostics" ∧ diagnostics = frontend.tableAt "diagnostics" ∧
    ((∃ s, decode decoder text = .ok s) ↔ Accepted frontend diagnostics) ∧
    decode decoder text = .ok ⟨true, ⟨false, true, 1⟩⟩ ∧ Given frontend diagnostics ⟨true, ⟨false, true, 1⟩⟩ := by
  refine ⟨_, _, [("frontend", .table .inline [("diagnostics", .table .inline [("color", .boolean false)]),
      ("keep_comments", .boolean true)])],
    [("package", .table .header [("name", .string "x")]), ("frontend", .table .header
      [("keep_comments", .boolean true), ("diagnostics", .table .header [("color", .boolean false)])])],
    [("diagnostics", .table .inline [("color", .boolean false)]), ("keep_comments", .boolean true)],
    [("color", .boolean false)], rfl, rfl, ?_⟩
  have hdocument : decoder.document "frontend = \x7bdiagnostics = \x7bcolor = false\x7d, keep_comments = true\x7d" =
      .ok [("frontend", .table .inline [("diagnostics", .table .inline [("color", .boolean false)]),
        ("keep_comments", .boolean true)])] := rfl
  have hdocument' : decoder.document
      "[package]\nname = 'x'\n[frontend]\nkeep_comments = true\n[frontend.diagnostics]\ncolor = false" =
      .ok [("package", .table .header [("name", .string "x")]), ("frontend", .table .header
        [("keep_comments", .boolean true), ("diagnostics", .table .header [("color", .boolean false)])])] := rfl
  have hcolor :
      Value.Same (.table .inline [("color", .boolean false)]) (.table .header [("color", .boolean false)]) :=
    .table (.refl _) (by simp [Value.Same.boolean])
  have hsame : Value.Same (.table .inline [("diagnostics", .table .inline [("color", .boolean false)]),
      ("keep_comments", .boolean true)]) (.table .header [("keep_comments", .boolean true),
        ("diagnostics", .table .header [("color", .boolean false)])]) :=
    .table (by decide) (by simp [Value.Same.boolean, hcolor])
  obtain ⟨hsettings, htables⟩ := decode_decided decoder decoder_lawful
  obtain ⟨haccepted, hgiven⟩ := htables _ _ _ _ hdocument (fun v h ↦ ⟨_, _, (Option.some.inj h).symm⟩) rfl
    (fun v h ↦ ⟨_, _, (Option.some.inj h).symm⟩) rfl
  have hok : decode decoder "frontend = \x7bdiagnostics = \x7bcolor = false\x7d, keep_comments = true\x7d" =
      .ok ⟨true, ⟨false, true, 1⟩⟩ := by decide +kernel
  exact ⟨hdocument, hdocument', .some hsame, hsettings _ _ _ _ hdocument hdocument' (.some hsame),
    fun v h ↦ ⟨_, _, (Option.some.inj h).symm⟩, rfl, fun v h ↦ ⟨_, _, (Option.some.inj h).symm⟩, rfl, haccepted, hok,
    hgiven _ hok⟩

end Settings

end Linewise
