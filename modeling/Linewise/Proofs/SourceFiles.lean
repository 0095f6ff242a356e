import Linewise.Proofs.EntryLookup

namespace Linewise

namespace FileTree

inductive Leads : FileTree → List String → FileTree → Prop
  | here (t : FileTree) : Leads t [] t
  | within {access : Access} {entries : List (String × FileTree)} {name : String} {t u : FileTree}
      {names : List String} :
      (name, t) ∈ entries → Leads t names u → Leads (.directory access entries) (name :: names) u

/-- The names lead from the directory to a source file, through directories that are no links. -/
inductive SourceAt : FileTree → List String → Prop
  | file {access : Access} {entries : List (String × FileTree)} {name : String} {content : Content} :
      (name, .file content) ∈ entries → Path.IsSourceName name → SourceAt (.directory access entries) [name]
  | within {access : Access} {entries : List (String × FileTree)} {name : String} {t : FileTree}
      {names : List String} :
      (name, t) ∈ entries → SourceAt t names → SourceAt (.directory access entries) (name :: names)

variable {t t' u d d' : FileTree} {access : Access} {entries : List (String × FileTree)} {place f : Path}
  {name : String} {names : List String} {base : List String}

theorem Leads.reordered (h : Leads t names u) (hr : t.Reordered t') : ∃ u', Leads t' names u' ∧ u.Reordered u' := by
  induction h generalizing t' with
  | here => exact ⟨t', .here t', hr⟩
  | within hmem _ ih =>
    cases t' with
    | directory access' entries' =>
      obtain ⟨v', hv', hr'⟩ := hr.exists_entry hmem
      obtain ⟨u', hu', hr''⟩ := ih hr'
      exact ⟨u', .within hv' hu', hr''⟩
    | _ => cases hr

/-- Each directory that can be reached by names from the one at `place` lists its entries where it is looked up by
its path, and tells what they are. -/
structure Readable (t : FileTree) (base : List String) (place : Path) (d : FileTree) : Prop where
  listing : ∀ names access entries, d.Leads names (.directory access entries) →
    ∃ listed, t.listing (place.along names) base = .ok listed
  known : ∀ names access entries, d.Leads names (.directory access entries) →
    ∀ e ∈ entries, ∀ reason, e.2 ≠ .unknown reason

namespace Readable

theorem within (h : Readable t base place (.directory access entries)) (hmem : (name, u) ∈ entries) :
    Readable t base (place.join name) u where
  listing names access' entries' hleads := h.listing (name :: names) access' entries' (.within hmem hleads)
  known names access' entries' hleads := h.known (name :: names) access' entries' (.within hmem hleads)

theorem reordered (h : Readable t base place d) (ht : t.Matches t') (hd : d.Reordered d') :
    Readable t' base place d' where
  listing names access' entries' hleads := by
    obtain ⟨u, hu, hr⟩ := hleads.reordered hd.symm
    cases hr with
    | directory _ _ =>
    obtain ⟨listed, hl⟩ := h.listing names _ _ hu
    exact ht.exists_listing hl
  known names access' entries' hleads e' he' reason hunknown := by
    obtain ⟨u, hu, hr⟩ := hleads.reordered hd.symm
    obtain ⟨name, u'⟩ := e'
    obtain rfl : u' = .unknown reason := hunknown
    cases u with
    | directory access entries =>
      obtain ⟨v, hv, hr'⟩ := hr.exists_entry he'
      cases hr'
      exact h.known names _ _ hu _ hv reason rfl
    | _ => cases hr

end Readable

/-- All directories may be searched and listed, nothing is unknown, and neither names nor paths are too long. -/
inductive Open : Path → FileTree → Prop
  | file (place : Path) (content : Content) : Open place (.file content)
  | link (place target : Path) : Open place (.link target)
  | special (place : Path) (content : Content) : Open place (.special content)
  | directory {place : Path} {entries : List (String × FileTree)} (short : place.text.utf8ByteSize < maxPathLength)
      (names : ∀ e ∈ entries, e.1.utf8ByteSize ≤ maxNameLength) (trees : ∀ e ∈ entries, Open (place.join e.1) e.2) :
      Open place (.directory {} entries)

namespace Open

theorem leads (h : Open place d) (hleads : d.Leads names u) : Open (place.along names) u := by
  induction hleads generalizing place with
  | here => exact h
  | within hmem _ ih =>
    cases h with
    | directory _ _ trees => exact ih (trees _ hmem)

theorem find_along (h : Open place d) (hd : d.WellFormed) (hfind : t.find place base = .ok d)
    (hleads : d.Leads names (.directory access entries)) :
    t.find (place.along names) base = .ok (.directory access entries) := by
  induction names generalizing place d with
  | nil =>
    cases hleads
    exact hfind
  | cons name names ih =>
    cases hleads with
    | @within access' entries' _ u _ _ hmem hleads =>
    cases h with
    | directory _ hnames hopen =>
    cases hd with
    | directory legal distinct trees =>
    have hentry := (NamedEntries.lookup_eq_some_iff distinct).2 hmem
    obtain ⟨access'', entries'', rfl⟩ : ∃ access'' entries'', u = .directory access'' entries'' := by
      cases hleads <;> exact ⟨_, _, rfl⟩
    refine ih (hopen _ hmem) (trees _ hmem) ?_ hleads
    cases hopen _ hmem with
    | directory hshort _ _ => exact find_join_of_open hfind (legal _ hmem) hentry nofun nofun rfl (hnames _ hmem) hshort

theorem readable (h : Open place d) (hd : d.WellFormed) (hfind : t.find place base = .ok d) :
    Readable t base place d where
  listing names access entries hleads := by
    cases h.leads hleads
    exact ⟨entries, by rw [listing, h.find_along hd hfind hleads]⟩
  known names access entries hleads e he reason hunknown := by
    cases h.leads hleads with
    | directory _ _ trees =>
      have hopen := trees e he
      rw [hunknown] at hopen
      cases hopen

end Open

namespace SourceAt

theorem reordered (h : SourceAt t names) (hr : t.Reordered t') : SourceAt t' names := by
  induction h generalizing t' with
  | file hmem hname =>
    cases t' with
    | directory access' entries' =>
      obtain ⟨u', hu', hr'⟩ := hr.exists_entry hmem
      cases hr'
      exact .file hu' hname
    | _ => cases hr
  | within hmem _ ih =>
    cases t' with
    | directory access' entries' =>
      obtain ⟨u', hu', hr'⟩ := hr.exists_entry hmem
      exact .within hu' (ih hr')
    | _ => cases hr

theorem isName (h : SourceAt t names) (ht : t.WellFormed) : ∀ name ∈ names, Path.IsName name := by
  induction h with
  | file hmem _ =>
    cases ht with
    | directory legal _ _ => exact List.forall_mem_singleton.2 (legal _ hmem)
  | within hmem _ ih =>
    cases ht with
    | directory legal _ trees => exact List.forall_mem_cons.2 ⟨legal _ hmem, ih (trees _ hmem)⟩

theorem exists_head (h : SourceAt (.directory access entries) names) :
    ∃ e ∈ entries, ∃ more, names = e.1 :: more := by
  cases h with
  | file hmem _ => exact ⟨_, hmem, _, rfl⟩
  | within hmem _ => exact ⟨_, hmem, _, rfl⟩

theorem cons_iff {e : String × FileTree} : SourceAt (.directory access (e :: entries)) names ↔
    SourceAt (.directory access [e]) names ∨ SourceAt (.directory access entries) names := by
  constructor
  · intro h
    cases h with
    | file hmem hname =>
      obtain rfl | hmem := List.mem_cons.1 hmem
      · exact .inl (.file (List.mem_singleton_self _) hname)
      · exact .inr (.file hmem hname)
    | within hmem h =>
      obtain rfl | hmem := List.mem_cons.1 hmem
      · exact .inl (.within (List.mem_singleton_self _) h)
      · exact .inr (.within hmem h)
  · rintro (h | h)
    · cases h with
      | file hmem hname => exact .file (List.mem_cons.2 (.inl (List.mem_singleton.1 hmem))) hname
      | within hmem h => exact .within (List.mem_cons.2 (.inl (List.mem_singleton.1 hmem))) h
    · cases h with
      | file hmem hname => exact .file (List.mem_cons_of_mem _ hmem) hname
      | within hmem h => exact .within (List.mem_cons_of_mem _ hmem) h

theorem single_iff : SourceAt (.directory access [(name, t)]) names ↔
    ((∃ content, t = .file content) ∧ Path.IsSourceName name ∧ names = [name]) ∨
      ∃ more, SourceAt t more ∧ names = name :: more := by
  constructor
  · intro h
    cases h with
    | file hmem hname =>
      obtain ⟨rfl, rfl⟩ := Prod.mk.inj (List.mem_singleton.1 hmem)
      exact .inl ⟨⟨_, rfl⟩, hname, rfl⟩
    | within hmem h =>
      obtain ⟨rfl, rfl⟩ := Prod.mk.inj (List.mem_singleton.1 hmem)
      exact .inr ⟨_, h, rfl⟩
  · rintro (⟨⟨content, rfl⟩, hname, rfl⟩ | ⟨more, h, rfl⟩)
    · exact .file (List.mem_singleton_self _) hname
    · exact .within (List.mem_singleton_self _) h

end SourceAt

/-- The paths at which names lead from a place to a source file of a tree, each of them once. -/
structure Lists (files : List Path) (place : Path) (t : FileTree) : Prop where
  mem_iff : ∀ f, f ∈ files ↔ ∃ names, SourceAt t names ∧ f = place.along names
  distinct : files.Pairwise fun f g ↦ f.components ≠ g.components

namespace Lists

variable {files : List Path} {lists : List (List Path)}

theorem nil (h : ∀ names, ¬ SourceAt t names) : Lists [] place t where
  mem_iff _ := iff_of_false List.not_mem_nil fun ⟨names, hsource, _⟩ ↦ h names hsource
  distinct := .nil

theorem of_file (hname : Path.IsName name) (content : Content) :
    Lists (if (place.join name).isSource then [place.join name] else []) place
      (.directory access [(name, .file content)]) where
  mem_iff f := by
    have hiff : (∃ names, SourceAt (.directory access [(name, .file content)]) names ∧ f = place.along names) ↔
        Path.IsSourceName name ∧ f = place.join name := by
      constructor
      · rintro ⟨names, hsource, rfl⟩
        obtain ⟨-, hextension, rfl⟩ | ⟨more, hbelow, -⟩ := SourceAt.single_iff.1 hsource
        · exact ⟨hextension, rfl⟩
        · cases hbelow
      · rintro ⟨hextension, rfl⟩
        exact ⟨[name], SourceAt.single_iff.2 (.inl ⟨⟨_, rfl⟩, hextension, rfl⟩), rfl⟩
    rw [hiff, ← Path.isSource_join (p := place) hname]
    split <;> simp [*]
  distinct := by
    split
    · exact List.pairwise_singleton _ _
    · exact .nil

theorem of_entry (h : Lists files (place.join name) t) (ht : ∀ content, t ≠ .file content) :
    Lists files place (.directory access [(name, t)]) where
  mem_iff f := by
    rw [h.mem_iff]
    constructor
    · rintro ⟨names, hsource, rfl⟩
      exact ⟨name :: names, .within (List.mem_singleton_self _) hsource, rfl⟩
    · rintro ⟨names, hsource, rfl⟩
      obtain ⟨⟨content, hfile⟩, -⟩ | ⟨more, hbelow, rfl⟩ := SourceAt.single_iff.1 hsource
      · exact absurd hfile (ht content)
      · exact ⟨more, hbelow, rfl⟩
  distinct := h.distinct

/-- What is found in one of the entries after another has a name in front which that one does not have. -/
theorem flatten (h : List.Forall₂ (fun e files ↦ Lists files place (.directory access [e])) entries lists)
    (hwf : WellFormed (.directory access entries)) : Lists lists.flatten place (.directory access entries) := by
  induction h with
  | nil => exact .nil fun names hsource ↦ by obtain ⟨e, he, -⟩ := hsource.exists_head; cases he
  | @cons e files entries lists hfirst _ ih =>
    cases hwf with
    | directory legal distinct trees =>
    obtain ⟨hlegal, hmore⟩ := List.forall_mem_cons.1 legal
    obtain ⟨hnew, hdistinct⟩ := List.nodup_cons.1 distinct
    obtain ⟨htree, htrees⟩ := List.forall_mem_cons.1 trees
    have hone : WellFormed (.directory access [e]) :=
      .directory (List.forall_mem_singleton.2 hlegal) (List.nodup_singleton _) (List.forall_mem_singleton.2 htree)
    have hothers : WellFormed (.directory access entries) := .directory hmore hdistinct htrees
    have hrest := ih hothers
    rw [List.flatten_cons]
    refine ⟨fun f ↦ ?_, List.pairwise_append.2 ⟨hfirst.distinct, hrest.distinct, fun f hf g hg heq ↦ ?_⟩⟩
    · rw [List.mem_append, hfirst.mem_iff, hrest.mem_iff, ← exists_or]
      refine exists_congr fun names ↦ ?_
      rw [← or_and_right, ← SourceAt.cons_iff]
    · obtain ⟨names, hsource, rfl⟩ := (hfirst.mem_iff f).1 hf
      obtain ⟨names', hsource', rfl⟩ := (hrest.mem_iff g).1 hg
      obtain rfl := Path.eq_of_components_along_eq (hsource.isName hone) (hsource'.isName hothers) heq
      obtain ⟨e', he', more, rfl⟩ := hsource.exists_head
      obtain ⟨e'', he'', _, hnames⟩ := hsource'.exists_head
      obtain rfl := List.mem_singleton.1 he'
      exact hnew (List.mem_map.2 ⟨e'', he'', (List.cons.inj hnames).1.symm⟩)

end Lists

theorem exists_mapM {α β ε : Type} {f : α → Except ε β} {P : α → β → Prop} {as : List α}
    (h : ∀ a ∈ as, ∃ b, f a = .ok b ∧ P a b) : ∃ bs, as.mapM f = .ok bs ∧ List.Forall₂ P as bs := by
  induction as with
  | nil => exact ⟨[], rfl, .nil⟩
  | cons a as ih =>
    obtain ⟨⟨b, hb, hP⟩, hmore⟩ := List.forall_mem_cons.1 h
    obtain ⟨bs, hbs, hall⟩ := ih hmore
    exact ⟨b :: bs, by rw [List.mapM_cons, hb, hbs]; rfl, .cons hP hall⟩

/-- The search of a directory that is looked up by its path. It goes down the tree, and on each step the path gets
longer, so that the room lasts. -/
theorem exists_search (hd : d.WellFormed) (hdir : ∃ access entries, d = .directory access entries)
    (hfind : t.find place base = .ok d) (hread : Readable t base place d) {room : Nat}
    (hroom : maxPathLength ≤ room + place.text.utf8ByteSize) :
    ∃ files, search (t.listing · base) room place = .ok files ∧ Lists files place d := by
  induction hd generalizing place room with
  | file | link | special | unknown => obtain ⟨_, _, ⟨⟩⟩ := hdir
  | @directory access entries legal distinct trees ih =>
    have hlisting := listing_of_find hfind (hread.listing [] _ _ (.here _))
    have hshort := (find_eq_ok_iff.1 hfind).2.1
    obtain ⟨room, rfl⟩ : ∃ room', room = room' + 1 := Nat.exists_eq_add_one.2 (by omega)
    have heach : ∀ e ∈ entries, ∃ files, entrySources (search (t.listing · base) room) place e = .ok files ∧
        Lists files place (.directory access [e]) := by
      rintro ⟨name, u⟩ he
      have hname : Path.IsName name := legal _ he
      cases u with
      | link target | special content =>
        refine ⟨[], rfl, .nil fun names hsource ↦ ?_⟩
        obtain ⟨⟨_, hfile⟩, -⟩ | ⟨more, hbelow, -⟩ := SourceAt.single_iff.1 hsource
        · cases hfile
        · cases hbelow
      | unknown reason => exact absurd rfl (hread.known [] _ _ (.here _) _ he reason)
      | file content => exact ⟨_, rfl, .of_file hname content⟩
      | directory access' entries' =>
        have hinner := hread.within he
        obtain ⟨listed, hl⟩ := hinner.listing [] _ _ (.here _)
        obtain ⟨access'', hfound⟩ := exists_find_of_listing hl
        have hsame := find_join hfind hname ((NamedEntries.lookup_eq_some_iff distinct).2 he) nofun nofun hfound
        have hlonger := Path.lt_utf8ByteSize_join (p := place) hname.1
        have hroom : maxPathLength ≤ room + (place.join name).text.utf8ByteSize := by omega
        obtain ⟨files, hfiles, hlists⟩ := ih _ he ⟨_, _, rfl⟩ (hsame ▸ hfound) hinner hroom
        exact ⟨files, hfiles, hlists.of_entry nofun⟩
    obtain ⟨lists, hlists, hall⟩ := exists_mapM heach
    refine ⟨lists.flatten, ?_, .flatten hall (.directory legal distinct trees)⟩
    rw [search, hlisting]
    dsimp only
    rw [hlists]
    rfl

theorem findSources_of_search {files : List Path} (hfind : t.find place base = .ok (.directory access entries))
    (hfiles : search (t.listing · base) maxPathLength place = .ok files) :
    t.findSources place base = .ok (files.mergeSort Path.le) := by
  rw [findSources, hfind]
  dsimp only
  rw [hfiles]
  rfl

/-- What is found is in strict order, and it is the paths at which names lead to a source file. -/
theorem findSources_eq (hd : WellFormed (.directory access entries))
    (hfind : t.find place base = .ok (.directory access entries))
    (hread : Readable t base place (.directory access entries)) :
    ∃ files, t.findSources place base = .ok files ∧ files.Pairwise Path.Before ∧
      ∀ f, f ∈ files ↔ ∃ names, SourceAt (.directory access entries) names ∧ f = place.along names := by
  obtain ⟨files, hfiles, hlists⟩ := exists_search hd ⟨_, _, rfl⟩ hfind hread (Nat.le_add_right maxPathLength _)
  have hsorted := List.pairwise_mergeSort Path.le_trans Path.le_total files
  have hperm := List.mergeSort_perm files Path.le
  have hdistinct := hperm.symm.pairwise hlists.distinct Ne.symm
  refine ⟨files.mergeSort Path.le, findSources_of_search hfind hfiles,
    (hsorted.and hdistinct).imp fun h ↦ .of_le h.1 h.2, fun f ↦ ?_⟩
  rw [hperm.mem_iff, hlists.mem_iff]

theorem wellFormed_of_find (ht : t.WellFormed) (hfind : t.find place base = .ok u) : u.WellFormed := by
  have halike := Matches.find ⟨ht, .refl ht⟩ place base
  rw [hfind] at halike
  cases halike with
  | ok hmatch => exact hmatch.wellFormed

/-- In another order of the same tree the same is found. -/
theorem findSources_reordered (ht : t.WellFormed) (hr : t.Reordered t')
    (hfind : t.find place base = .ok (.directory access entries))
    (hread : Readable t base place (.directory access entries)) :
    t'.findSources place base = t.findSources place base := by
  have halike := Matches.find ⟨ht, hr⟩ place base
  rw [hfind] at halike
  generalize hfind' : t'.find place base = result at halike
  cases halike with
  | ok hmatch =>
    obtain ⟨hwf, hreordered⟩ := hmatch
    obtain ⟨files, hfiles, hsorted, hmem⟩ := findSources_eq hwf hfind hread
    have hread' := hread.reordered ⟨ht, hr⟩ hreordered
    cases hreordered with
    | directory names trees =>
      have hreordered : Reordered (.directory access entries) _ := .directory names trees
      obtain ⟨files', hfiles', hsorted', hmem'⟩ := findSources_eq (hreordered.wellFormed hwf) hfind' hread'
      rw [hfiles, hfiles']
      refine congrArg Except.ok (Path.eq_of_pairwise_before hsorted' hsorted fun f ↦ ?_)
      rw [hmem, hmem']
      constructor
      · rintro ⟨names, hsource, rfl⟩
        exact ⟨names, hsource.reordered hreordered.symm, rfl⟩
      · rintro ⟨names, hsource, rfl⟩
        exact ⟨names, hsource.reordered hreordered, rfl⟩

/-- What the search finds in a directory is in strict order. All the source files that can be reached from the
directory by names, not through links, are among it, and every path in it is that of exactly one of them. In
whatever order directories list their entries, the search finds the same. -/
theorem findSources_exact (ht : t.WellFormed) (hfind : t.find place base = .ok (.directory access entries))
    (hread : Readable t base place (.directory access entries)) :
    ∃ files, t.findSources place base = .ok files ∧ files.Pairwise Path.Before ∧
      (∀ names, SourceAt (.directory access entries) names → place.along names ∈ files) ∧
      (∀ f ∈ files, ∃! names, SourceAt (.directory access entries) names ∧ f = place.along names) ∧
      ∀ t', t.Reordered t' → t'.findSources place base = .ok files := by
  have hwf := wellFormed_of_find ht hfind
  obtain ⟨files, hfiles, hsorted, hmem⟩ := findSources_eq hwf hfind hread
  refine ⟨files, hfiles, hsorted, fun names hsource ↦ (hmem _).2 ⟨names, hsource, rfl⟩, fun f hf ↦ ?_, ?_⟩
  · obtain ⟨names, hsource, rfl⟩ := (hmem f).1 hf
    refine ⟨names, ⟨hsource, rfl⟩, fun names' h ↦ ?_⟩
    exact Path.eq_of_components_along_eq (h.1.isName hwf) (hsource.isName hwf) (congrArg Path.components h.2.symm)
  · intro t' hr
    rw [findSources_reordered ht hr hfind hread, hfiles]

/-- A directory sorts before a file whose name goes on from its own, and a link is no source file. The search goes up
from the working directory and then through a link to an absolute path. -/
theorem findSources_exact_nested : ∃ entries entries' t t' base place files,
    entries = [("a", .directory {} [("z.exl", .file (.ok .empty))]), ("a-b.exl", .file (.error "Permission denied")),
      ("b.exl", .link ⟨"a"⟩)] ∧
    entries' = [("b.exl", .link ⟨"a"⟩), ("a-b.exl", .file (.error "Permission denied")),
      ("a", .directory {} [("z.exl", .file (.ok .empty))])] ∧
    t = .directory {} [("home", empty), ("src", .directory {} entries), ("work", .link ⟨"/src"⟩)] ∧
    t' = .directory {} [("home", empty), ("src", .directory {} entries'), ("work", .link ⟨"/src"⟩)] ∧
    base = ["home"] ∧ place = ⟨"../work"⟩ ∧ files = [⟨"../work/a/z.exl"⟩, ⟨"../work/a-b.exl"⟩] ∧
    t.WellFormed ∧ t.Reordered t' ∧ t.find place base = .ok (.directory {} entries) ∧
    Readable t base place (.directory {} entries) ∧ t.findSources place base = .ok files ∧
    files.Pairwise Path.Before ∧
    (∀ names, SourceAt (.directory {} entries) names → place.along names ∈ files) ∧
    (∀ f ∈ files, ∃! names, SourceAt (.directory {} entries) names ∧ f = place.along names) ∧
    t'.findSources place base = .ok files := by
  refine ⟨_, _, _, _, _, _, _, rfl, rfl, rfl, rfl, rfl, rfl, rfl, ?_⟩
  have assemble {access : Access} {entries : List (String × FileTree)} {t t' : FileTree} {base : List String}
      {place : Path} {files : List Path} (ht : t.WellFormed) (hr : t.Reordered t')
      (hfind : t.find place base = .ok (.directory access entries))
      (hread : Readable t base place (.directory access entries))
      (hfound : t.findSources place base = .ok files) :
      t.WellFormed ∧ t.Reordered t' ∧ t.find place base = .ok (.directory access entries) ∧
      Readable t base place (.directory access entries) ∧ t.findSources place base = .ok files ∧
      files.Pairwise Path.Before ∧
      (∀ names, SourceAt (.directory access entries) names → place.along names ∈ files) ∧
      (∀ f ∈ files, ∃! names, SourceAt (.directory access entries) names ∧ f = place.along names) ∧
      t'.findSources place base = .ok files := by
    obtain ⟨files', hfiles, hsorted, hall, hown, horder⟩ := findSources_exact ht hfind hread
    obtain rfl := Except.ok.inj (hfiles.symm.trans hfound)
    exact ⟨ht, hr, hfind, hread, hfound, hsorted, hall, hown, horder _ hr⟩
  have hinner : WellFormed (.directory {} [("z.exl", .file (.ok .empty))]) :=
    .directory (by decide) (by decide) (by simp [WellFormed.file])
  have hempty : WellFormed empty := .directory (by simp) (by simp) (by simp)
  have hsrc : WellFormed (.directory {} [("a", .directory {} [("z.exl", .file (.ok .empty))]),
      ("a-b.exl", .file (.error "Permission denied")), ("b.exl", .link ⟨"a"⟩)]) :=
    .directory (by decide) (by decide) (by simp [hinner, WellFormed.file, WellFormed.link])
  refine assemble ?_ ?_ rfl (Open.readable ?_ hsrc rfl) ?_
  · exact .directory (by decide) (by decide) (by simp [hempty, hsrc, WellFormed.link])
  · refine .directory (by decide) ?_
    have hsame : Reordered (.directory {} [("a", .directory {} [("z.exl", .file (.ok .empty))]),
        ("a-b.exl", .file (.error "Permission denied")), ("b.exl", .link ⟨"a"⟩)]) (.directory {}
        [("b.exl", .link ⟨"a"⟩), ("a-b.exl", .file (.error "Permission denied")),
          ("a", .directory {} [("z.exl", .file (.ok .empty))])]) :=
      .directory (by decide) (by simp [Reordered.refl hinner, Reordered.file, Reordered.link])
    simp [Reordered.refl hempty, hsame, Reordered.link]
  · have hbelow : Open (Path.join ⟨"../work"⟩ "a") (.directory {} [("z.exl", .file (.ok .empty))]) :=
      .directory (by decide) (by decide) (by simp [Open.file])
    exact .directory (by decide) (by decide) (by simp [hbelow, Open.file, Open.link])
  · refine (findSources_of_search rfl ?_).trans (congrArg Except.ok (List.mergeSort_of_pairwise ?_))
    · decide +kernel
    · decide +kernel

end FileTree

end Linewise
