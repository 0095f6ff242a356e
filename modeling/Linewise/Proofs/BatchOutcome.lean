import Linewise.Batch
import Linewise.Proofs.Safety
import Linewise.Proofs.SourceFiles

namespace Linewise

variable {t t' : FileTree} {paths paths' : List Path} {base base' : List String} {p : Path} {program : Program}
  {failure : Failure Report}

namespace Batch

variable {b : Batch} {good bad : List Nat}

/-- The positions in a list of paths are divided among the programs and the failures of a batch. -/
structure Splits (t : FileTree) (base : List String) (paths : List Path) (b : Batch) (good bad : List Nat) :
    Prop where
  positions : (good ++ bad).Perm (List.range paths.length)
  good_sorted : good.Pairwise (· < ·)
  bad_sorted : bad.Pairwise (· < ·)
  programs : List.Forall₂ (fun i entry ↦ paths[i]? = some entry.1 ∧ t.compileFile entry.1 base = .ok entry.2)
    good b.programs
  failures : List.Forall₂ (fun i entry ↦ paths[i]? = some entry.1 ∧ t.compileFile entry.1 base = .error entry.2)
    bad b.failures

def reported (b : Batch) : List Path := b.programs.map (·.1) ++ b.failures.map (·.1)

/-- A batch tells of every source file of a directory once and of nothing else, in the order of the paths. -/
structure Covers (b : Batch) (place : Path) (d : FileTree) : Prop where
  once : ∀ names, d.SourceAt names → b.reported.count (place.along names) = 1
  only : ∀ p ∈ b.reported, ∃ names, d.SourceAt names ∧ p = place.along names
  programs_sorted : (b.programs.map (·.1)).Pairwise Path.Before
  failures_sorted : (b.failures.map (·.1)).Pairwise Path.Before

theorem pairwise_zero_cons_map_succ {is : List Nat} (h : is.Pairwise (· < ·)) :
    (0 :: is.map Nat.succ).Pairwise (· < ·) := by
  rw [List.pairwise_cons, List.forall_mem_map]
  exact ⟨fun _ _ ↦ Nat.succ_pos _, h.map _ fun _ _ ↦ Nat.succ_lt_succ⟩

theorem forall₂_map_succ {α : Type} {result : Path × α → Prop} {is : List Nat} {entries : List (Path × α)}
    (h : List.Forall₂ (fun i entry ↦ paths[i]? = some entry.1 ∧ result entry) is entries) :
    List.Forall₂ (fun i entry ↦ (p :: paths)[i]? = some entry.1 ∧ result entry) (is.map Nat.succ) entries := by
  rw [List.forall₂_map_left_iff]
  exact h.imp fun i entry hentry ↦ hentry

namespace Splits

theorem addInFront_ok (h : Splits t base paths b good bad) (hp : t.compileFile p base = .ok program) :
    Splits t base (p :: paths) (addInFront p (.ok program) b) (0 :: good.map Nat.succ) (bad.map Nat.succ) where
  positions := by
    rw [List.cons_append, ← List.map_append, List.length_cons, List.range_succ_eq_map]
    exact (h.positions.map _).cons 0
  good_sorted := pairwise_zero_cons_map_succ h.good_sorted
  bad_sorted := (List.pairwise_cons.1 (pairwise_zero_cons_map_succ h.bad_sorted)).2
  programs := .cons ⟨rfl, hp⟩ (forall₂_map_succ h.programs)
  failures := forall₂_map_succ h.failures

theorem addInFront_error (h : Splits t base paths b good bad) (hp : t.compileFile p base = .error failure) :
    Splits t base (p :: paths) (addInFront p (.error failure) b) (good.map Nat.succ) (0 :: bad.map Nat.succ) where
  positions := by
    have hmiddle : (good.map Nat.succ ++ 0 :: bad.map Nat.succ).Perm (0 :: (good ++ bad).map Nat.succ) := by
      rw [List.map_append]
      exact List.perm_middle
    rw [List.length_cons, List.range_succ_eq_map]
    exact hmiddle.trans ((h.positions.map _).cons 0)
  good_sorted := (List.pairwise_cons.1 (pairwise_zero_cons_map_succ h.good_sorted)).2
  bad_sorted := pairwise_zero_cons_map_succ h.bad_sorted
  programs := forall₂_map_succ h.programs
  failures := .cons ⟨rfl, hp⟩ (forall₂_map_succ h.failures)

end Splits

/-- A file adds its own program to a batch, or none. -/
theorem mem_programs_addInFront {q : Path} {result : Except (Failure Report) Program} :
    (p, program) ∈ (addInFront q result b).programs ↔ (p = q ∧ result = .ok program) ∨ (p, program) ∈ b.programs := by
  cases result with
  | ok found =>
    rw [addInFront, List.mem_cons, Prod.mk.injEq, Except.ok.injEq, eq_comm (a := program)]
  | error failure => exact (or_iff_right fun h ↦ nomatch h.2).symm

theorem mem_failures_addInFront {q : Path} {result : Except (Failure Report) Program} :
    (p, failure) ∈ (addInFront q result b).failures ↔
      (p = q ∧ result = .error failure) ∨ (p, failure) ∈ b.failures := by
  cases result with
  | ok program => exact (or_iff_right fun h ↦ nomatch h.2).symm
  | error found =>
    rw [addInFront, List.mem_cons, Prod.mk.injEq, Except.error.injEq, eq_comm (a := failure)]

end Batch

namespace FileTree

/-- What becomes of a file depends on nothing but its text. -/
theorem compileFile_congr (h : t'.text p base' = t.text p base) : t'.compileFile p base' = t.compileFile p base := by
  rw [compileFile, compileFile, h]

theorem compileFile_ne_internal (t : FileTree) (p : Path) (base : List String) (e : InternalError) :
    t.compileFile p base ≠ .error (.internal e) := by
  unfold compileFile compile
  split
  · rintro ⟨⟩
  · next source _ =>
    cases hparse : parse source with
    | ok program => rintro ⟨⟩
    | error failure =>
      cases failure with
      | rejected error => rintro ⟨⟩
      | internal e => exact absurd hparse ((Parser.ofSource source).program_ne_internal e)

theorem compileFiles_cons (t : FileTree) (p : Path) (paths : List Path) (base : List String) :
    t.compileFiles (p :: paths) base = Batch.addInFront p (t.compileFile p base) (t.compileFiles paths base) :=
  List.foldr_cons ..

/-- A batch divides the positions of its files. -/
theorem exists_splits (t : FileTree) (paths : List Path) (base : List String) :
    ∃ good bad, (t.compileFiles paths base).Splits t base paths good bad := by
  induction paths with
  | nil => exact ⟨[], [], .refl _, .nil, .nil, .nil, .nil⟩
  | cons p paths ih =>
    obtain ⟨good, bad, h⟩ := ih
    rw [compileFiles_cons]
    cases hp : t.compileFile p base with
    | ok program => exact ⟨_, _, h.addInFront_ok hp⟩
    | error failure => exact ⟨_, _, h.addInFront_error hp⟩

theorem mem_programs : (p, program) ∈ (t.compileFiles paths base).programs ↔
    p ∈ paths ∧ t.compileFile p base = .ok program := by
  induction paths with
  | nil => exact iff_of_false List.not_mem_nil fun h ↦ List.not_mem_nil h.1
  | cons first paths ih =>
    have hfirst : p = first ∧ t.compileFile first base = .ok program ↔
        p = first ∧ t.compileFile p base = .ok program := and_congr_right fun hp ↦ by rw [hp]
    rw [compileFiles_cons, Batch.mem_programs_addInFront, ih, hfirst, List.mem_cons, or_and_right]

theorem mem_failures : (p, failure) ∈ (t.compileFiles paths base).failures ↔
    p ∈ paths ∧ t.compileFile p base = .error failure := by
  induction paths with
  | nil => exact iff_of_false List.not_mem_nil fun h ↦ List.not_mem_nil h.1
  | cons first paths ih =>
    have hfirst : p = first ∧ t.compileFile first base = .error failure ↔
        p = first ∧ t.compileFile p base = .error failure := and_congr_right fun hp ↦ by rw [hp]
    rw [compileFiles_cons, Batch.mem_failures_addInFront, ih, hfirst, List.mem_cons, or_and_right]

theorem isSuccess_iff :
    (t.compileFiles paths base).isSuccess = true ↔ ∀ p ∈ paths, ∃ program, t.compileFile p base = .ok program := by
  rw [Batch.isSuccess, List.isEmpty_iff, List.eq_nil_iff_forall_not_mem]
  constructor
  · intro h p hp
    cases hresult : t.compileFile p base with
    | ok program => exact ⟨program, rfl⟩
    | error failure => exact absurd (mem_failures.2 ⟨hp, hresult⟩) (h _)
  · rintro h ⟨p, failure⟩ hmem
    obtain ⟨hp, hfailure⟩ := mem_failures.1 hmem
    obtain ⟨program, hprogram⟩ := h p hp
    rw [hprogram] at hfailure
    cases hfailure

theorem programs_sublist (t : FileTree) (paths : List Path) (base : List String) :
    ((t.compileFiles paths base).programs.map (·.1)).Sublist paths := by
  induction paths with
  | nil => exact .slnil
  | cons p paths ih =>
    rw [compileFiles_cons]
    cases t.compileFile p base with
    | ok program => exact ih.cons_cons p
    | error failure => exact ih.cons p

theorem failures_sublist (t : FileTree) (paths : List Path) (base : List String) :
    ((t.compileFiles paths base).failures.map (·.1)).Sublist paths := by
  induction paths with
  | nil => exact .slnil
  | cons p paths ih =>
    rw [compileFiles_cons]
    cases t.compileFile p base with
    | ok program => exact ih.cons p
    | error failure => exact ih.cons_cons p

theorem reported_perm (t : FileTree) (paths : List Path) (base : List String) :
    (t.compileFiles paths base).reported.Perm paths := by
  induction paths with
  | nil => exact .refl _
  | cons p paths ih =>
    rw [compileFiles_cons]
    cases t.compileFile p base with
    | ok program => exact ih.cons p
    | error failure => exact List.perm_middle.trans (ih.cons p)

theorem compileFiles_covers {place : Path} {d : FileTree} (hsorted : paths.Pairwise Path.Before)
    (hmem : ∀ f, f ∈ paths ↔ ∃ names, d.SourceAt names ∧ f = place.along names) :
    (t.compileFiles paths base).Covers place d where
  once names hsource := by
    rw [(reported_perm t paths base).count_eq]
    exact List.count_eq_one_of_mem (Path.nodup_of_pairwise_before hsorted) ((hmem _).2 ⟨names, hsource, rfl⟩)
  only f hf := (hmem f).1 ((reported_perm t paths base).subset hf)
  programs_sorted := hsorted.sublist (programs_sublist t paths base)
  failures_sorted := hsorted.sublist (failures_sublist t paths base)

/-- A batch divides the positions of its files among programs and failures, in order and each with what compiling
that file alone gives, which is never an internal failure. It succeeds if and only if each of the files compiles
alone. In a batch of other files, in a tree where other files hold something else, a file with the same text has the
same outcome. The batch of all source files of a directory tells of each of them once, in the order of the paths. -/
theorem compileFiles_isolated (t : FileTree) (paths : List Path) (base : List String) :
    (∃ good bad, (t.compileFiles paths base).Splits t base paths good bad) ∧
    (∀ entry ∈ (t.compileFiles paths base).failures, ∃ report, entry.2 = .rejected report) ∧
    ((t.compileFiles paths base).isSuccess = true ↔ ∀ p ∈ paths, ∃ program, t.compileFile p base = .ok program) ∧
    (∀ (t' : FileTree) (paths' : List Path) (base' : List String), ∀ p ∈ paths, p ∈ paths' →
      t'.text p base' = t.text p base →
      (∀ program, (p, program) ∈ (t'.compileFiles paths' base').programs ↔
        (p, program) ∈ (t.compileFiles paths base).programs) ∧
      ∀ failure, (p, failure) ∈ (t'.compileFiles paths' base').failures ↔
        (p, failure) ∈ (t.compileFiles paths base).failures) ∧
    ∀ place access entries, t.WellFormed → t.find place base = .ok (.directory access entries) →
      Readable t base place (.directory access entries) →
      ∃ files, t.findSources place base = .ok files ∧
        (t.compileFiles files base).Covers place (.directory access entries) := by
  refine ⟨exists_splits t paths base, ?_, isSuccess_iff, ?_, ?_⟩
  · rintro ⟨p, failure⟩ hmem
    obtain ⟨-, hfailure⟩ := mem_failures.1 hmem
    cases failure with
    | rejected report => exact ⟨report, rfl⟩
    | internal e => exact absurd hfailure (compileFile_ne_internal t p base e)
  · intro t' paths' base' p hp hp' htext
    have hsame := compileFile_congr htext
    constructor
    · intro program
      rw [mem_programs, mem_programs, hsame]
      exact and_congr_left fun _ ↦ iff_of_true hp' hp
    · intro failure
      rw [mem_failures, mem_failures, hsame]
      exact and_congr_left fun _ ↦ iff_of_true hp' hp
  · intro place access entries ht hfind hread
    obtain ⟨files, hfiles, hsorted, hmem⟩ := findSources_eq (wellFormed_of_find ht hfind) hfind hread
    exact ⟨files, hfiles, compileFiles_covers hsorted hmem⟩

/-- A file that compiles, one that does not, one that cannot be read, and one that is missing. One of them is named
twice, and it fails alike where it is the only file. -/
theorem compileFiles_isolated_mixed : ∃ t d paths,
    d = .directory {} [("a.exl", .file (.ok ⟨#[97]⟩)), ("b.exl", .file (.ok ⟨#[41]⟩)),
      ("d.exl", .file (.error "Permission denied"))] ∧
    t = .directory {} [("src", d)] ∧
    paths = [⟨"/src/b.exl"⟩, ⟨"/src/c.exl"⟩, ⟨"/src/a.exl"⟩, ⟨"/src/d.exl"⟩, ⟨"/src/b.exl"⟩] ∧
    (t.compileFiles paths).programs.map (·.1) = [⟨"/src/a.exl"⟩] ∧
    (t.compileFiles paths).failures.map (·.1) =
      [⟨"/src/b.exl"⟩, ⟨"/src/c.exl"⟩, ⟨"/src/d.exl"⟩, ⟨"/src/b.exl"⟩] ∧
    (∃ good bad, (t.compileFiles paths).Splits t [] paths good bad) ∧
    (∀ failure, (⟨"/src/b.exl"⟩, failure) ∈ (compileFiles (.directory {} [("src", .directory {}
        [("b.exl", .file (.ok ⟨#[41]⟩))])]) [⟨"/src/b.exl"⟩]).failures ↔
      (⟨"/src/b.exl"⟩, failure) ∈ (t.compileFiles paths).failures) ∧
    t.WellFormed ∧ t.find ⟨"/src"⟩ = .ok d ∧ Readable t [] ⟨"/src"⟩ d ∧
    ∃ files, t.findSources ⟨"/src"⟩ = .ok files ∧ (t.compileFiles files).Covers ⟨"/src"⟩ d := by
  refine ⟨_, _, _, rfl, rfl, rfl, ?_⟩
  have hd : WellFormed (.directory {} [("a.exl", .file (.ok ⟨#[97]⟩)), ("b.exl", .file (.ok ⟨#[41]⟩)),
      ("d.exl", .file (.error "Permission denied"))]) :=
    .directory (by decide) (by decide) (by simp [WellFormed.file])
  have ht : WellFormed (.directory {} [("src", .directory {} [("a.exl", .file (.ok ⟨#[97]⟩)),
      ("b.exl", .file (.ok ⟨#[41]⟩)), ("d.exl", .file (.error "Permission denied"))])]) :=
    .directory (by decide) (by decide) (by simp [hd])
  obtain ⟨hsplits, -, -, hsame, hcovers⟩ := compileFiles_isolated
    (.directory {} [("src", .directory {} [("a.exl", .file (.ok ⟨#[97]⟩)), ("b.exl", .file (.ok ⟨#[41]⟩)),
      ("d.exl", .file (.error "Permission denied"))])])
    [⟨"/src/b.exl"⟩, ⟨"/src/c.exl"⟩, ⟨"/src/a.exl"⟩, ⟨"/src/d.exl"⟩, ⟨"/src/b.exl"⟩] []
  have hopen : Open ⟨"/src"⟩ (.directory {} [("a.exl", .file (.ok ⟨#[97]⟩)), ("b.exl", .file (.ok ⟨#[41]⟩)),
      ("d.exl", .file (.error "Permission denied"))]) := .directory (by decide) (by decide) (by simp [Open.file])
  refine ⟨by decide +kernel, by decide +kernel, hsplits, ?_, ht, rfl, hopen.readable hd rfl,
    hcovers _ _ _ ht rfl (hopen.readable hd rfl)⟩
  exact (hsame _ _ [] ⟨"/src/b.exl"⟩ (by decide) (by decide) (by decide +kernel)).2

end FileTree

end Linewise
