import Linewise.Proofs.Encoding
import Linewise.Proofs.Layout
import Linewise.Proofs.Parser.ProgramRejectionCompleteness
import Linewise.Proofs.ProgramMending

namespace Linewise

open Text Upcoming

theorem Filler.lexable (f : Filler) : f.kind.Lexable := by
  cases f with
  | name => exact ⟨by decide, 'x', [], by decide, by decide +kernel, rfl⟩
  | _ => trivial

theorem Filler.isAssignment_eq (f : Filler) : f.kind.isAssignment = false := by
  cases f <;> rfl

theorem lexable_of_mem_upcoming {source : String} {t : Token}
    (h : .ok t ∈ (Parser.ofSource source).upcoming.map (·.content)) :
    t.kind.Lexable := by
  obtain ⟨i, hi, ht⟩ := List.mem_map.1 h
  obtain ⟨u, v, -, hkeep, hf⟩ := (Lexer.inside_ofText source.toList false).find_of_mem_ahead hi ht
  obtain ⟨_, _, _, _, -, -, hright, -⟩ := Lexer.takes_of_find hf (Lexer.isComment_of_find hf hkeep)
  exact hright.spelling.lexable

theorem sorted_upcoming (source : String) : Sorted (Parser.ofSource source).upcoming := by
  refine (Lexer.pairwise_contents_ahead false (Lexer.ofSource source false)).imp_of_mem ?_
  intro c d hc _ hbefore t u ht hu
  subst ht
  have hordered := (Lexer.inside_ofText source.toList false).ordered_of_mem_ahead hc
  exact ((hbefore t u rfl hu).of_le hordered).le

/-- Kinds written out, each behind a blank, or on a new line if it is marked. -/
def lineUp (parts : List (Bool × TokenKind)) : List Char :=
  parts.flatMap fun p ↦ (if p.1 then '\n' else ' ') :: p.2.lexeme

section

variable {parts : List (Bool × TokenKind)}

theorem atEnd_lineUp (parts : List (Bool × TokenKind)) : AtEnd (lineUp parts) := by
  cases parts with
  | nil => exact nofun
  | cons p parts =>
    intro y hy
    cases hy
    split <;> rfl

theorem Lexer.Faces.ahead_lineUp {s : Lexer} (h : s.Faces (lineUp parts))
    (hk : ∀ p ∈ parts, p.2.Lexable) : ∃ tokens : List Token, tokens.map (·.kind) = parts.map (·.2) ∧
      s.ahead false = marked (parts.map (·.1)) tokens := by
  induction parts generalizing s with
  | nil => exact ⟨[], rfl, h.ahead_nil false⟩
  | cons p parts ih =>
    obtain ⟨hk, hks⟩ := List.forall_mem_cons.1 hk
    obtain ⟨t, ht, hblank⟩ := h.ahead_blank (by split <;> rfl)
    obtain ⟨token, u, hkind, hu, htoken⟩ :=
      Faces.ahead_token ht hk.spelling hk.newline_not_mem (atEnd_lineUp parts)
    obtain ⟨tokens, hkinds, hahead⟩ := ih hu hks
    have hlater : (false || decide ((if p.1 then '\n' else ' ') = '\n')) = p.1 := by
      cases p.1 <;> rfl
    refine ⟨token :: tokens, by rw [List.map_cons, List.map_cons, hkind, hkinds], ?_⟩
    rw [hblank, htoken, hahead, hlater]
    rfl

end

/-- Kinds that can be written out are those of some text with the given line ends, if a line ends in front
of the first one. -/
theorem exists_source {marks : List Bool} {kinds : List TokenKind} (hm : marks.length = kinds.length)
    (hk : ∀ k ∈ kinds, k.Lexable) (hfirst : ∀ mark ∈ marks.head?, mark = true) :
    ∃ (source : String) (tokens : List Token), tokens.map (·.kind) = kinds ∧
      (Parser.ofSource source).upcoming = marked marks tokens := by
  cases kinds with
  | nil =>
    obtain rfl := List.length_eq_zero_iff.1 hm
    obtain ⟨s, hs, hahead⟩ := (Lexer.faces_ofSource [] false).ahead_blank rfl
    exact ⟨String.ofList [], [], rfl, (hahead false).trans (hs.ahead_nil _)⟩
  | cons kind kinds =>
    obtain ⟨mark, marks, rfl⟩ := List.exists_cons_of_length_eq_add_one hm
    obtain rfl := hfirst mark rfl
    have hfaces : Lexer.Faces _ (lineUp ((true :: marks).zip (kind :: kinds))) :=
      Lexer.faces_ofSource (kind.lexeme ++ lineUp (marks.zip kinds)) false
    obtain ⟨tokens, hkinds, hahead⟩ := hfaces.ahead_lineUp fun p hp ↦ hk _ (List.of_mem_zip hp).2
    rw [List.map_snd_zip hm.ge] at hkinds
    rw [List.map_fst_zip hm.le] at hahead
    exact ⟨_, tokens, hkinds, hahead⟩

namespace Upcoming

/-- Whether a line ends in front of the item, and its kind if it is a token. -/
def shape (i : Upcoming) : Bool × Option TokenKind := (i.onLaterLine, i.content.toOption.map (·.kind))

def startsBefore (p : Position) (i : Upcoming) : Bool :=
  i.content.toOption.any fun t ↦ decide (t.span.start.Before p)

variable {p : Position} {xs : List Upcoming} {ts us : List Token}

theorem eq_marked (h : xs.map (·.content) = ts.map .ok) : xs = marked (xs.map (·.onLaterLine)) ts := by
  induction xs generalizing ts with
  | nil =>
    obtain rfl := List.map_eq_nil_iff.1 h.symm
    rfl
  | cons i xs ih =>
    obtain ⟨t, ts, rfl, ht, hts⟩ := List.map_eq_cons_iff.1 h.symm
    obtain ⟨later, content⟩ := i
    obtain rfl : .ok t = content := ht
    exact congrArg (_ :: ·) (ih hts.symm)

theorem map_shape_marked {marks : List Bool} (h : ts.map (·.kind) = us.map (·.kind)) :
    (marked marks ts).map shape = (marked marks us).map shape := by
  have hshape (ts : List Token) : (marked marks ts).map shape =
      List.zipWith (fun mark kind ↦ (mark, some kind)) marks (ts.map (·.kind)) := by
    rw [marked, List.map_zipWith, List.zipWith_map_right]
    rfl
  rw [hshape, hshape, h]

theorem startsBefore_iff {i : Upcoming} :
    startsBefore p i = true ↔ ∃ t : Token, i.content = .ok t ∧ t.span.start.Before p := by
  obtain ⟨later, _ | t⟩ := i
  · simp [startsBefore, Except.toOption]
  · simp [startsBefore, Except.toOption]

end Upcoming

/-- Nothing is wrong with the text but the target of an assignment, if anything is. -/
theorem parse_of_passesProgram {source : String} {f : Failure SyntaxError}
    (h : PassesProgram Parser.maxNesting (Parser.ofSource source).upcoming) (hf : parse source = .error f) :
    Assigns (Parser.ofSource source).upcoming ∧
      ∃ place, f = .rejected (.grammar ⟨.invalidAssignmentTarget, place⟩) := by
  cases h with
  | reads hr hn =>
    rw [parse_of_readsProgram hr hn] at hf
    cases hf
  | target h =>
    rw [parse_rejected_iff.2 h] at hf
    cases hf
    exact ⟨h.assigns rfl, _, rfl⟩

theorem marked_append_here {marks : List Bool} {ts us : List Token} {fillers : List Filler}
    (hm : marks.length = ts.length) (hu : us.length = fillers.length) :
    marked (marks ++ fillers.map fun _ ↦ false) (ts ++ us) = marked marks ts ++ here us [] := by
  have hfalse : fillers.map (fun _ ↦ false) = us.map fun _ ↦ false := by
    rw [List.map_const', List.map_const', hu]
  rw [marked, List.zipWith_append hm, hfalse, List.zipWith_map_left, List.zipWith_self, here, List.append_nil]
  rfl

/-- What is picked from a list is its front, if with each element all those before it are picked. -/
theorem filter_prefix {α : Type} {p : α → Bool} {l : List α}
    (h : l.Pairwise fun a b ↦ p b = true → p a = true) : l.filter p <+: l := by
  induction l with
  | nil => exact List.prefix_rfl
  | cons a l ih =>
    obtain ⟨ha, hl⟩ := List.pairwise_cons.1 h
    by_cases hp : p a = true
    · rw [List.filter_cons_of_pos hp]
      exact (List.prefix_cons_inj a).2 (ih hl)
    · have hnone : l.filter p = [] := List.filter_eq_nil_iff.2 fun b hb hpb ↦ hp (ha b hb hpb)
      rw [List.filter_cons_of_neg hp, hnone]
      exact List.nil_prefix

section

variable {source : String} {e : GrammarError} {n : Nat} {fillers : List Filler} {xs : List Upcoming}
  {ts : List Token} {rest : List (Except LexicalError Token)}

theorem map_content_take (hts : xs.map (·.content) = ts.map .ok ++ rest) :
    (xs.take ts.length).map (·.content) = ts.map .ok := by
  rw [List.map_take, hts, List.take_left' (List.length_map _)]

theorem filter_startsBefore {p : Position} (hx : Sorted xs) (hts : xs.map (·.content) = ts.map .ok ++ rest)
    (hrest : ∀ t : Token, .ok t ∈ rest → p ≤ t.span.start) :
    xs.filter (startsBefore p) <+: xs.take ts.length := by
  have htake := map_content_take hts
  have hdrop : (xs.drop ts.length).map (·.content) = rest := by
    rw [List.map_drop, hts, List.drop_left' (List.length_map _)]
  have hnone : (xs.drop ts.length).filter (startsBefore p) = [] := by
    refine List.filter_eq_nil_iff.2 fun i hi hbefore ↦ ?_
    obtain ⟨t, ht, hbefore⟩ := startsBefore_iff.1 hbefore
    refine hbefore.not_le (hrest t ?_)
    rw [← hdrop, ← ht]
    exact List.mem_map_of_mem hi
  rw [← List.take_append_drop ts.length xs, List.filter_append, hnone, List.append_nil,
    List.take_append_drop]
  have hsorted := (List.pairwise_map.1 hx).take (i := ts.length)
  refine filter_prefix (hsorted.imp_of_mem fun {i j} hi _ hle hj ↦ ?_)
  obtain ⟨u, hu, hbefore⟩ := startsBefore_iff.1 hj
  have hi := List.mem_map_of_mem (f := (·.content)) hi
  rw [htake] at hi
  obtain ⟨t, -, ht⟩ := List.mem_map.1 hi
  exact startsBefore_iff.2 ⟨t, ht.symm, hbefore.of_le (hle t u ht.symm hu)⟩

theorem EndsLine.head?_take (h : EndsLine xs) (k : Nat) :
    ∀ mark ∈ ((xs.take k).map (·.onLaterLine)).head?, mark = true := by
  intro mark hmark
  rw [List.head?_map] at hmark
  obtain ⟨i, hi, rfl⟩ := Option.map_eq_some_iff.1 hmark
  rw [List.head?_take] at hi
  exact h i (Option.ite_none_left_eq_some.1 hi).2

/-- Where tokens are put in, no assignment is. -/
theorem assigns_of_mended {marks : List Bool} {us vs : List Token} (hm : marks.length = us.length)
    (hts : xs.map (·.content) = ts.map .ok ++ rest) (hus : us.map (·.kind) = ts.map (·.kind))
    (hvs : vs.map (·.kind) = fillers.map Filler.kind) (h : Assigns (marked marks us ++ here vs [])) :
    Assigns xs := by
  obtain ⟨u, hu, hassign⟩ := h
  have hkind : u.kind ∈ ts.map (·.kind) ++ fillers.map Filler.kind := by
    rw [List.map_append, map_content_marked hm, here, List.append_nil, List.map_map] at hu
    rw [← hus, ← hvs, ← List.map_append]
    refine List.mem_map_of_mem ?_
    simpa [givenBack] using hu
  rcases List.mem_append.1 hkind with hk | hk
  · obtain ⟨t, ht, hk⟩ := List.mem_map.1 hk
    refine ⟨t, ?_, hk ▸ hassign⟩
    rw [hts]
    exact List.mem_append_left _ (List.mem_map_of_mem ht)
  · obtain ⟨f, -, hk⟩ := List.mem_map.1 hk
    rw [← hk, f.isAssignment_eq] at hassign
    cases hassign

/-- Mended, what lies ahead is what lies ahead in some text. -/
theorem MendsProgram.exists_source (h : MendsProgram Parser.maxNesting e xs n fillers) (hends : EndsLine xs)
    (hts : xs.map (·.content) = ts.map .ok ++ rest) (hn : rest.length = n)
    (hlexable : ∀ t ∈ ts, t.kind.Lexable) (hnodup : (ts.map Token.span).Nodup) :
    ∃ other : String, PassesProgram Parser.maxNesting (Parser.ofSource other).upcoming ∧
      (Assigns (Parser.ofSource other).upcoming → Assigns xs) ∧
      (xs.take ts.length).map shape <+: (Parser.ofSource other).upcoming.map shape := by
  have htake := map_content_take hts
  have hxs : xs.length = ts.length + n := by
    have hl := congrArg List.length hts
    rwa [List.length_append, List.length_map, List.length_map, hn] at hl
  have hmarked := eq_marked htake
  have hhead := hends.head?_take ts.length
  have hlength : ((xs.take ts.length).map (·.onLaterLine)).length = ts.length := by
    rw [List.length_map, ← List.length_map (·.content), htake, List.length_map]
  generalize (xs.take ts.length).map (·.onLaterLine) = marks at hmarked hhead hlength
  have hkinds : ∀ k ∈ ts.map (·.kind) ++ fillers.map Filler.kind, k.Lexable := by
    intro k hk
    rcases List.mem_append.1 hk with hk | hk
    · obtain ⟨t, ht, rfl⟩ := List.mem_map.1 hk
      exact hlexable t ht
    · obtain ⟨f, -, rfl⟩ := List.mem_map.1 hk
      exact f.lexable
  -- A line has to end in front of the first token of a text, be it a token that is kept or one that is put in.
  have hfirst : ∀ mark ∈ (marks ++ fillers.map fun _ ↦ false).head?, mark = true := by
    rcases h.kept with hlt | rfl
    · have hne : marks ≠ [] := List.length_pos_iff.1 (by omega)
      rwa [List.head?_append_of_ne_nil _ hne]
    · rwa [List.map_nil, List.append_nil]
  obtain ⟨other, tokens, htokens, hother⟩ := Linewise.exists_source (by simp [hlength]) hkinds hfirst
  obtain ⟨us, vs, rfl, hus, hvs⟩ := List.map_eq_append_iff.1 htokens
  have hlengths : us.length = ts.length ∧ vs.length = fillers.length :=
    ⟨by simpa using congrArg List.length hus, by simpa using congrArg List.length hvs⟩
  rw [marked_append_here (hlength.trans hlengths.1.symm) hlengths.2] at hother
  -- The tokens of the new text are the old ones in other places, since no two of those have the same place.
  obtain ⟨g, hg⟩ := exists_relocation hus.symm hnodup
  have hmend : mend g n (here vs []) xs = marked marks us ++ here vs [] := by
    rw [mend, replaceEnd, List.length_map, hxs, Nat.add_sub_cancel, ← List.map_take, hmarked,
      map_relocate_marked, hg]
  refine ⟨other, ?_, ?_, ?_⟩
  · rw [hother, ← hmend]
    exact h.passes g vs hvs
  · rw [hother]
    exact assigns_of_mended (hlength.trans hlengths.1.symm) hts hus hvs
  · rw [hother, hmarked, map_shape_marked hus.symm, List.map_append]
    exact List.prefix_append _ _

/-- Nothing in front of an error is wrong, the target of an assignment apart: the tokens that start in front
of it are the first ones of another text, with the same line ends between them, and that text is accepted
unless it assigns to what is no variable; if there is no assignment, it is accepted. -/
theorem nothing_wrong_before_error {span : Span} (h : parse source = .error (.rejected (.grammar e)))
    (hspan : e.span = some span) : ∃ other : String,
      (∀ f, parse other = .error f → Assigns (Parser.ofSource source).upcoming ∧
        ∃ place, f = .rejected (.grammar ⟨.invalidAssignmentTarget, place⟩)) ∧
      ((Parser.ofSource source).upcoming.filter (startsBefore span.start)).map shape <+:
        (Parser.ofSource other).upcoming.map shape := by
  obtain ⟨n, fillers, hmends⟩ := (parse_rejected_iff.1 h).mends (sorted_upcoming source)
  obtain ⟨ts, rest, hts, hn, hspared⟩ := hmends.spares
  have hinside := Lexer.inside_ofText source.toList false
  have hlexable : ∀ t ∈ ts, t.kind.Lexable := by
    intro t ht
    have hmem : .ok t ∈ (Parser.ofSource source).upcoming.map (·.content) := by
      rw [hts]
      exact List.mem_append_left _ (List.mem_map_of_mem ht)
    exact lexable_of_mem_upcoming hmem
  have hends := Lexer.endsLine_ofText source.toList false
  obtain ⟨other, hpasses, hassigns, hprefix⟩ :=
    hmends.exists_source hends hts hn hlexable (hinside.successive (hts ▸ List.sublist_append_left _ _)).nodup_spans
  refine ⟨other, fun f hf ↦ (parse_of_passesProgram hpasses hf).imp_left hassigns, .trans ?_ hprefix⟩
  exact (filter_startsBefore (sorted_upcoming source) hts fun t ht ↦ hspared span hspan t ht).map _

/-- The target of an assignment is not looked at before the value has been read. -/
example : (parse "1 = )").map (fun _ ↦ ()) =
    .error (.rejected (.grammar ⟨.expected "expression" "')'", some (.onLine 1 4 4)⟩)) := by decide +kernel

end

end Linewise
