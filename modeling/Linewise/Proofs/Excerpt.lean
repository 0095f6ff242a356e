import Linewise.Proofs.Coverage

namespace Linewise

open Text

namespace Position

variable {p : Position} {a b : List Char}

def after (p : Position) (text : List Char) : Position :=
  text.foldl (fun p c ↦ if c = '\n' then ⟨p.line + 1, 0⟩ else ⟨p.line, p.column + 1⟩) p

theorem after_append (p : Position) (a b : List Char) : p.after (a ++ b) = (p.after a).after b :=
  List.foldl_append

theorem after_cons_of_ne {c : Char} (h : c ≠ '\n') (p : Position) (a : List Char) :
    p.after (c :: a) = (⟨p.line, p.column + 1⟩ : Position).after a := by
  rw [after, List.foldl_cons, if_neg h]
  rfl

theorem after_of_no_newline (h : '\n' ∉ a) (p : Position) : p.after a = ⟨p.line, p.column + a.length⟩ := by
  induction a generalizing p with
  | nil => rfl
  | cons c a ih =>
    obtain ⟨hc, ha⟩ := not_or.1 (mt List.mem_cons.2 h)
    rw [after_cons_of_ne (Ne.symm hc), ih ha, List.length_cons, Nat.add_right_comm, Nat.add_assoc]

theorem after_append_newline (h : '\n' ∉ a) (p : Position) (b : List Char) :
    p.after (a ++ '\n' :: b) = (⟨p.line + 1, 0⟩ : Position).after b := by
  rw [after_append, after_of_no_newline h]
  rfl

theorem le_after (p : Position) (text : List Char) : p ≤ p.after text := by
  induction text generalizing p with
  | nil => exact le_refl p
  | cons c text ih =>
    refine le_trans ?_ (ih _)
    dsimp only
    split
    · exact .inl (Nat.lt_succ_self _)
    · exact .inr ⟨rfl, Nat.le_succ _⟩

end Position

namespace Text

variable {a b text first : List Char} {more : List (List Char)} {x y : Char}

theorem ne_newline_of_isTerminator (h : isTerminator y = false) : y ≠ '\n' := by
  rintro rfl
  cases h

theorem dropTerminator_append (hy : isTerminator y = false) (a b : List Char) :
    dropTerminator (a ++ y :: b) = a ++ y :: dropTerminator b := by
  have hnewline := ne_newline_of_isTerminator hy
  have hreturn : y ≠ '\r' := by
    rintro rfl
    cases hy
  rcases List.eq_nil_or_concat b with rfl | ⟨body, z, rfl⟩
  · rw [dropTerminator, if_neg (by simpa using hnewline)]
    rfl
  rw [List.concat_eq_append]
  by_cases hz : z = '\n'
  · subst hz
    have hassoc : a ++ y :: (body ++ ['\n']) = (a ++ y :: body) ++ ['\n'] := by simp
    rw [hassoc, dropTerminator_append_newline, dropTerminator_append_newline]
    rcases List.eq_nil_or_concat body with rfl | ⟨body, z, rfl⟩
    · rw [List.getLast?_concat, if_neg (by simpa using hreturn), if_neg (by simp)]
    · have hassoc : a ++ y :: body.concat z = (a ++ y :: body) ++ [z] := by simp
      rw [hassoc, List.concat_eq_append, List.getLast?_concat, List.getLast?_concat, List.dropLast_concat,
        List.dropLast_concat]
      split
      · rfl
      · simp
  · have hlast : (a ++ y :: (body ++ [z])).getLast? = some z := by
      rw [← List.cons_append, ← List.append_assoc, List.getLast?_concat]
    have hdrop {l : List Char} (hl : l.getLast? = some z) : dropTerminator l = l := by
      rw [dropTerminator, if_neg (by simpa [hl] using hz)]
    rw [hdrop hlast, hdrop List.getLast?_concat]

theorem pieces_append (h : '\n' ∉ a) (hp : pieces b = first :: more) :
    pieces (a ++ b) = (a ++ first) :: more := by
  induction a with
  | nil => exact hp
  | cons c a ih =>
    obtain ⟨hc, ha⟩ := not_or.1 (mt List.mem_cons.2 h)
    rw [List.cons_append, pieces_cons, ih ha, addInFront, if_neg (Ne.symm hc)]
    rfl

theorem exists_pieces_cons (hy : y ≠ '\n') (b : List Char) :
    ∃ first more, pieces (y :: b) = (y :: first) :: more := by
  rw [pieces_cons, addInFront.eq_def, if_neg hy]
  cases pieces b with
  | nil => exact ⟨[], [], rfl⟩
  | cons first more => exact ⟨first, more, rfl⟩

theorem exists_firstLine_append (hy : isTerminator y = false) (b : List Char) : ∃ first more,
    ∀ a, '\n' ∉ a → lines (a ++ y :: b) = (a ++ y :: first) :: more := by
  obtain ⟨first, more, hp⟩ := exists_pieces_cons (ne_newline_of_isTerminator hy) b
  refine ⟨dropTerminator first, more.map dropTerminator, fun a ha ↦ ?_⟩
  rw [lines, pieces_append ha hp, List.map_cons, dropTerminator_append hy]

/-- The lines of a text from one of its characters on are those of the whole text, but for the part of the
first line and the lines before it that are missing. -/
theorem lines_append (hx : isTerminator x = false) (a b : List Char) (n : Nat) :
    ∃ front before first more, lines (a ++ x :: b) = front ++ (before ++ first) :: more ∧
      lines (x :: b) = first :: more ∧ (⟨n, 0⟩ : Position).after a = ⟨n + front.length, before.length⟩ := by
  by_cases hn : '\n' ∈ a
  · obtain ⟨line, rest, ha, hline⟩ := List.eq_append_cons_of_mem hn
    have hlt : rest.length < a.length := by
      rw [ha, List.length_append, List.length_cons]
      omega
    obtain ⟨front, before, first, more, hlines, hfirst, hafter⟩ := lines_append hx rest b (n + 1)
    refine ⟨dropTerminator (line ++ ['\n']) :: front, before, first, more, ?_, hfirst, ?_⟩
    · rw [ha, List.append_assoc, List.cons_append, lines, pieces_append_newline hline, List.map_cons, ← lines,
        hlines]
      rfl
    · rw [ha, Position.after_append_newline hline, hafter, List.length_cons, Nat.add_right_comm, Nat.add_assoc]
  · obtain ⟨first, more, h⟩ := exists_firstLine_append hx b
    exact ⟨[], a, x :: first, more, h a hn, h [] List.not_mem_nil, by
      rw [Position.after_of_no_newline hn, List.length_nil, Nat.zero_add, Nat.add_zero]⟩
termination_by a.length

/-- Some lines and the same lines cut off at the place `e`, when the first line begins at the given place. -/
inductive Cropped (e : Position) : Position → List (List Char) → List (List Char) → Prop
  | last {p : Position} (line rest : List Char) (more : List (List Char)) :
      ⟨p.line, p.column + line.length⟩ = e → Cropped e p ((line ++ rest) :: more) [line]
  | cons {p : Position} (line : List Char) {ls ls' : List (List Char)} :
      Cropped e ⟨p.line + 1, 0⟩ ls ls' → Cropped e p (line :: ls) (line :: ls')

theorem lines_cropped (hy : isTerminator y = false) (v b : List Char) (p : Position) :
    Cropped (p.after (v ++ [y])) p (lines (v ++ y :: b)) (lines (v ++ [y])) := by
  by_cases hn : '\n' ∈ v
  · obtain ⟨line, rest, hv, hline⟩ := List.eq_append_cons_of_mem hn
    have hlt : rest.length < v.length := by
      rw [hv, List.length_append, List.length_cons]
      omega
    have hcropped := lines_cropped hy rest b ⟨p.line + 1, 0⟩
    rw [hv, List.append_assoc, List.append_assoc, List.cons_append, List.cons_append,
      Position.after_append_newline hline, lines, lines, pieces_append_newline hline,
      pieces_append_newline hline, List.map_cons, List.map_cons]
    exact .cons _ hcropped
  · have hw : '\n' ∉ v ++ [y] := by simp [hn, Ne.symm (ne_newline_of_isTerminator hy)]
    obtain ⟨first, more, h⟩ := exists_firstLine_append hy b
    rw [h v hn, lines_of_no_newline hw (by simp), Position.after_of_no_newline hw]
    have hassoc : v ++ y :: first = (v ++ [y]) ++ first := by simp
    rw [hassoc]
    exact .last _ _ _ rfl
termination_by v.length

theorem after_take {text : List Char} {n : Nat} (h : n < (pieces text).length) (k : Nat) :
    (⟨k, 0⟩ : Position).after ((pieces text).take n).flatten = ⟨k + n, 0⟩ := by
  induction n generalizing text k with
  | zero => rfl
  | succ n ih =>
    by_cases hn : '\n' ∈ text
    · obtain ⟨line, rest, rfl, hline⟩ := List.eq_append_cons_of_mem hn
      rw [pieces_append_newline hline] at h ⊢
      rw [List.take_succ_cons, List.flatten_cons, List.append_assoc, List.singleton_append,
        Position.after_append_newline hline, ih (by simpa using h), Nat.add_right_comm, Nat.add_assoc]
    · by_cases hne : text = []
      · subst hne
        cases h
      · rw [pieces_of_no_newline hn hne] at h
        simp at h

end Text

namespace Position

variable {p : Position} {source : List Char} {y : Char}

/-- The text in front of a character leads to its place. -/
theorem textBefore_eq (hc : charAt? (lines source) p = some y) (hy : isTerminator y = false) :
    p.charAt source = some y ∧ (∃ rest, source = p.textBefore source ++ y :: rest) ∧
      (⟨1, 0⟩ : Position).after (p.textBefore source) = p := by
  obtain ⟨_ | n, column⟩ := p
  · cases column <;> cases hc
  rw [charAt?, List.getElem?_cons_succ] at hc
  obtain ⟨row, hrow, hget⟩ := Option.bind_eq_some_iff.1 hc
  rw [lines, List.getElem?_map] at hrow
  obtain ⟨piece, hpiece, rfl⟩ := Option.map_eq_some_iff.1 hrow
  obtain ⟨hnewline, t, ht⟩ := dropTerminator_append_of_mem (List.mem_of_getElem? hpiece)
  obtain ⟨hlt, hget⟩ := List.getElem?_eq_some_iff.1 hget
  obtain ⟨before, after, hrow, hlength⟩ : ∃ before after, dropTerminator piece = before ++ y :: after ∧
      before.length = column := by
    refine ⟨(dropTerminator piece).take column, (dropTerminator piece).drop (column + 1), ?_,
      List.length_take_of_le (Nat.le_of_lt hlt)⟩
    rw [← hget, ← List.drop_eq_getElem_cons hlt, List.take_append_drop]
  subst hlength
  rw [hrow] at ht hnewline
  have hlineOf : (⟨n + 1, before.length⟩ : Position).lineOf source =
      some (before ++ y :: trimTerminators (after ++ t)) := by
    rw [lineOf, if_neg (Nat.succ_ne_zero n), Nat.add_sub_cancel, hpiece, Option.map_some, ht,
      List.append_assoc, List.cons_append, trimTerminators_append hy]
  have htext : (⟨n + 1, before.length⟩ : Position).textBefore source =
      ((pieces source).take n).flatten ++ before := by
    simp only [textBefore, hlineOf, Nat.add_sub_cancel, List.take_left]
  refine ⟨?_, ⟨after ++ t ++ ((pieces source).drop (n + 1)).flatten, ?_⟩, ?_⟩
  · simp only [charAt, hlineOf, Option.bind_eq_bind, Option.bind_some, List.getElem?_append_right
      (Nat.le_refl _), Nat.sub_self, List.getElem?_cons_zero]
  · conv => lhs; rw [eq_flatten_of_getElem?_pieces hpiece]
    rw [htext, ht]
    simp only [List.append_assoc, List.cons_append]
  · have hbefore : '\n' ∉ before := fun hmem ↦ hnewline (List.mem_append_left _ hmem)
    rw [htext, after_append, after_take (List.getElem?_eq_some_iff.1 hpiece).1, after_of_no_newline hbefore,
      Nat.add_comm 1, Nat.zero_add]

/-- What stands between two characters leads from the place of the one to that of the other. -/
theorem exists_between {q : Position} {x : Char} (hx : charAt? (lines source) p = some x)
    (hxt : isTerminator x = false) (hy : charAt? (lines source) q = some y) (hyt : isTerminator y = false)
    (hle : p ≤ q) : ∃ v rest rest', source = p.textBefore source ++ x :: rest ∧ x :: rest = v ++ y :: rest' ∧
      q.textBefore source = p.textBefore source ++ v ∧ p.after v = q := by
  obtain ⟨-, ⟨rest, hrest⟩, hp⟩ := textBefore_eq hx hxt
  obtain ⟨-, ⟨rest', hrest'⟩, hq⟩ := textBefore_eq hy hyt
  generalize p.textBefore source = a at hrest hp
  generalize q.textBefore source = b at hrest' hq
  obtain ⟨v, rfl⟩ : ∃ v, b = a ++ v := by
    rcases List.append_eq_append_iff.1 (hrest.symm.trans hrest') with ⟨v, hv, -⟩ | ⟨v, hv, hcons⟩
    · exact ⟨v, hv⟩
    · cases v with
      | nil => exact ⟨[], by rw [hv, List.append_nil, List.append_nil]⟩
      | cons z v =>
        -- the second character would stand in front of the first one
        obtain rfl := (List.cons.inj hcons).1
        have hafter : (⟨q.line, q.column + 1⟩ : Position) ≤ p := by
          rw [← hp, hv, after_append, hq, after_cons_of_ne (ne_newline_of_isTerminator hyt)]
          exact le_after _ v
        rw [le_def] at hafter hle
        dsimp only at hafter
        omega
  rw [hrest, List.append_assoc] at hrest'
  refine ⟨v, rest, rest', hrest, List.append_cancel_left hrest', rfl, ?_⟩
  rw [← hp, ← after_append, hq]

end Position

/-- The bytes of a span are an excerpt `w` of the text, and its lines are those of the text between the two
ends of the span. -/
theorem Span.exists_excerpt {source : List Char} {s : Span} {x y : Char}
    (hx : charAt? (lines source) s.start = some x) (hxt : isTerminator x = false)
    (hy : charAt? (lines source) s.stop = some y) (hyt : isTerminator y = false) (hle : s.start ≤ s.stop) :
    ∃ w, (s.toBytes source).Holds source w ∧ ∃ front before first more,
      lines source = front ++ (before ++ first) :: more ∧ s.start = ⟨front.length + 1, before.length⟩ ∧
        Cropped ⟨s.stop.line, s.stop.column + 1⟩ s.start (first :: more) (lines w) := by
  obtain ⟨v, rest, rest', hsource, hsplit, hbefore, hv⟩ := Position.exists_between hx hxt hy hyt hle
  obtain ⟨hchar, -, -⟩ := Position.textBefore_eq hy hyt
  obtain ⟨-, -, hstart⟩ := Position.textBefore_eq hx hxt
  have hw : s.start.after (v ++ [y]) = ⟨s.stop.line, s.stop.column + 1⟩ := by
    rw [Position.after_append, hv, Position.after_cons_of_ne (ne_newline_of_isTerminator hyt)]
    rfl
  have hbytes : s.toBytes source = ⟨byteLength (s.start.textBefore source), byteLength (v ++ [y])⟩ := by
    simp only [Span.toBytes, Position.byteStart, Position.byteStop, hbefore, hchar, Option.map_some,
      Option.getD_some, byteLength_append, byteLength]
    congr 1
    omega
  refine ⟨v ++ [y], ⟨s.start.textBefore source, rest', ?_, ?_, ?_⟩, ?_⟩
  · conv => lhs; rw [hsource, hsplit]
    simp
  · rw [hbytes]
  · rw [hbytes]
  · obtain ⟨front, before, first, more, hlines, hfirst, hafter⟩ :=
      lines_append hxt (s.start.textBefore source) rest 1
    rw [hstart, Nat.add_comm] at hafter
    rw [← hsource] at hlines
    refine ⟨front, before, first, more, hlines, hafter, ?_⟩
    rw [← hfirst, hsplit, ← hw]
    exact lines_cropped hyt v rest' s.start

end Linewise
