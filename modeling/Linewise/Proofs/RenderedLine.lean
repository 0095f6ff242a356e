import Linewise.Proofs.ByteRanges
import Linewise.Proofs.Excerpt
import Linewise.Proofs.Parser.ProgramRejectionCompleteness
import Linewise.Render

namespace Linewise

open Text Render

namespace Text

variable {a b piece text : List Char}

/-- The number of carriage returns with no line feed right behind. -/
def loneReturns : List Char → Nat
  | [] => 0
  | c :: cs => (if c = '\r' ∧ cs.head? ≠ some '\n' then 1 else 0) + loneReturns cs

/-- The number of line ends: carriage returns, line feeds, and both in a row. -/
def lineEnds (text : List Char) : Nat := text.count '\n' + loneReturns text

/-- The text is not cut between a carriage return and a line feed. -/
def Unbroken (a b : List Char) : Prop := a.getLast? = some '\r' → b.head? ≠ some '\n'

theorem loneReturns_append (h : Unbroken a b) : loneReturns (a ++ b) = loneReturns a + loneReturns b := by
  induction a with
  | nil => exact (Nat.zero_add _).symm
  | cons c a ih =>
    cases a with
    | nil =>
      have hc : c = '\r' → b.head? ≠ some '\n' := fun hc ↦ h (by rw [hc]; rfl)
      by_cases hr : c = '\r' <;> simp [loneReturns, hr, hc]
    | cons d a =>
      rw [List.cons_append, loneReturns, ih fun hlast ↦ h (List.getLast?_cons_cons.trans hlast), ← Nat.add_assoc]
      rfl

theorem lineEnds_append (h : Unbroken a b) : lineEnds (a ++ b) = lineEnds a + lineEnds b := by
  rw [lineEnds, List.count_append, loneReturns_append h, lineEnds, lineEnds]
  omega

theorem eq_of_isTerminator {c : Char} (hc : isTerminator c = true) : c = '\n' ∨ c = '\r' := by
  rwa [isTerminator, Bool.or_eq_true, beq_iff_eq, beq_iff_eq] at hc

theorem lineEnds_terminator {c : Char} (hc : isTerminator c = true) : lineEnds [c] = 1 := by
  rcases eq_of_isTerminator hc with rfl | rfl <;> rfl

theorem lineEnds_of_ne {c : Char} (hc : isTerminator c = false) : lineEnds [c] = 0 := by
  rw [isTerminator, Bool.or_eq_false_iff, beq_eq_false_iff_ne, beq_eq_false_iff_ne] at hc
  simp [lineEnds, loneReturns, hc]

theorem byteLength_terminator {c : Char} (hc : isTerminator c = true) : byteLength [c] = 1 := by
  rcases eq_of_isTerminator hc with rfl | rfl <;> rfl

theorem eq_nil_of_byteLength (h : byteLength a = 0) : a = [] := by
  cases a with
  | nil => rfl
  | cons c a =>
    have := c.utf8Size_pos
    rw [byteLength] at h
    omega

theorem newline_not_mem_trimTerminators (h : piece ∈ pieces text) : '\n' ∉ trimTerminators piece := by
  rw [trimTerminators_dropTerminator h]
  exact fun hmem ↦ (dropTerminator_append_of_mem h).1 ((isPrefix_trimTerminators _).subset hmem)

theorem getLast?_trimTerminators_ne : (trimTerminators piece).getLast? ≠ some '\r' := by
  intro h
  have hne : trimTerminators piece ≠ [] := by
    rintro hnil
    rw [hnil] at h
    cases h
  rw [List.getLast?_eq_some_getLast hne] at h
  have hlast := List.rdropWhile_last_not isTerminator piece hne
  exact hlast ((congrArg isTerminator (Option.some.inj h)).trans rfl)

theorem getLast?_flatten_take_ne {n : Nat} (h : n < (pieces text).length) :
    ((pieces text).take n).flatten.getLast? ≠ some '\r' := by
  intro hlast
  obtain ⟨body, hbody⟩ := List.getLast?_eq_some_iff.1 hlast
  have hafter := after_take h 1
  rw [hbody, Position.after_append, Position.after_cons_of_ne (by decide)] at hafter
  exact absurd (congrArg Position.column hafter) (Nat.succ_ne_zero _)

theorem Unbroken.take (hn : '\n' ∉ a) (hr : a.getLast? ≠ some '\r') (k : Nat) (b : List Char) :
    Unbroken (a.take k) (a.drop k ++ b) := by
  intro hlast hhead
  cases hdrop : a.drop k with
  | nil =>
    have htake : a.take k = a := by rw [← List.append_nil (a.take k), ← hdrop, List.take_append_drop]
    exact hr (htake ▸ hlast)
  | cons c rest =>
    rw [hdrop] at hhead
    obtain rfl := Option.some.inj hhead
    exact hn (List.mem_of_mem_drop (hdrop ▸ List.mem_cons_self))

theorem Unbroken.of_append {rest : List Char} (h : Unbroken a (b ++ rest)) : Unbroken a b := by
  intro hlast hhead
  exact h hlast (by rw [List.head?_append, hhead, Option.some_or])

theorem Unbroken.of_append_left {front : List Char} (h : Unbroken (front ++ a) b) : Unbroken a b := by
  intro hlast
  exact h (by rw [List.getLast?_append, hlast, Option.some_or])

theorem Unbroken.append {front : List Char} (hr : front.getLast? ≠ some '\r') (h : Unbroken a b) :
    Unbroken (front ++ a) b := by
  intro hlast
  rw [List.getLast?_append, Option.or_eq_some_iff] at hlast
  rcases hlast with hlast | ⟨-, hlast⟩
  · exact h hlast
  · exact absurd hlast hr

end Text

namespace Position

variable {p : Position} {source piece : List Char} {n : Nat}

theorem line_after (p : Position) (text : List Char) : (p.after text).line = p.line + text.count '\n' := by
  induction text generalizing p with
  | nil => rfl
  | cons c text ih =>
    rw [after, List.foldl_cons, ← after, ih, List.count_cons]
    by_cases hc : c = '\n' <;> simp [hc, Nat.add_comm, Nat.add_left_comm]

theorem exists_piece_of_charAt? (h : (charAt? (lines source) p).isSome = true) :
    ∃ n piece, p.line = n + 1 ∧ (pieces source)[n]? = some piece := by
  obtain ⟨_ | n, column⟩ := p
  · cases column <;> cases h
  · obtain ⟨c, hc⟩ := Option.isSome_iff_exists.1 h
    obtain ⟨line, hline, -⟩ := Option.bind_eq_some_iff.1 hc
    rw [List.getElem?_cons_succ, lines, List.getElem?_map] at hline
    obtain ⟨piece, hpiece, -⟩ := Option.map_eq_some_iff.1 hline
    exact ⟨n, piece, rfl, hpiece⟩

/-- The text in front of a place is not cut off inside a terminator, and it holds the line feeds of the lines
in front of the place. -/
theorem unbroken_textBefore (hp : p.line = n + 1) (hpiece : (pieces source)[n]? = some piece) :
    ∃ rest, source = p.textBefore source ++ rest ∧ Unbroken (p.textBefore source) rest ∧
      p.line = 1 + (p.textBefore source).count '\n' := by
  obtain ⟨t, ht⟩ := isPrefix_trimTerminators piece
  have hnewline := newline_not_mem_trimTerminators (List.mem_of_getElem? hpiece)
  have hlt := (List.getElem?_eq_some_iff.1 hpiece).1
  rw [textBefore_of_piece hp hpiece]
  refine ⟨(trimTerminators piece).drop p.column ++ (t ++ ((pieces source).drop (n + 1)).flatten), ?_,
    .append (getLast?_flatten_take_ne hlt) (.take hnewline getLast?_trimTerminators_ne p.column _), ?_⟩
  · conv => lhs; rw [eq_flatten_of_getElem?_pieces hpiece, ← ht, ← List.take_append_drop p.column
      (trimTerminators piece)]
    simp only [List.append_assoc]
  · have hline := line_after ⟨1, 0⟩ ((pieces source).take n).flatten
    rw [after_take hlt] at hline
    rw [hp, List.count_append, List.count_eq_zero_of_not_mem fun h ↦ hnewline (List.take_subset _ _ h),
      Nat.add_zero]
    exact (Nat.add_comm n 1).trans hline

end Position

namespace Render.Window.Search

variable {range : ByteRange} {n : Nat} {s : Search} {r : Search × Bool} {w a rest : List Char}

section

variable (range : ByteRange) (n last : Nat) (s : Search)

theorem advance_firstLine : (advance range n last s).1.firstLine = s.firstLine := by
  unfold advance
  dsimp only
  split <;> rfl

theorem advance_before : (advance range n last s).1.before = s.before := by
  unfold advance
  dsimp only
  split <;> rfl

theorem advance_offset : (advance range n last s).1.offset = last + 1 := by
  unfold advance
  dsimp only
  split <;> rfl

end

theorem stop_le_of_advance {last : Nat} (h : (advance range n last s).2 = true) : range.stop ≤ last + 1 := by
  unfold advance at h
  dsimp only at h
  split at h
  · omega
  · cases h

inductive Passes (range : ByteRange) (n : Nat) (s : Search) : List Char → List Char → Search × Bool → Prop
  | pair {rest : List Char} : Passes range n s ['\r', '\n'] rest (s.lineEnd range n 2)
  | terminator {c : Char} {rest : List Char} : isTerminator c = true →
      (c = '\r' → rest.head? ≠ some '\n') → Passes range n s [c] rest (s.lineEnd range n 1)
  | char {c : Char} {rest : List Char} : isTerminator c = false →
      Passes range n s [c] rest (s.char range n c.utf8Size)

theorem run_cons (range : ByteRange) (n : Nat) (c : Char) (cs : List Char) (s : Search) :
    ∃ w rest r, c :: cs = w ++ rest ∧ Passes range n s w rest r ∧
      run range n (c :: cs) s = if r.2 then r.1 else run range n rest r.1 := by
  by_cases hpair : c = '\r' ∧ cs.head? = some '\n'
  · obtain ⟨rfl, hhead⟩ := hpair
    obtain ⟨rest, rfl⟩ := List.head?_eq_some_iff.1 hhead
    exact ⟨['\r', '\n'], rest, _, rfl, .pair, run.eq_2 range n s rest⟩
  have hlone : c = '\r' → cs.head? ≠ some '\n' := fun hc hhead ↦ hpair ⟨hc, hhead⟩
  have hrun := run.eq_3 range n s c cs fun rest hc hrest ↦ hlone hc (by rw [hrest]; rfl)
  have hbool : (decide (c = '\r') || decide (c = '\n')) = isTerminator c := by
    rw [isTerminator, Bool.or_comm]
    rfl
  rw [hbool] at hrun
  cases hc : isTerminator c with
  | true =>
    rw [hc, if_pos rfl] at hrun
    exact ⟨[c], cs, _, rfl, .terminator hc hlone, hrun⟩
  | false =>
    rw [hc, if_neg Bool.false_ne_true] at hrun
    exact ⟨[c], cs, _, rfl, .char hc, hrun⟩

namespace Passes

theorem unbroken (h : Passes range n s w rest r) : Unbroken w rest := by
  cases h with
  | pair => exact fun h ↦ nomatch h
  | terminator _ hlone => exact fun hlast ↦ hlone (Option.some.inj hlast)
  | char hc =>
    intro hlast
    obtain rfl := Option.some.inj hlast
    cases hc

theorem length_lt (h : Passes range n s w rest r) (b : List Char) : b.length < (w ++ b).length := by
  rw [List.length_append]
  exact Nat.lt_add_of_pos_left (by cases h <;> exact Nat.succ_pos _)

theorem exists_append (h : Passes range n s w rest r) (ha : a ≠ []) {more : List Char}
    (hsplit : a ++ more = w ++ rest) (hcut : Unbroken a more) : ∃ b, a = w ++ b ∧ b ++ more = rest := by
  cases a with
  | nil => exact absurd rfl ha
  | cons c a =>
    cases h with
    | pair =>
      obtain ⟨rfl, htail⟩ := List.cons.inj hsplit
      cases a with
      | nil => exact absurd (congrArg List.head? htail) (hcut rfl)
      | cons d a =>
        obtain ⟨rfl, hrest⟩ := List.cons.inj htail
        exact ⟨a, rfl, hrest⟩
    | terminator | char =>
      obtain ⟨rfl, htail⟩ := List.cons.inj hsplit
      exact ⟨a, rfl, htail⟩

theorem offset_eq (h : Passes range n s w rest r) : r.1.offset = s.offset + byteLength w := by
  cases h with
  | pair => exact advance_offset ..
  | terminator hc =>
    rw [byteLength_terminator hc]
    exact advance_offset ..
  | @char c _ hc =>
    have := c.utf8Size_pos
    rw [Search.char, advance_offset, byteLength, byteLength]
    omega

theorem stop_le (h : Passes range n s w rest r) (hdone : r.2 = true) : range.stop ≤ r.1.offset := by
  cases h with
  | pair | terminator =>
    rw [lineEnd, advance_offset]
    exact stop_le_of_advance hdone
  | char =>
    rw [Search.char, advance_offset]
    exact stop_le_of_advance hdone

theorem firstLine_of_le (h : Passes range n s w rest r) (hs : range.offset ≤ s.offset) :
    r.1.firstLine = s.firstLine := by
  have hend (size : Nat) (hsize : 0 < size) : (s.lineEnd range n size).1.firstLine = s.firstLine := by
    rw [lineEnd, advance_firstLine, if_neg (by omega)]
    split
    · unfold lineAfter
      split <;> rfl
    · rfl
  cases h with
  | pair => exact hend 2 (by decide)
  | terminator => exact hend 1 (by decide)
  | char =>
    rw [Search.char, advance_firstLine]
    split <;> rfl

/-- Where no lines around the range are asked for, every line end in front of it counts. -/
theorem firstLine_eq (h : Passes range 0 s w rest r) (hs : s.before = [])
    (hw : s.offset + byteLength w ≤ range.offset) :
    r.1.before = [] ∧ r.1.firstLine = s.firstLine + Text.lineEnds w := by
  have hend {size : Nat} (hsize : 0 < size) (hle : s.offset + size ≤ range.offset) :
      (s.lineEnd range 0 size).1.before = [] ∧ (s.lineEnd range 0 size).1.firstLine = s.firstLine + 1 := by
    rw [lineEnd, advance_before, advance_firstLine, if_pos (by omega), lineBefore, hs]
    exact ⟨rfl, rfl⟩
  cases h with
  | pair => exact hend (by decide) hw
  | terminator hc =>
    rw [lineEnds_terminator hc]
    rw [byteLength_terminator hc] at hw
    exact hend (by decide) hw
  | char hc =>
    rw [lineEnds_of_ne hc, Search.char, advance_before, advance_firstLine]
    split <;> exact ⟨hs, rfl⟩

end Passes

theorem run_firstLine_of_le {s : Search} (cs : List Char) (hs : range.offset ≤ s.offset) :
    (run range n cs s).firstLine = s.firstLine := by
  match cs with
  | [] => rw [run]
  | c :: cs =>
    obtain ⟨w, rest, r, hsplit, hpass, hrun⟩ := run_cons range n c cs s
    have hfirst := hpass.firstLine_of_le hs
    rw [hrun]
    split
    · exact hfirst
    · have hlt : rest.length < (c :: cs).length := hsplit ▸ hpass.length_lt rest
      refine (run_firstLine_of_le rest ?_).trans hfirst
      rw [hpass.offset_eq]
      exact Nat.le_add_right_of_le hs
termination_by cs.length
decreasing_by exact hlt

/-- The search reads the whole range, if the text does not end before the range does. -/
theorem stop_le_run {s : Search} (cs : List Char) (h : range.stop ≤ s.offset + byteLength cs) :
    range.stop ≤ (run range n cs s).offset := by
  match cs with
  | [] => rwa [run]
  | c :: cs =>
    obtain ⟨w, rest, r, hsplit, hpass, hrun⟩ := run_cons range n c cs s
    rw [hrun]
    split
    · next hdone => exact hpass.stop_le hdone
    · have hlt : rest.length < (c :: cs).length := hsplit ▸ hpass.length_lt rest
      refine stop_le_run rest ?_
      rwa [hpass.offset_eq, Nat.add_assoc, ← byteLength_append, ← hsplit]
termination_by cs.length
decreasing_by exact hlt

/-- The search counts the line ends in front of the range. -/
theorem run_firstLine {s : Search} (hs : s.before = []) (a : List Char)
    (ha : s.offset + byteLength a = range.offset) (h : Unbroken a rest) :
    (run range 0 (a ++ rest) s).firstLine = s.firstLine + Text.lineEnds a := by
  match a with
  | [] => exact run_firstLine_of_le rest (Nat.le_of_eq ha.symm)
  | c :: a =>
    obtain ⟨w, more, r, hsplit, hpass, hrun⟩ := run_cons range 0 c (a ++ rest) s
    -- A step may pass over a pair of characters, but `a` is not cut off inside a pair, so the step stays in
    -- `a`.
    obtain ⟨b, hb, rfl⟩ := hpass.exists_append (List.cons_ne_nil c a) hsplit h
    rw [hb, byteLength_append, ← Nat.add_assoc] at ha
    obtain ⟨hbefore, hfirst⟩ := hpass.firstLine_eq hs (by omega)
    have hoffset := hpass.offset_eq
    rw [List.cons_append, hrun, hb, lineEnds_append hpass.unbroken.of_append, ← Nat.add_assoc, ← hfirst]
    split
    · next hdone =>
      have hstop := hpass.stop_le hdone
      rw [ByteRange.stop] at hstop
      obtain rfl := eq_nil_of_byteLength (a := b) (by omega)
      rfl
    · have hlt : b.length < (c :: a).length := hb ▸ hpass.length_lt b
      exact run_firstLine hbefore b (by omega) (.of_append_left (hb ▸ h))
termination_by a.length
decreasing_by exact hlt

end Render.Window.Search

namespace Render.Window

variable {range : ByteRange} {source : List Char}

theorem exists_around? (h : range.stop ≤ byteLength source) (n : Nat) : ∃ w, around? range n source = some w ∧
    w.firstLine = (Search.run range n source .start).firstLine := by
  have hstop : range.stop ≤ (Search.run range n source .start).offset :=
    Search.stop_le_run source (h.trans (Nat.le_add_left _ _))
  refine ⟨_, if_pos ?_, rfl⟩
  exact (Nat.sub_le _ _).trans hstop

end Render.Window

def Diagnostic.opening (display : Display) (d : Diagnostic) (indent : Nat) (place : String) : String :=
  let theme := Theme.ofDisplay display
  theme.paint .error d.code.text ++ "\n\n  " ++ theme.paint .error theme.glyphs.error.toString ++ " " ++
    d.message ++ "\n" ++ spaces indent ++ theme.glyphs.topCorner.toString ++
    theme.glyphs.horizontal.toString ++ "[" ++ theme.paint .link place ++ "]\n"

namespace Render

/-- What is expected of a handler: a range that does not go past the end of the text is drawn, below a header that
gives the line of the range as one more than the number of line ends in front of it. -/
structure Handler.Lawful (handler : Handler) : Prop where
  header : ∀ (display : Display) (d : Diagnostic) (a b : List Char), d.source.toList = a ++ b → Unbroken a b →
    d.range.offset = byteLength a → d.range.stop ≤ byteLength d.source.toList →
    ∃ indent column rest, handler display d = some (d.opening display indent
      (d.path ++ ":" ++ toString (1 + lineEnds a) ++ ":" ++ toString (column : Nat)) ++ rest)

theorem draw_eq_opening {d : Diagnostic} {display : Display} {w focus : Window}
    (hw : Window.around? d.range display.contextLines d.source.toList = some w)
    (hfocus : Window.around? d.range 0 d.source.toList = some focus) :
    ∃ indent rest, draw display d = some (d.opening display indent (place d.path focus) ++ rest) := by
  simp only [draw, snippet, hw, hfocus, Diagnostic.opening, String.append_assoc]
  exact ⟨_, _, rfl⟩

/-- The handler that the program comes with finds the line by its search for the lines to show. -/
theorem draw_lawful : Handler.Lawful draw where
  header display d a b hsource hcut hoffset hstop := by
    obtain ⟨w, hw, -⟩ := Window.exists_around? hstop display.contextLines
    obtain ⟨focus, hfocus, hfirst⟩ := Window.exists_around? hstop 0
    obtain ⟨indent, rest, hdraw⟩ := draw_eq_opening hw hfocus
    have hrun : (Window.Search.run d.range 0 (a ++ b) .start).firstLine = 0 + lineEnds a :=
      Window.Search.run_firstLine rfl a ((Nat.zero_add _).trans hoffset.symm) hcut
    refine ⟨indent, focus.firstColumn + 1, rest, ?_⟩
    rw [hdraw, place, hfirst, hsource, hrun, Nat.zero_add, Nat.add_comm 1]

end Render

/-- The line that the header of a rendered error gives, with every handler that does what is expected of it. It is
ahead of the line of the error's place by the number of carriage returns in front of the place that no line feed
follows. -/
theorem rendered_line (handler : Handler) (hhandler : handler.Lawful) {source path : String} {e : SyntaxError}
    {span : Span} (h : parse source = .error (.rejected e)) (hspan : e.span? = some span) (display : Display) :
    ∃ d indent column rest, compile path source = .error (.rejected d) ∧
      d.renderBy handler display = d.opening display indent
        (path ++ ":" ++ toString (span.start.line + loneReturns (span.start.textBefore source.toList)) ++ ":" ++
          toString (column : Nat)) ++ rest := by
  have hlies := ((parse_rejected_iff.1 h).located (by decide) (Upcoming.lieIn_ofText source.toList false)).liesIn
    span hspan
  obtain ⟨n, piece, hs, hpiece⟩ := Position.exists_piece_of_charAt? hlies.start
  obtain ⟨b, hsource, hcut, hline⟩ := Position.unbroken_textBefore hs hpiece
  have hd : Diagnostic.ofSyntaxError e path source =
      ⟨e.code, e.message, path, source, span.toBytes source.toList, "here"⟩ := by
    rw [Diagnostic.ofSyntaxError, hspan]
  obtain ⟨indent, column, rest, hdraw⟩ := hhandler.header display
    ⟨e.code, e.message, path, source, span.toBytes source.toList, "here"⟩ _ b hsource hcut rfl
    (span.stop_toBytes_le source.toList)
  have hnumber : 1 + lineEnds (span.start.textBefore source.toList) =
      span.start.line + loneReturns (span.start.textBefore source.toList) := by
    rw [hline, lineEnds, Nat.add_assoc]
  refine ⟨Diagnostic.ofSyntaxError e path source, indent, column, rest, ?_, ?_⟩
  · rw [compile, h]
    rfl
  · rw [hd, Diagnostic.renderBy, hdraw, hnumber]
    rfl

/-- The error is on line 2, and in front of it a comment holds a carriage return. -/
example : (match compile "a.exl" "# a\rb\n$" with
    | .error (.rejected d) => (Window.around? d.range 0 d.source.toList).map (place d.path)
    | _ => none) = some "a.exl:3:1" := by
  decide +kernel

end Linewise
