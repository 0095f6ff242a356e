import Linewise.Proofs.Endings
import Linewise.Proofs.ExcerptLexing
import Linewise.Proofs.Extent
import Linewise.Proofs.ProgramMending

namespace Linewise

open Text Upcoming

theorem Position.next_le_next {p q : Position} (h : p ≤ q) : p.next ≤ q.next := by
  rw [le_def] at h ⊢
  simp only [next]
  omega

theorem Position.le_next (p : Position) : p ≤ p.next := .inr ⟨rfl, Nat.le_succ _⟩

theorem Successive.stop_le_last {ts : List Token} (h : Successive ts) {t last : Token} (ht : t ∈ ts)
    (hlast : last ∈ ts.getLast?) : t.span.stop ≤ last.span.stop := by
  obtain ⟨front, rfl⟩ := List.getLast?_eq_some_iff.1 hlast
  rcases List.mem_append.1 ht with hfront | htail
  · have hbefore := h.before hfront (List.mem_singleton_self last)
    exact Position.le_trans hbefore.le (h.ordered last (by simp))
  · rw [List.mem_singleton.1 htail]
    exact Position.le_refl _

/-- Whether a token is reached over the end of a line makes no difference after it. -/
theorem Leads.drop {xs ys : List Upcoming} {ts : List Token} (h : Leads xs ts ys) :
    Upcoming.looked true (xs.drop ts.length) = Upcoming.looked true ys := by
  induction h with
  | here heq => exact heq
  | token _ ih => exact ih

/-- A construct begins on a new line, or else where the last one ends. -/
theorem ReadsConstruct.of_looked {xs xs' ys : List Upcoming} {c : Construct} (h : ReadsConstruct xs c ys)
    (hx : Upcoming.looked true xs' = Upcoming.looked true xs) : ReadsConstruct xs' c ys := by
  have hnext {t : Token} {zs : List Upcoming} (hn : Next true xs t zs) : Next true xs' t zs := by
    have hlooked := hn.looked (c := true)
    rw [← hx] at hlooked
    exact hlooked.of_looked
  cases h with
  | openBrace h hk => exact .openBrace (hnext h) hk
  | closeBrace h hk => exact .closeBrace (hnext h) hk
  | pass h hk hs => exact .pass (hnext h) hk hs
  | «break» h hk hs => exact .break (hnext h) hk hs
  | returnNothing h hk hs => exact .returnNothing (hnext h) hk hs
  | returnValue h hk h' hk' hr hs => exact .returnValue (hnext h) hk h' hk' hr hs
  | function h hk h₁ h₂ hk₂ hp ht h₃ hk₃ => exact .function (hnext h) hk h₁ h₂ hk₂ hp ht h₃ hk₃
  | expression h hk hr hs => exact .expression (hnext h) hk hr hs

theorem ReadsProgram.exists_reads {xs : List Upcoming} {cs : List Construct} (h : ReadsProgram xs cs)
    {c : Construct} (hc : c ∈ cs) : ∃ n ys, ReadsConstruct (xs.drop n) c ys := by
  suffices ∃ ts xs' ys, Leads xs ts xs' ∧ ReadsConstruct xs' c ys by
    obtain ⟨ts, xs', ys, hleads, hreads⟩ := this
    exact ⟨ts.length, ys, hreads.of_looked hleads.drop⟩
  induction h with
  | done => cases hc
  | construct hreads _ ih =>
    rcases List.mem_cons.1 hc with rfl | hc
    · exact ⟨[], _, _, .here rfl, hreads⟩
    · obtain ⟨ts, xs', ys, hleads, hreads'⟩ := ih hc
      obtain ⟨us, hus, -⟩ := hreads.spells
      exact ⟨us ++ ts, xs', ys, hus.trans hleads, hreads'⟩

/-- A construct is read from its own tokens alone. -/
theorem ReadsConstruct.exists_alone {xs ys : List Upcoming} {c : Construct} (h : ReadsConstruct xs c ys) :
    ∃ ts : List Token, Covers c.pieces ts ∧ (xs.take ts.length).map (·.content) = ts.map .ok ∧
      ReadsConstruct (xs.take ts.length) c [] := by
  obtain ⟨ts, hleads, hcovers⟩ := h.spells
  refine ⟨ts, hcovers, ?_, ?_⟩
  · rw [List.map_take, hleads.contents]
    exact List.take_left' (List.length_map _)
  · have halone : ReadsConstruct (Linewise.replaceEnd ys.length [] xs) c (Linewise.replaceEnd ys.length [] ys) :=
      h.replaceEnd nofun (Nat.le_refl _) (.inr rfl)
    rwa [Linewise.replaceEnd, Linewise.replaceEnd_of_length_le (Nat.le_refl _), hleads.length, Nat.add_sub_cancel,
      List.append_nil] at halone

theorem Text.isTerminator_of_not_isBlank {x : Char} (h : isBlank x = false) : isTerminator x = false := by
  by_contra hx
  rw [Bool.not_eq_false, isTerminator, Bool.or_eq_true, beq_iff_eq, beq_iff_eq] at hx
  rcases hx with rfl | rfl
  · cases h
  · cases h

theorem Token.Occurs.charAt?_stop {source before w after : List Char} {token : Token} {y : Char}
    (h : token.Occurs source before (w ++ [y]) after) : charAt? (lines source) token.span.stop = some y := by
  obtain ⟨n, hn⟩ := Nat.exists_eq_add_of_lt h.number
  have hline := h.line
  have hstop := h.stop
  rw [hn, Nat.zero_add, Nat.add_sub_cancel] at hline
  rw [List.length_append, List.length_singleton, ← Nat.add_assoc, Nat.add_right_cancel_iff,
    ← List.length_append] at hstop
  rw [charAt?, h.sameLine, hn, Nat.zero_add, List.getElem?_cons_succ, hline, hstop, Option.bind_some]
  simp

namespace Lexer

variable {s t : Lexer} {ls : List (List Char)} {token : Token}

/-- In front of a token the lexer stands where the token begins, at a character that is not blank. -/
theorem Inside.exists_at_start (h : Inside ls s) {later flag : Bool} {xs ys : List Upcoming}
    (hs : ahead later s = xs ++ ⟨flag, .ok token⟩ :: ys) : ∃ u x rest, Inside ls u ∧
      u.keepComments = s.keepComments ∧ u.place = token.span.start ∧ u.cursor.rest = x :: rest ∧
        isBlank x = false ∧ ahead true u = ⟨true, .ok token⟩ :: ys := by
  obtain ⟨u, v, hu, hkeep, hf, hv⟩ := h.exists_find hs
  obtain ⟨x, c, hc, -⟩ := scan_of_find_token hf
  obtain ⟨hdrop, -⟩ := dropWhile_of_nextChar? hc
  have hsplit := List.takeWhile_append_dropWhile (p := isBlank) (l := u.cursor.rest)
  have hall : (u.cursor.rest.takeWhile isBlank).all isBlank = true :=
    List.all_eq_true.2 fun y hy ↦ List.mem_takeWhile_imp hy
  have hstart := (find_passes hf).start
  generalize u.cursor.rest.takeWhile isBlank = blanks at hsplit hall hstart
  have hlength : blanks.length ≤ u.cursor.rest.length := by
    rw [← hsplit, List.length_append]
    exact Nat.le_add_right _ _
  have hrest : (u.cursor.forward blanks.length).rest = x :: c.rest := by
    rw [Cursor.forward_rest, ← hdrop, ← hsplit, List.drop_left, hsplit]
  have hcolumn := Cursor.forward_column hlength
  refine ⟨{ u with cursor := u.cursor.forward blanks.length }, x, c.rest, ?_, hkeep, ?_, hrest, ?_, ?_⟩
  · exact hu.of_reaches (.sameLine blanks (by rw [hrest, ← hdrop, hsplit]) rfl hcolumn rfl)
  · rw [hstart, place, hcolumn]
  · exact isBlank_of_nextChar? hc
  · rw [ahead_forward true hsplit.symm hall, ahead_eq, hf, ← hv]

/-- Where a state stands tells what is left of the text. -/
theorem Inside.rest_eq (h : Inside ls s) {front more : List (List Char)} {before first : List Char}
    (hls : ls = front ++ (before ++ first) :: more) (hp : s.place = ⟨front.length + 1, before.length⟩) :
    s.cursor.rest = first ∧ s.pending = more := by
  obtain ⟨front', before', hls', hline, hcolumn⟩ := h
  obtain ⟨hnumber, hplace⟩ := Position.mk.inj hp
  rw [hls, ← List.cons_append] at hls'
  obtain ⟨-, hlines⟩ := List.append_inj hls' (by rw [List.length_cons, ← hline, hnumber])
  obtain ⟨hfirst, hmore⟩ := List.cons.inj hlines
  exact ⟨(List.append_inj hfirst (by rw [← hcolumn, hplace])).2.symm, hmore.symm⟩

/-- A token ends with a character that cannot stand in a terminator. -/
theorem Inside.exists_stop {source : List Char} (h : Inside (lines source) s) (hkeep : s.keepComments = false)
    {later : Bool} (ht : .ok token ∈ (ahead later s).map (·.content)) :
    ∃ y, charAt? (lines source) token.span.stop = some y ∧ isTerminator y = false := by
  obtain ⟨i, hi, hcontent⟩ := List.mem_map.1 ht
  obtain ⟨u, v, hu, hkeep', hf⟩ := h.find_of_mem_ahead hi hcontent
  obtain ⟨before, w, y, after, hy, hoccurs, -⟩ := hu.occurs hf (isComment_of_find hf (hkeep'.trans hkeep))
  have hnewline : y ≠ '\n' := by
    rintro rfl
    exact newline_not_mem_line (List.mem_of_getElem? hoccurs.line) (by simp)
  exact ⟨y, hoccurs.charAt?_stop, by simp [isTerminator, hnewline, hy]⟩

/-- The lexer on an excerpt starts where the excerpt starts in the text. -/
theorem Inside.exists_excerpts {source : List Char} (h : Inside (lines source) s) (hkeep : s.keepComments = false)
    {e : Position} {front more : List (List Char)} {before line w : List Char}
    (hlines : lines source = front ++ (before ++ line) :: more) (hp : s.place = ⟨front.length + 1, before.length⟩)
    (hcropped : Cropped e s.place (line :: more) (lines w)) :
    ∃ t, Excerpts s.place e s t ∧ ahead false (ofText w false) = ahead true t := by
  obtain ⟨rfl, rfl⟩ := h.rest_eq hlines hp
  obtain ⟨line', more', hw⟩ := hcropped.exists_cons
  rw [hw] at hcropped
  have hpending : (ofText w false).pending = [] ++ line' :: more' := hw
  refine ⟨_, ⟨hkeep, rfl, ?_, hcropped⟩, ahead_skip false rfl hpending nofun⟩
  refine ⟨Nat.le_refl _, ?_, ?_⟩
  · rw [hp]
    exact Nat.add_comm 1 _
  · rw [if_pos rfl]
    exact Nat.zero_add _

/-- The text of a stretch of tokens holds these tokens alone. -/
theorem Inside.exists_excerpt {source : List Char} (h : Inside (lines source) s)
    (hkeep : s.keepComments = false) {later : Bool} {xs us zs : List Upcoming} {ts : List Token}
    (hs : ahead later s = xs ++ (us ++ zs)) (hts : us.map (·.content) = ts.map .ok) (ho : Successive ts)
    {span : Span} (hc : span.Covers ts) : ∃ w, (span.toBytes source).Holds source w ∧
      looked true (ahead false (ofText w false)) =
        looked true (us.map (Upcoming.relocate (Span.since span.start))) := by
  obtain ⟨⟨first, hfirst, hstart⟩, last, hlast, hstop⟩ := hc
  obtain ⟨ts, rfl⟩ := List.head?_eq_some_iff.1 hfirst
  have hmem : .ok last ∈ (ahead later s).map (·.content) := by
    rw [hs, List.map_append, List.map_append, hts]
    exact List.mem_append_right _ (List.mem_append_left _ (List.mem_map_of_mem (List.mem_of_getLast? hlast)))
  obtain ⟨⟨flag, content⟩, us, rfl, hcontent, hus⟩ := List.map_eq_cons_iff.1 hts
  obtain rfl : content = .ok first := hcontent
  rw [List.cons_append] at hs
  obtain ⟨u, x, rest, hu, hkeep', hplace, hrest, hx, hahead⟩ := h.exists_at_start hs
  obtain ⟨y, hy, hyt⟩ := h.exists_stop hkeep hmem
  rw [← hstop] at hy
  have hxc : charAt? (lines source) span.start = some x := by
    rw [hstart, ← hplace]
    exact hu.charAt?_rest (i := 0) (by rw [hrest, List.getElem?_cons_zero])
  have hlater {t : Token} (ht : t ∈ first :: ts) : t.span.stop ≤ span.stop := by
    rw [hstop]
    exact ho.stop_le_last ht hlast
  have hle {t : Token} (ht : t ∈ first :: ts) : t.span.start ≤ span.stop :=
    Position.le_trans (ho.ordered t ht) (hlater ht)
  obtain ⟨w, hw, front, before, line, more, hlines, hfront, hcropped⟩ := Span.exists_excerpt hxc
    (isTerminator_of_not_isBlank hx) hy hyt (hstart ▸ hle List.mem_cons_self)
  refine ⟨w, hw, ?_⟩
  rw [← hstart] at hplace
  rw [← hplace] at hcropped
  obtain ⟨t, hexcerpts, ht⟩ := hu.exists_excerpts (hkeep'.trans hkeep) hlines (hplace.trans hfront) hcropped
  rw [← List.cons_append] at hahead
  -- the two states go on side by side up to the end of the last token
  have hmap := hexcerpts.ahead_eq_map hahead hts
    (fun t ht ↦ ⟨Position.le_trans (hle ht) span.stop.le_next, Position.next_le_next (hlater ht)⟩)
    (by rw [hlast, hstop]; rfl)
  rw [ht, hmap, hplace]
  simp only [List.map_cons, Upcoming.relocate, looked, Bool.not_true, Bool.and_false]

end Lexer

/-- The text of a construct is a program with the same construct alone, its places counted from where it
begins. -/
theorem parse_excerpt {source : String} {program : Program} (h : parse source = .ok program) {c : Construct}
    (hc : c ∈ program.constructs) : ∃ w, (c.span.toBytes source.toList).Holds source.toList w ∧
      parse (String.ofList w) = .ok ⟨[c.relocate (Span.since c.span.start)]⟩ := by
  obtain ⟨hprogram, hneed⟩ := readsProgram_of_parse h
  obtain ⟨n, ys, hreads⟩ := hprogram.exists_reads hc
  obtain ⟨ts, hcovers, hcontents, halone⟩ := hreads.exists_alone
  have hinside := Lexer.inside_ofText source.toList false
  have hupcoming (source : String) :
      (Parser.ofSource source).upcoming = Lexer.ahead false (.ofText source.toList false) :=
    Lexer.upcoming_of_not_held rfl
  rw [hupcoming] at hcontents halone
  have ho := hinside.successive (hcontents ▸ ((List.take_sublist _ _).trans (List.drop_sublist _ _)).map _)
  have hsplit := (List.take_append_drop n (Lexer.ahead false (.ofText source.toList false))).symm
  rw [← List.take_append_drop ts.length (List.drop n _)] at hsplit
  -- The text of the tokens holds them alone, and from them alone the construct is read.
  obtain ⟨w, hw, hlooked⟩ := hinside.exists_excerpt rfl hsplit hcontents ho (c.span_covers hcovers ho)
  refine ⟨w, hw, parse_of_readsProgram (.construct ?_ .done) ?_⟩
  · rw [hupcoming, String.toList_ofList]
    exact halone.relocate.of_looked hlooked
  · intro d hd e he
    obtain rfl := List.mem_singleton.1 hd
    rw [Construct.expression?_relocate] at he
    obtain ⟨value, hvalue, rfl⟩ := Option.map_eq_some_iff.1 he
    rw [value.need_relocate]
    exact hneed c hc value hvalue

theorem parse_excerpt_twoLines : ∃ source program c,
    source = "\x7d \x7b f(é, /* ü\r\n */ 'ß') + 1 # a\r\n\x7d" ∧ parse source = .ok program ∧
      c ∈ program.constructs ∧ c.span = ⟨⟨1, 4⟩, ⟨2, 11⟩⟩ ∧ c.span.toBytes source.toList = ⟨4, 26⟩ ∧
        ∃ w, (c.span.toBytes source.toList).Holds source.toList w ∧
          parse (String.ofList w) = .ok ⟨[c.relocate (Span.since ⟨1, 4⟩)]⟩ := by
  have hspan : ((parse "\x7d \x7b f(é, /* ü\r\n */ 'ß') + 1 # a\r\n\x7d").toOption.bind
      (·.constructs[2]?)).map (·.span) = some ⟨⟨1, 4⟩, ⟨2, 11⟩⟩ := by decide +kernel
  obtain ⟨c, hget, hspan⟩ := Option.map_eq_some_iff.1 hspan
  obtain ⟨program, hprogram, hc⟩ := Option.bind_eq_some_iff.1 hget
  cases hp : parse "\x7d \x7b f(é, /* ü\r\n */ 'ß') + 1 # a\r\n\x7d" with
  | error e => simp [hp, Except.toOption] at hprogram
  | ok p =>
    obtain rfl : p = program := by simpa [hp, Except.toOption] using hprogram
    have hmem := List.mem_of_getElem? hc
    have hexcerpt := parse_excerpt hp hmem
    rw [hspan] at hexcerpt
    refine ⟨_, p, c, rfl, hp, hmem, hspan, ?_, ?_⟩
    · rw [hspan]
      decide +kernel
    · rw [hspan]
      exact hexcerpt

end Linewise
