import Linewise.Diagnostic
import Linewise.Proofs.Highlight

namespace Linewise

open Text

namespace Text

variable {a b piece : List Char} {text : String}

theorem byteLength_le_of_isPrefix (h : a <+: b) : byteLength a ≤ byteLength b := by
  obtain ⟨t, rfl⟩ := h
  rw [byteLength_append]
  exact Nat.le_add_right _ _

theorem utf8ByteSize_ofList (a : List Char) : (String.ofList a).utf8ByteSize = byteLength a := by
  induction a with
  | nil => rfl
  | cons c a ih =>
    rw [← List.singleton_append, String.ofList_append, String.utf8ByteSize_append, ih, byteLength_append]
    simp [byteLength]

theorem utf8ByteSize_eq (text : String) : text.utf8ByteSize = byteLength text.toList := by
  rw [← utf8ByteSize_ofList, String.ofList_toList]

theorem isValid_byteLength (h : a <+: text.toList) : String.Pos.Raw.IsValid text ⟨byteLength a⟩ := by
  obtain ⟨t, ht⟩ := h
  refine String.Pos.Raw.isValid_iff_exists_append.2 ⟨.ofList a, .ofList t, ?_, ?_⟩
  · rw [← String.ofList_append, ht, String.ofList_toList]
  · rw [String.rawEndPos, utf8ByteSize_ofList]

theorem flatten_take_isPrefix {n m : Nat} (h : n ≤ m) (ls : List (List Char)) :
    (ls.take n).flatten <+: (ls.take m).flatten := by
  obtain ⟨t, ht⟩ := List.take_prefix_take_left h (l := ls)
  rw [← ht, List.flatten_append]
  exact List.prefix_append _ _

end Text

namespace Position

variable {p q : Position} {source piece : List Char} {n : Nat}

def textThrough (p : Position) (source : List Char) : List Char :=
  p.textBefore source ++ (p.charAt source).toList

theorem byteStop_eq_byteLength (p : Position) (source : List Char) :
    p.byteStop source = byteLength (p.textThrough source) := by
  rw [byteStop, byteStart, textThrough, byteLength_append]
  cases p.charAt source <;> rfl

theorem textBefore_isPrefix_textThrough (p : Position) (source : List Char) :
    p.textBefore source <+: p.textThrough source := List.prefix_append _ _

/-- A position is on a line of the text, or else the positions on its line stand for the end of the text. -/
theorem exists_piece_or (p : Position) (source : List Char) :
    (∃ n piece, p.line = n + 1 ∧ (pieces source)[n]? = some piece) ∨
      ∀ q : Position, q.line = p.line → q.textBefore source = source ∧ q.textThrough source = source := by
  cases hline : p.lineOf source with
  | none =>
    refine .inr fun q hq ↦ ?_
    have hnone : q.lineOf source = none := by rwa [lineOf, hq, ← lineOf]
    have hbefore : q.textBefore source = source := by rw [textBefore, hnone]
    refine ⟨hbefore, ?_⟩
    rw [textThrough, hbefore, charAt, hnone]
    exact List.append_nil _
  | some line =>
    unfold lineOf at hline
    split at hline
    · cases hline
    · next hne =>
      obtain ⟨piece, hpiece, -⟩ := Option.map_eq_some_iff.1 hline
      exact .inl ⟨p.line - 1, piece, (Nat.succ_pred hne).symm, hpiece⟩

theorem textBefore_of_piece (hp : p.line = n + 1) (hpiece : (pieces source)[n]? = some piece) :
    p.textBefore source = ((pieces source).take n).flatten ++ (trimTerminators piece).take p.column := by
  obtain ⟨line, column⟩ := p
  obtain rfl : line = n + 1 := hp
  simp only [textBefore, lineOf_eq hpiece, Nat.add_sub_cancel]

theorem textThrough_of_piece (hp : p.line = n + 1) (hpiece : (pieces source)[n]? = some piece) :
    p.textThrough source =
      ((pieces source).take n).flatten ++ (trimTerminators piece).take (p.column + 1) := by
  rw [textThrough, textBefore_of_piece hp hpiece, List.take_add_one, List.append_assoc]
  obtain ⟨line, column⟩ := p
  obtain rfl : line = n + 1 := hp
  rw [charAt, lineOf_eq hpiece]
  rfl

theorem textThrough_isPrefix_take (hp : p.line = n + 1) (hpiece : (pieces source)[n]? = some piece) :
    p.textThrough source <+: ((pieces source).take (n + 1)).flatten := by
  have htake : (pieces source).take (n + 1) = (pieces source).take n ++ [piece] := by
    rw [List.take_add_one, hpiece]
    rfl
  rw [textThrough_of_piece hp hpiece, htake, List.flatten_append, List.flatten_singleton]
  exact (List.prefix_append_right_inj _).2 ((List.take_prefix _ _).trans (isPrefix_trimTerminators piece))

theorem textThrough_isPrefix (p : Position) (source : List Char) : p.textThrough source <+: source := by
  rcases p.exists_piece_or source with ⟨n, piece, hp, hpiece⟩ | hend
  · conv =>
      rhs
      rw [← pieces_flatten source, ← List.take_append_drop (n + 1) (pieces source), List.flatten_append]
    exact (textThrough_isPrefix_take hp hpiece).trans (List.prefix_append _ _)
  · rw [(hend p rfl).2]

theorem textBefore_isPrefix (p : Position) (source : List Char) : p.textBefore source <+: source :=
  (p.textBefore_isPrefix_textThrough source).trans (p.textThrough_isPrefix source)

/-- What stands on one line of the text comes before what stands on a later one. -/
theorem textThrough_isPrefix_textBefore (hline : 0 < p.line) (h : p.line < q.line) (source : List Char) :
    p.textThrough source <+: q.textBefore source := by
  rcases q.exists_piece_or source with ⟨m, last, hq, hlast⟩ | hend
  · obtain ⟨n, hn⟩ := Nat.exists_eq_add_of_lt hline
    rw [Nat.zero_add] at hn
    have hlt : n < (pieces source).length := by
      have := (List.getElem?_eq_some_iff.1 hlast).1
      omega
    rw [textBefore_of_piece hq hlast]
    exact ((textThrough_isPrefix_take hn (List.getElem?_eq_getElem hlt)).trans
      (flatten_take_isPrefix (by omega) _)).trans (List.prefix_append _ _)
  · rw [(hend q rfl).1]
    exact p.textThrough_isPrefix source

/-- The text in front of a place grows with the place, and so does the text through it. -/
theorem isPrefix_of_le (hline : 0 < p.line) (h : p ≤ q) (source : List Char) :
    p.textBefore source <+: q.textBefore source ∧ p.textThrough source <+: q.textThrough source := by
  rcases h with hlt | ⟨heq, hle⟩
  · have hthrough := textThrough_isPrefix_textBefore hline hlt source
    exact ⟨(p.textBefore_isPrefix_textThrough source).trans hthrough,
      hthrough.trans (q.textBefore_isPrefix_textThrough source)⟩
  · rcases p.exists_piece_or source with ⟨n, piece, hp, hpiece⟩ | hend
    · have hq : q.line = n + 1 := heq.symm.trans hp
      rw [textBefore_of_piece hp hpiece, textBefore_of_piece hq hpiece, textThrough_of_piece hp hpiece,
        textThrough_of_piece hq hpiece, List.prefix_append_right_inj, List.prefix_append_right_inj]
      exact ⟨List.take_prefix_take_left hle, List.take_prefix_take_left (Nat.succ_le_succ hle)⟩
    · rw [(hend p rfl).1, (hend p rfl).2, (hend q heq.symm).1, (hend q heq.symm).2]
      exact ⟨List.prefix_rfl, List.prefix_rfl⟩

theorem byteStart_le_byteStart (hline : 0 < p.line) (h : p ≤ q) (source : List Char) :
    p.byteStart source ≤ q.byteStart source := byteLength_le_of_isPrefix (isPrefix_of_le hline h source).1

theorem byteStop_le_byteStop (hline : 0 < p.line) (h : p ≤ q) (source : List Char) :
    p.byteStop source ≤ q.byteStop source := by
  rw [byteStop_eq_byteLength, byteStop_eq_byteLength]
  exact byteLength_le_of_isPrefix (isPrefix_of_le hline h source).2

theorem byteStart_min (hp : 0 < p.line) (hq : 0 < q.line) (source : List Char) :
    (min p q).byteStart source = min (p.byteStart source) (q.byteStart source) := by
  change (if p ≤ q then p else q).byteStart source = _
  split
  · next h => exact (Nat.min_eq_left (byteStart_le_byteStart hp h source)).symm
  · next h => exact (Nat.min_eq_right (byteStart_le_byteStart hq ((le_total p q).resolve_left h) source)).symm

theorem byteStop_max (hp : 0 < p.line) (hq : 0 < q.line) (source : List Char) :
    (max p q).byteStop source = max (p.byteStop source) (q.byteStop source) := by
  change (if p ≤ q then q else p).byteStop source = _
  split
  · next h => exact (Nat.max_eq_right (byteStop_le_byteStop hp h source)).symm
  · next h => exact (Nat.max_eq_left (byteStop_le_byteStop hq ((le_total p q).resolve_left h) source)).symm

end Position

/-- The range can be cut out of the text: it does not go past the end, and neither end lies inside a
character. -/
structure ByteRange.Sliceable (r : ByteRange) (text : String) : Prop where
  stop_le : r.stop ≤ text.utf8ByteSize
  start : String.Pos.Raw.IsValid text ⟨r.offset⟩
  stop : String.Pos.Raw.IsValid text ⟨r.stop⟩

theorem ByteRange.sliceable_of_isPrefix {r : ByteRange} {text : String} {a b : List Char}
    (ha : a <+: text.toList) (hb : b <+: text.toList) (hoffset : r.offset = byteLength a)
    (hstop : r.stop = byteLength b) : r.Sliceable text := by
  refine ⟨?_, ?_, ?_⟩
  · rw [hstop, utf8ByteSize_eq]
    exact byteLength_le_of_isPrefix hb
  · rw [hoffset]
    exact isValid_byteLength ha
  · rw [hstop]
    exact isValid_byteLength hb

namespace Span

/-- The length is not cut off at zero: a span that ends before it starts stops where it starts. -/
theorem stop_toBytes (s : Span) (source : List Char) :
    (s.toBytes source).stop = max (s.start.byteStart source) (s.stop.byteStop source) := by
  rw [toBytes, ByteRange.stop]
  dsimp only
  omega

theorem stop_toBytes_le (s : Span) (source : List Char) : (s.toBytes source).stop ≤ byteLength source := by
  rw [stop_toBytes, Position.byteStop_eq_byteLength]
  exact Nat.max_le.2 ⟨byteLength_le_of_isPrefix (s.start.textBefore_isPrefix source),
    byteLength_le_of_isPrefix (s.stop.textThrough_isPrefix source)⟩

theorem sliceable_toBytes (s : Span) (source : String) : (s.toBytes source.toList).Sliceable source := by
  have hstart := s.start.textBefore_isPrefix source.toList
  have hstop := s.stop.textThrough_isPrefix source.toList
  have hlast := s.stop_toBytes source.toList
  rw [Position.byteStop_eq_byteLength] at hlast
  rcases Nat.le_total (byteLength (s.start.textBefore source.toList))
    (byteLength (s.stop.textThrough source.toList)) with h | h
  · exact ByteRange.sliceable_of_isPrefix hstart hstop rfl (hlast.trans (Nat.max_eq_right h))
  · exact ByteRange.sliceable_of_isPrefix hstart hstart rfl (hlast.trans (Nat.max_eq_left h))

end Span

/-- Every range of bytes that a span stands for, whatever the span, can be cut out of the text, and so can the
range of every diagnostic out of the text that it carries. -/
theorem toBytes_sliceable (source : String) :
    (∀ s : Span, (s.toBytes source.toList).stop =
        max (s.start.byteStart source.toList) (s.stop.byteStop source.toList) ∧
      (s.toBytes source.toList).Sliceable source) ∧
    ∀ (e : SyntaxError) (path : String), (Diagnostic.ofSyntaxError e path source).source = source ∧
      (Diagnostic.ofSyntaxError e path source).range.Sliceable (Diagnostic.ofSyntaxError e path source).source := by
  refine ⟨fun s ↦ ⟨s.stop_toBytes source.toList, s.sliceable_toBytes source⟩, fun e path ↦ ?_⟩
  unfold Diagnostic.ofSyntaxError
  cases e.span? with
  | some span => exact ⟨rfl, span.sliceable_toBytes source⟩
  | none =>
    refine ⟨rfl, ?_⟩
    exact ByteRange.sliceable_of_isPrefix List.prefix_rfl List.prefix_rfl rfl rfl

/-- A span that begins on no line and ends before the text does is the empty range at the end of the text. -/
example : (Span.mk ⟨0, 3⟩ ⟨1, 0⟩).toBytes "é\r\nb".toList = ⟨5, 0⟩ := by
  decide +kernel

namespace Span

variable {a b s : Span}

/-- The span begins on a line that is counted, and does not end before it begins. -/
structure Forward (s : Span) : Prop where
  line : 0 < s.start.line
  ordered : s.start ≤ s.stop

theorem Forward.stop_line (h : s.Forward) : 0 < s.stop.line := by
  have hline := h.line
  have hordered := h.ordered
  rw [Position.le_def] at hordered
  omega

theorem Forward.stop_toBytes (h : s.Forward) (source : List Char) :
    (s.toBytes source).stop = s.stop.byteStop source := by
  rw [Span.stop_toBytes]
  refine Nat.max_eq_right (Nat.le_trans (Position.byteStart_le_byteStart h.line h.ordered source) ?_)
  exact Nat.le_add_right _ _

theorem Forward.merge (ha : a.Forward) (hb : b.Forward) : (a.merge b).Forward := by
  refine ⟨?_, ?_⟩
  · rcases Position.min_eq a.start b.start with h | h <;> rw [Span.merge, h]
    · exact ha.line
    · exact hb.line
  · exact Position.le_trans (Position.min_le_left a.start b.start)
      (Position.le_trans ha.ordered (Position.le_max_left a.stop b.stop))

/-- The bytes of two spans merged reach from where the first of their ranges begins to where the last one
ends; and a span that covers another one covers it in bytes, too. -/
theorem toBytes_merge (ha : a.Forward) (hb : b.Forward) (source : List Char) :
    ((a.merge b).toBytes source).offset = min (a.toBytes source).offset (b.toBytes source).offset ∧
    ((a.merge b).toBytes source).stop = max (a.toBytes source).stop (b.toBytes source).stop ∧
    (a.start ≤ b.start → b.stop ≤ a.stop → (a.toBytes source).offset ≤ (b.toBytes source).offset ∧
      (b.toBytes source).stop ≤ (a.toBytes source).stop) := by
  refine ⟨Position.byteStart_min ha.line hb.line source, ?_, fun hstart hstop ↦ ⟨?_, ?_⟩⟩
  · rw [(ha.merge hb).stop_toBytes, ha.stop_toBytes, hb.stop_toBytes]
    exact Position.byteStop_max ha.stop_line hb.stop_line source
  · exact Position.byteStart_le_byteStart ha.line hstart source
  · rw [ha.stop_toBytes, hb.stop_toBytes]
    exact Position.byteStop_le_byteStop hb.stop_line hstop source

/-- One span ends past the end of its line, the other one past the end of the text, and together they cover
both. -/
theorem toBytes_merge_clamped : ∃ (a b : Span) (source : List Char), a = ⟨⟨1, 1⟩, ⟨3, 9⟩⟩ ∧
    b = ⟨⟨2, 7⟩, ⟨6, 0⟩⟩ ∧ source = "éé\r\nb\r\n\tü\r\n\n".toList ∧ a.Forward ∧ b.Forward ∧
    a.toBytes source = ⟨2, 10⟩ ∧ b.toBytes source = ⟨7, 8⟩ ∧
    ((a.merge b).toBytes source).offset = min (a.toBytes source).offset (b.toBytes source).offset ∧
    ((a.merge b).toBytes source).stop = max (a.toBytes source).stop (b.toBytes source).stop ∧
    (a.merge b).start ≤ b.start ∧ b.stop ≤ (a.merge b).stop ∧
    ((a.merge b).toBytes source).offset ≤ (b.toBytes source).offset ∧
    (b.toBytes source).stop ≤ ((a.merge b).toBytes source).stop := by
  have ha : Forward ⟨⟨1, 1⟩, ⟨3, 9⟩⟩ := ⟨by decide, by decide⟩
  have hb : Forward ⟨⟨2, 7⟩, ⟨6, 0⟩⟩ := ⟨by decide, by decide⟩
  have hstart : (merge ⟨⟨1, 1⟩, ⟨3, 9⟩⟩ ⟨⟨2, 7⟩, ⟨6, 0⟩⟩).start ≤ (⟨2, 7⟩ : Position) := by decide
  have hstop : (⟨6, 0⟩ : Position) ≤ (merge ⟨⟨1, 1⟩, ⟨3, 9⟩⟩ ⟨⟨2, 7⟩, ⟨6, 0⟩⟩).stop := by decide
  obtain ⟨hoffset, hlast, -⟩ := toBytes_merge ha hb "éé\r\nb\r\n\tü\r\n\n".toList
  obtain ⟨-, -, hcovers⟩ := toBytes_merge (ha.merge hb) hb "éé\r\nb\r\n\tü\r\n\n".toList
  exact ⟨_, _, _, rfl, rfl, rfl, ha, hb, by decide +kernel, by decide +kernel, hoffset, hlast, hstart, hstop,
    hcovers hstart hstop⟩

end Span

end Linewise
