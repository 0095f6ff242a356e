import Linewise.Proofs.Excerpt
import Linewise.Proofs.Relocate

namespace Linewise

namespace Position

def next (q : Position) : Position := ⟨q.line, q.column + 1⟩

def since (p q : Position) : Position :=
  ⟨q.line - (p.line - 1), if q.line = p.line then q.column - p.column else q.column⟩

/-- The place `q` of the text is the place `r` of the excerpt that begins at `p`. -/
structure Moved (p q r : Position) : Prop where
  line_le : p.line ≤ q.line
  line : r.line + (p.line - 1) = q.line
  column : r.column + (if q.line = p.line then p.column else 0) = q.column

namespace Moved

variable {p q r : Position}

theorem since_eq (h : Moved p q r) : p.since q = r := by
  obtain ⟨-, hline, hcolumn⟩ := h
  obtain ⟨line, column⟩ := r
  dsimp only at hline hcolumn
  rw [since, ← hline, Nat.add_sub_cancel, hline]
  congr 1
  split
  · next heq =>
    rw [if_pos heq] at hcolumn
    omega
  · next hne =>
    rw [if_neg hne] at hcolumn
    omega

theorem right (h : Moved p q r) (k : Nat) : Moved p ⟨q.line, q.column + k⟩ ⟨r.line, r.column + k⟩ := by
  refine ⟨h.line_le, h.line, ?_⟩
  have hcolumn := h.column
  dsimp only
  omega

theorem left (h : Moved p q r) (hr : 0 < r.column) :
    Moved p ⟨q.line, q.column - 1⟩ ⟨r.line, r.column - 1⟩ := by
  refine ⟨h.line_le, h.line, ?_⟩
  have hcolumn := h.column
  dsimp only
  omega

theorem below (h : Moved p q r) (k column : Nat) :
    Moved p ⟨q.line + k + 1, column⟩ ⟨r.line + k + 1, column⟩ := by
  obtain ⟨hle, hline, -⟩ := h
  refine ⟨?_, ?_, ?_⟩
  · dsimp only
    omega
  · dsimp only
    omega
  · rw [if_neg]
    · rfl
    · dsimp only
      omega

end Moved

end Position

def Span.since (p : Position) (s : Span) : Span := ⟨p.since s.start, p.since s.stop⟩

theorem Span.since_eq {p : Position} {s r : Span} (hstart : p.Moved s.start r.start)
    (hstop : p.Moved s.stop r.stop) : Span.since p s = r := by
  rw [Span.since, hstart.since_eq, hstop.since_eq]

namespace Lexeme

/-- Whether a comment ends shows in its own characters. -/
theorem commentLength?_take {star : Bool} {line : List Char} {n : Nat}
    (h : commentLength? star line = some n) (rest : List Char) :
    commentLength? star (line.take n ++ rest) = some n := by
  induction line generalizing star n with
  | nil => cases h
  | cons c line ih =>
    rw [commentLength?] at h
    split at h
    · next hc =>
      cases h
      rw [List.take_succ_cons, List.cons_append, commentLength?, if_pos hc]
    · next hc =>
      obtain ⟨m, hm, rfl⟩ := Option.map_eq_some_iff.1 h
      rw [List.take_succ_cons, List.cons_append, commentLength?, if_neg hc, ih hm]
      rfl

/-- A comment ends in the same place when its last line goes on differently. -/
theorem commentEnd?_replace {ls : List (List Char)} {e : CommentEnd} (h : commentEnd? ls = some e) :
    ∃ skipped, ls = skipped ++ e.line :: e.pending ∧ skipped.length = e.skipped ∧
      ∀ line pending, commentLength? false line = some e.length →
        commentEnd? (skipped ++ line :: pending) = some { e with line, pending } := by
  induction ls generalizing e with
  | nil => cases h
  | cons first ls ih =>
    rw [commentEnd?] at h
    split at h
    · next n hn =>
      cases h
      refine ⟨[], rfl, rfl, fun line pending hline ↦ ?_⟩
      rw [List.nil_append, commentEnd?, hline]
    · next hn =>
      obtain ⟨e, he, rfl⟩ := Option.map_eq_some_iff.1 h
      obtain ⟨skipped, rfl, hlength, hreplace⟩ := ih he
      refine ⟨first :: skipped, rfl, congrArg (· + 1) hlength, fun line pending hline ↦ ?_⟩
      rw [List.cons_append, commentEnd?, hn, hreplace line pending hline]
      rfl

end Lexeme

namespace Text.Cropped

variable {e p : Position} {ls ls' front : List (List Char)} {line rest w post : List Char}

theorem le_end (h : Cropped e p ls ls') : p ≤ e := by
  induction h with
  | last line rest more he =>
    rw [← he]
    exact .inr ⟨rfl, Nat.le_add_right _ _⟩
  | cons line _ ih =>
    rw [Position.le_def] at ih ⊢
    dsimp only at ih
    omega

theorem exists_cons (h : Cropped e p (line :: ls) ls') : ∃ line' ls₁, ls' = line' :: ls₁ := by
  cases h with
  | last => exact ⟨_, _, rfl⟩
  | cons => exact ⟨_, _, rfl⟩

theorem exists_append (h : Cropped e p (line :: ls) (rest :: ls')) : ∃ tail, line = rest ++ tail := by
  cases h with
  | last _ tail => exact ⟨tail, rfl⟩
  | cons => exact ⟨[], (List.append_nil _).symm⟩

theorem of_append (h : Cropped e p ((w ++ post) :: ls) (rest :: ls'))
    (hle : ⟨p.line, p.column + w.length⟩ ≤ e) : ∃ post', rest = w ++ post' ∧ Cut post post' ∧
      (post = [] → post' = []) ∧ Cropped e ⟨p.line, p.column + w.length⟩ (post :: ls) (post' :: ls') := by
  generalize hl : w ++ post = line at h
  cases h with
  | last rest tail _ he =>
    have hlength : w.length ≤ rest.length := by
      rw [← he, Position.le_def] at hle
      dsimp only at hle
      omega
    obtain ⟨post', rfl, rfl⟩ : ∃ post', rest = w ++ post' ∧ post = post' ++ tail := by
      rcases List.append_eq_append_iff.1 hl with ⟨v, hv, hpost⟩ | ⟨v, hv, hpost⟩
      · exact ⟨v, hv, hpost⟩
      · rw [hv, List.length_append] at hlength
        obtain rfl : v = [] := List.eq_nil_of_length_eq_zero (by omega)
        exact ⟨[], by rw [hv, List.append_nil, List.append_nil], hpost.symm⟩
    refine ⟨post', rfl, ?_, fun hnil ↦ (List.append_eq_nil_iff.1 hnil).1, .last _ _ _ ?_⟩
    · cases post' with
      | nil => exact .inr (.inl rfl)
      | cons c post' => exact .inl rfl
    · rw [← he, List.length_append, Nat.add_assoc]
  | cons _ h =>
    subst hl
    exact ⟨post, rfl, .refl post, id, .cons post h⟩

theorem of_lines (h : Cropped e p (line :: front ++ rest :: ls) ls')
    (hle : p.line + front.length + 1 ≤ e.line) : ∃ rest' ls₁, ls' = line :: front ++ rest' :: ls₁ ∧
      Cropped e ⟨p.line + front.length + 1, 0⟩ (rest :: ls) (rest' :: ls₁) := by
  induction front generalizing line p ls' with
  | nil =>
    generalize hl : line :: [] ++ rest :: ls = l at h
    cases h with
    | last _ _ _ he =>
      rw [← he] at hle
      dsimp only [List.length_nil] at hle
      omega
    | cons line' h =>
      obtain ⟨rfl, rfl⟩ := List.cons.inj hl
      obtain ⟨rest', ls₁, rfl⟩ := h.exists_cons
      exact ⟨rest', ls₁, rfl, h⟩
  | cons first front ih =>
    generalize hl : line :: first :: front ++ rest :: ls = l at h
    cases h with
    | last _ _ _ he =>
      rw [← he] at hle
      dsimp only [List.length_cons] at hle
      omega
    | cons line' h =>
      obtain ⟨rfl, rfl⟩ := List.cons.inj hl
      rw [List.length_cons] at hle ⊢
      obtain ⟨rest', ls₁, rfl, hcropped⟩ := ih h (by dsimp only; omega)
      refine ⟨rest', ls₁, rfl, ?_⟩
      dsimp only at hcropped
      rwa [Nat.add_right_comm p.line 1] at hcropped

theorem ended (h : Cropped e e (line :: ls) (rest :: ls')) : rest = [] ∧ ls' = [] := by
  generalize e = p at h
  cases h with
  | last _ _ _ he =>
    refine ⟨List.eq_nil_of_length_eq_zero ?_, rfl⟩
    have hcolumn := congrArg Position.column he
    dsimp only at hcolumn
    omega
  | cons _ h =>
    have hle := h.le_end
    rw [Position.le_def] at hle
    dsimp only at hle
    omega

end Text.Cropped

namespace Lexer

open Text

/-- The state `t` stands in the excerpt from `p` to `e` where `s` stands in the text; both pass over
comments. -/
structure Excerpts (p e : Position) (s t : Lexer) : Prop where
  left : s.keepComments = false
  right : t.keepComments = false
  moved : p.Moved s.place t.place
  cropped : Cropped e s.place (s.cursor.rest :: s.pending) (t.cursor.rest :: t.pending)

/-- Reading a token takes some characters, and takes them wherever they stand in front of the like. -/
theorem exists_takes_of_lexeme {x : Char} {s t : Lexer} {token : Token} (h : lexeme x s = .ok token t) :
    ∃ w post, s.cursor.rest = w ++ post ∧ ∀ (d : Cursor) (post' : List Char), d.rest = w ++ post' →
      Cut post post' → (post = [] → post' = []) → (Lexeme.read x d).Takes token.kind d w post' := by
  have hok := (read_of_lexeme h).1
  by_cases hx : x = '#'
  · subst hx
    refine ⟨s.cursor.rest, [], (List.append_nil _).symm, fun d post' hd _ hnil ↦ ?_⟩
    rw [hnil rfl, List.append_nil] at hd
    have hhash := (Lexeme.read_hash s.cursor).outcome
    rw [hok] at hhash
    rw [Except.ok.inj hhash, hnil rfl, ← hd]
    exact Lexeme.read_hash d
  · obtain ⟨w, post, hw, -, hlocal⟩ := Lexeme.read_local hok hx
    exact ⟨w, post, hw, fun d post' hd hcut _ ↦ hlocal d post' hd hcut⟩

/-- The first token that lies ahead stands behind the lexer's place. -/
theorem place_le_of_first {s : Lexer} {later : Bool} {xs ys : List Upcoming} {first : Token} {ts : List Token}
    (hs : ahead later s = xs ++ ys) (hts : xs.map (·.content) = (first :: ts).map .ok) :
    s.place ≤ first.span.start := by
  obtain ⟨i, xs, rfl, hi, -⟩ := List.map_eq_cons_iff.1 hts
  exact place_le_of_mem_ahead (by rw [hs]; exact List.mem_cons_self) hi

namespace Excerpts

variable {p e : Position} {s t u : Lexer} {x : Char}

theorem forward (h : Excerpts p e s t) {w post : List Char} (hw : s.cursor.rest = w ++ post)
    (hle : ⟨s.lineNumber, s.cursor.column + w.length⟩ ≤ e) : ∃ post', t.cursor.rest = w ++ post' ∧
      Cut post post' ∧ (post = [] → post' = []) ∧ ∀ {u v : Lexer}, SameTokens s u → SameTokens t v →
        u.At s.lineNumber (s.cursor.column + w.length) post s.pending →
          v.At t.lineNumber (t.cursor.column + w.length) post' t.pending → Excerpts p e u v := by
  have hcropped := h.cropped
  rw [hw] at hcropped
  obtain ⟨post', hpost, hcut, hnil, hcropped⟩ := hcropped.of_append hle
  refine ⟨post', hpost, hcut, hnil, fun hsu htv hu hv ↦ ⟨?_, ?_, ?_, ?_⟩⟩
  · rw [hsu.keepComments, h.left]
  · rw [htv.keepComments, h.right]
  · rw [place, place, hu.line, hu.column, hv.line, hv.column]
    exact h.moved.right w.length
  · rw [place, hu.line, hu.column, hu.rest, hu.pending, hv.rest, hv.pending]
    exact hcropped

theorem below (h : Excerpts p e s t) {skipped pending : List (List Char)} {w post : List Char}
    (hp : s.pending = skipped ++ (w ++ post) :: pending)
    (hle : ⟨s.lineNumber + skipped.length + 1, w.length⟩ ≤ e) : ∃ post' pending',
      t.cursor.rest = s.cursor.rest ∧ t.pending = skipped ++ (w ++ post') :: pending' ∧
        ∀ {u v : Lexer}, SameTokens s u → SameTokens t v →
          u.At (s.lineNumber + skipped.length + 1) w.length post pending →
            v.At (t.lineNumber + skipped.length + 1) w.length post' pending' → Excerpts p e u v := by
  have hcropped := h.cropped
  rw [hp, ← List.cons_append] at hcropped
  obtain ⟨line, pending', hls, hcropped⟩ := hcropped.of_lines (by
    rw [Position.le_def] at hle
    dsimp only [place] at hle ⊢
    omega)
  obtain ⟨hrest, hpending⟩ : _ ∧ t.pending = skipped ++ line :: pending' := List.cons.inj hls
  obtain ⟨post', rfl, -, -, hcropped⟩ := hcropped.of_append (by rwa [Nat.zero_add])
  refine ⟨post', pending', hrest, hpending, fun hsu htv hu hv ↦ ⟨?_, ?_, ?_, ?_⟩⟩
  · rw [hsu.keepComments, h.left]
  · rw [htv.keepComments, h.right]
  · rw [place, place, hu.line, hu.column, hv.line, hv.column]
    exact h.moved.below skipped.length w.length
  · rw [Nat.zero_add] at hcropped
    rw [place, hu.line, hu.column, hu.rest, hu.pending, hv.rest, hv.pending]
    exact hcropped

theorem lexeme (h : Excerpts p e s t) (hpos : 0 < t.cursor.column) {token : Token}
    (hs : lexeme x s = .ok token u) (hle : u.place ≤ e) :
    ∃ v, lexeme x t = .ok (token.relocate (Span.since p)) v ∧ Excerpts p e u v := by
  have hpos' : 0 < s.cursor.column := Nat.lt_of_lt_of_le hpos
    (Nat.le_trans (Nat.le_add_right _ _) (Nat.le_of_eq h.moved.column))
  obtain ⟨w, post, hw, htakes⟩ := exists_takes_of_lexeme hs
  obtain ⟨u', hu', hat, hsame⟩ := scans_of_takes (htakes s.cursor post hw (.refl post) id) hpos'
  rw [hs] at hu'
  obtain ⟨htoken, rfl⟩ := EStateM.Result.ok.inj hu'
  rw [place, hat.line, hat.column] at hle
  obtain ⟨post', hpost, hcut, hnil, hstands⟩ := h.forward hw hle
  obtain ⟨v, hv, hatv, hsamev⟩ := scans_of_takes (htakes t.cursor post' hpost hcut hnil) hpos
  refine ⟨v, ?_, hstands hsame hsamev hat hatv⟩
  have hstart := h.moved.left hpos
  have hspan : Span.since p token.span =
      .onLine t.lineNumber (t.cursor.column - 1) (t.cursor.column - 1 + w.length) := by
    rw [htoken]
    exact Span.since_eq hstart (hstart.right w.length)
  rw [hv, Token.relocate, hspan]

theorem blockComment_sameLine (h : Excerpts p e s t) {start start' n : Nat} {token : Token}
    (hstart : p.Moved ⟨s.lineNumber, start⟩ ⟨t.lineNumber, start'⟩)
    (hn : Lexeme.commentLength? false s.cursor.rest = some n) (hs : blockComment start s = .ok token u)
    (hle : u.place ≤ e) :
    ∃ v, Lexer.blockComment start' t = .ok (token.relocate (Span.since p)) v ∧ Excerpts p e u v := by
  simp only [Lexer.blockComment, hn] at hs
  cases hs
  obtain ⟨hpos, hlength⟩ := Lexeme.commentLength?_le hn
  have hcolumn := Cursor.forward_column hlength
  have htake : (s.cursor.rest.take n).length = n := List.length_take_of_le hlength
  have hend : (⟨s.lineNumber, s.cursor.column + (s.cursor.rest.take n).length⟩ : Position) ≤ e := by
    rwa [htake, ← hcolumn]
  obtain ⟨post', hpost, -, -, hstands⟩ := h.forward (List.take_append_drop n s.cursor.rest).symm hend
  have hn' : Lexeme.commentLength? false t.cursor.rest = some n := by
    rw [hpost]
    exact Lexeme.commentLength?_take hn post'
  have hcolumn' : (t.cursor.forward n).column = t.cursor.column + n :=
    Cursor.forward_column (Lexeme.commentLength?_le hn').2
  have hstop : p.Moved ⟨s.lineNumber, (s.cursor.forward n).position⟩
      ⟨t.lineNumber, (t.cursor.forward n).position⟩ := by
    rw [Cursor.position, Cursor.position, hcolumn, hcolumn']
    exact (h.moved.right n).left (Nat.add_pos_right _ hpos)
  refine ⟨{ t with cursor := t.cursor.forward n }, ?_, hstands ⟨rfl, rfl, rfl⟩ ⟨rfl, rfl, rfl⟩
    ⟨rfl, ?_, Cursor.forward_rest n _, rfl⟩ ⟨rfl, ?_, ?_, rfl⟩⟩
  · have hspan := Span.since_eq (s := ⟨⟨s.lineNumber, start⟩, _⟩) (r := ⟨⟨t.lineNumber, start'⟩, _⟩)
      hstart hstop
    rw [Token.relocate, hspan]
    simp only [Lexer.blockComment, hn']
  · rw [hcolumn, htake]
  · rw [hcolumn', htake]
  · rw [Cursor.forward_rest, hpost, List.drop_left' htake]

theorem blockComment_laterLine (h : Excerpts p e s t) {start start' : Nat} {token : Token}
    {c : Lexeme.CommentEnd}
    (hstart : p.Moved ⟨s.lineNumber, start⟩ ⟨t.lineNumber, start'⟩)
    (hnone : Lexeme.commentLength? false s.cursor.rest = none) (hc : Lexeme.commentEnd? s.pending = some c)
    (hs : blockComment start s = .ok token u) (hle : u.place ≤ e) :
    ∃ v, Lexer.blockComment start' t = .ok (token.relocate (Span.since p)) v ∧ Excerpts p e u v := by
  simp only [Lexer.blockComment, hnone, hc] at hs
  cases hs
  obtain ⟨skipped, hpending, hskipped, hreplace⟩ := Lexeme.commentEnd?_replace hc
  obtain ⟨-, -, -, hn⟩ := Lexeme.commentEnd?_eq hc
  obtain ⟨hpos, hlength⟩ := Lexeme.commentLength?_le hn
  have htake : (c.line.take c.length).length = c.length := List.length_take_of_le hlength
  have hcolumn {line : List Char} (hn : Lexeme.commentLength? false line = some c.length) :
      ((Cursor.ofLine line).forward c.length).column = c.length := by
    rw [Cursor.forward_column (Lexeme.commentLength?_le hn).2]
    exact Nat.zero_add _
  have hend : (⟨s.lineNumber + c.skipped + 1, c.length⟩ : Position) ≤ e := by
    rwa [← hcolumn hn]
  rw [← List.take_append_drop c.length c.line] at hpending
  obtain ⟨post', pending', hrest, hpending', hstands⟩ := h.below hpending (by rwa [htake, hskipped])
  rw [htake, hskipped] at hstands
  have hn' := Lexeme.commentLength?_take hn post'
  generalize hline : c.line.take c.length ++ post' = line at hpending' hn'
  have hstop : p.Moved ⟨s.lineNumber + c.skipped + 1, ((Cursor.ofLine c.line).forward c.length).position⟩
      ⟨t.lineNumber + c.skipped + 1, ((Cursor.ofLine line).forward c.length).position⟩ := by
    rw [Cursor.position, Cursor.position, hcolumn hn, hcolumn hn']
    exact (h.moved.below c.skipped c.length).left hpos
  refine ⟨{ t with
    pending := pending', cursor := (Cursor.ofLine line).forward c.length,
    lineNumber := t.lineNumber + c.skipped + 1 }, ?_, hstands ⟨rfl, rfl, rfl⟩ ⟨rfl, rfl, rfl⟩
    ⟨rfl, hcolumn hn, Cursor.forward_rest _ _, rfl⟩ ⟨rfl, hcolumn hn', ?_, rfl⟩⟩
  · have hspan := Span.since_eq (s := ⟨⟨s.lineNumber, start⟩, _⟩) (r := ⟨⟨t.lineNumber, start'⟩, _⟩)
      hstart hstop
    rw [Token.relocate, hspan]
    simp only [Lexer.blockComment, hrest, hnone, hpending', hreplace line pending' hn']
  · rw [Cursor.forward_rest, ← hline]
    exact List.drop_left' htake

theorem blockComment (h : Excerpts p e s t) {start start' : Nat} {token : Token}
    (hstart : p.Moved ⟨s.lineNumber, start⟩ ⟨t.lineNumber, start'⟩)
    (hs : blockComment start s = .ok token u) (hle : u.place ≤ e) :
    ∃ v, Lexer.blockComment start' t = .ok (token.relocate (Span.since p)) v ∧ Excerpts p e u v := by
  cases hn : Lexeme.commentLength? false s.cursor.rest with
  | some n => exact h.blockComment_sameLine hstart hn hs hle
  | none =>
    cases hc : Lexeme.commentEnd? s.pending with
    | some c => exact h.blockComment_laterLine hstart hn hc hs hle
    | none =>
      simp only [Lexer.blockComment, hn, hc] at hs
      cases hs

theorem scan (h : Excerpts p e s t) (hpos : 0 < t.cursor.column) {token : Token}
    (hs : scan x s = .ok token u) (hle : u.place ≤ e) :
    ∃ v, scan x t = .ok (token.relocate (Span.since p)) v ∧ Excerpts p e u v := by
  have hposition : p.Moved ⟨s.lineNumber, s.cursor.position⟩ ⟨t.lineNumber, t.cursor.position⟩ :=
    h.moved.left hpos
  by_cases hstar : x = '/' ∧ s.cursor.rest.head? = some '*'
  · obtain ⟨rfl, hhead⟩ := hstar
    obtain ⟨rest, hr⟩ := List.head?_eq_some_iff.1 hhead
    obtain ⟨c, hc, hcr, hcc⟩ := Cursor.nextIs_of_cons hr
    rw [Lexer.scan, if_pos rfl, hc] at hs
    have hplace := (blockComment_passes hs (by simp only [Cursor.position, hcc]; omega)).reaches.place_le
    rw [place] at hplace
    dsimp only at hplace
    rw [hcc] at hplace
    obtain ⟨rest', hr', -, -, hstands⟩ := h.forward (w := ['*']) hr (Position.le_trans hplace hle)
    obtain ⟨d, hd, hdr, hdc⟩ := Cursor.nextIs_of_cons hr'
    have hexcerpts : Excerpts p e { s with cursor := c } { t with cursor := d } :=
      hstands ⟨rfl, rfl, rfl⟩ ⟨rfl, rfl, rfl⟩ ⟨rfl, hcc, hcr, rfl⟩ ⟨rfl, hdc, hdr, rfl⟩
    rw [Lexer.scan, if_pos rfl, hd]
    exact hexcerpts.blockComment hposition hs hle
  · obtain ⟨c, hscan, hcr, hcc⟩ := scan_of_ne_star (not_and.1 hstar)
    obtain ⟨d, hscan', hdr, hdc⟩ : ∃ d, Lexer.scan x t = Lexer.lexeme x { t with cursor := d } ∧
        d.rest = t.cursor.rest ∧ d.column = t.cursor.column := by
      refine scan_of_ne_star fun hx hhead ↦ hstar ⟨hx, ?_⟩
      obtain ⟨tail, htail⟩ := h.cropped.exists_append
      obtain ⟨rest, hr⟩ := List.head?_eq_some_iff.1 hhead
      rw [htail, hr]
      rfl
    have hexcerpts : Excerpts p e { s with cursor := c } { t with cursor := d } := by
      refine ⟨h.left, h.right, ?_, ?_⟩
      · rw [place, place, hcc, hdc]
        exact h.moved
      · rw [place, hcc, hcr, hdr]
        exact h.cropped
    rw [hscan] at hs
    rw [hscan']
    exact hexcerpts.lexeme (by rwa [hdc]) hs hle

theorem nextChar? (h : Excerpts p e s t) {c : Cursor} (hc : nextChar? true s.cursor = (some x, c))
    (hle : ⟨s.lineNumber, c.column⟩ ≤ e) : ∃ d, nextChar? true t.cursor = (some x, d) ∧
      Excerpts p e { s with cursor := c } { t with cursor := d } ∧ 0 < d.column := by
  obtain ⟨-, hcolumn⟩ := dropWhile_of_nextChar? hc
  have hx := isBlank_of_nextChar? hc
  obtain ⟨hsplit, -⟩ := rest_of_nextChar? hc
  have hall : ∀ y ∈ s.cursor.rest.takeWhile isBlank, isBlank y = true := fun y hy ↦ List.mem_takeWhile_imp hy
  generalize s.cursor.rest.takeWhile isBlank = blanks at hcolumn hsplit hall
  have hlength : s.cursor.column + (blanks ++ [x]).length = c.column := by
    rw [List.length_append, List.length_singleton, hcolumn, Nat.add_assoc]
  obtain ⟨post', hr, -, -, hstands⟩ := h.forward hsplit (by rwa [hlength])
  have hhead : ∀ y ∈ (x :: post').head?, isBlank y = false := by
    intro y hy
    cases hy
    exact hx
  rw [List.append_assoc, List.singleton_append] at hr
  have htake : t.cursor.rest.takeWhile isBlank = blanks := by
    rw [hr, takeWhile_append hhead]
    exact List.takeWhile_eq_self_iff.2 hall
  have htdrop : t.cursor.rest.dropWhile isBlank = x :: post' := by
    rw [hr, dropWhile_append hhead, List.dropWhile_eq_nil_iff.2 hall]
    rfl
  obtain ⟨d, hd, hdr, hdc⟩ := nextChar?_of_dropWhile htdrop
  rw [htake] at hdc
  refine ⟨d, hd, hstands ⟨rfl, rfl, rfl⟩ ⟨rfl, rfl, rfl⟩ ⟨rfl, hlength.symm, rfl, rfl⟩
    ⟨rfl, ?_, hdr, rfl⟩, ?_⟩
  · rw [List.length_append, List.length_singleton, ← Nat.add_assoc]
    exact hdc
  · omega

theorem scanned (h : Excerpts p e s t) {token : Token} {c : Cursor}
    (hc : Lexer.nextChar? true s.cursor = (some x, c))
    (hs : Lexer.scan x { s with cursor := c } = .ok token u) (hle : u.place ≤ e) :
    ∃ d v, Lexer.nextChar? true t.cursor = (some x, d) ∧
      Lexer.scan x { t with cursor := d } = .ok (token.relocate (Span.since p)) v ∧ Excerpts p e u v := by
  obtain ⟨-, hcolumn⟩ := dropWhile_of_nextChar? hc
  have hreaches := (scan_passes hs (by simp only [hcolumn]; omega)).reaches.place_le
  obtain ⟨d, hd, hexcerpts, hpos⟩ := h.nextChar? hc (Position.le_trans hreaches hle)
  obtain ⟨v, hv, huv⟩ := hexcerpts.scan hpos hs hle
  exact ⟨d, v, hd, hv, huv⟩

theorem comment (h : Excerpts p e s t) (hf : s.find = .comment u) (hle : u.place ≤ e) :
    ∃ v, t.find = .comment v ∧ Excerpts p e u v := by
  obtain ⟨-, x, c, token, hc, hs, hk⟩ := scan_of_find_comment hf
  obtain ⟨d, v, hd, hv, huv⟩ := h.scanned hc hs hle
  refine ⟨v, ?_, huv⟩
  simp only [find, hd, hv, Token.relocate_kind, hk]
  rw [h.right]
  rfl

theorem token (h : Excerpts p e s t) {token : Token} (hf : s.find = .token token u) (hle : u.place ≤ e) :
    ∃ v, t.find = .token (token.relocate (Span.since p)) v ∧ Excerpts p e u v := by
  obtain ⟨x, c, hc, hs⟩ := scan_of_find_token hf
  have hk := isComment_of_find hf h.left
  obtain ⟨d, v, hd, hv, huv⟩ := h.scanned hc hs hle
  refine ⟨v, ?_, huv⟩
  simp only [find, hd, hv, Token.relocate_kind, hk]
  rfl

theorem lineEnd (h : Excerpts p e s t) (hf : s.find = .lineEnd u) {v : Lexer}
    (ha : advanceLine false u = (true, v)) (hle : v.place ≤ e) (later : Bool) :
    ∃ w, Excerpts p e v w ∧ ahead later t = ahead true w := by
  obtain ⟨skipped, hblank, hpending, hline, hcolumn⟩ := pending_of_advanceLine hf ha
  obtain ⟨line, pending', hrest, hpending', hstands⟩ := h.below (w := []) hpending (by
    rwa [List.length_nil, ← hline, ← hcolumn])
  have hr : t.cursor.rest.all isBlank = true := by
    rw [hrest]
    exact all_isBlank_of_lineEnd hf
  refine ⟨_, ?_, ahead_skip later hr hpending' hblank⟩
  exact hstands ((sameTokens_of_lineEnd hf).trans (sameTokens_of_advanceLine ha)) ⟨rfl, rfl, rfl⟩
    ⟨hline, hcolumn, rfl, rfl⟩ ⟨rfl, rfl, rfl, rfl⟩

/-- At the end of the excerpt nothing lies ahead. -/
theorem ahead_of_end (h : Excerpts p e s t) (hs : s.place = e) (later : Bool) : ahead later t = [] := by
  have hcropped := h.cropped
  rw [hs] at hcropped
  obtain ⟨hrest, hpending⟩ := hcropped.ended
  rw [ahead_of_blank later (by rw [hrest]; rfl), hpending]
  rfl

/-- The tokens that lie ahead up to the end of the excerpt are all that lies ahead in the excerpt. -/
theorem ahead_eq_map (h : Excerpts p e s t) {later : Bool} {xs ys : List Upcoming} {ts : List Token}
    (hs : ahead later s = xs ++ ys) (hts : xs.map (·.content) = ts.map .ok)
    (hle : ∀ t ∈ ts, t.span.start ≤ e ∧ t.span.stop.next ≤ e)
    (hlast : (ts.getLast?.map (·.span.stop.next)).getD s.place = e) :
    ahead later t = xs.map (Upcoming.relocate (Span.since p)) := by
  -- The induction follows the whole text, in which tokens may lie ahead of the excerpt. As soon as none of
  -- those of the excerpt is left, the place is its end, and the excerpt has been read.
  fun_induction ahead later s generalizing t xs ts with
  | case1 later s u hf v ha ih =>
    cases ts with
    | nil =>
      obtain rfl := List.map_eq_nil_iff.1 hts
      exact h.ahead_of_end hlast later
    | cons first ts =>
      have hplace := Position.le_trans (place_le_of_first hs hts) (hle first List.mem_cons_self).1
      obtain ⟨w, hw, hahead⟩ := h.lineEnd hf ha hplace later
      rw [hahead]
      exact ih hw hs hts hle (by simpa [List.getLast?_cons] using hlast)
  | case2 later s u hf v ha =>
    obtain ⟨rfl, -⟩ := List.append_eq_nil_iff.1 hs.symm
    obtain rfl := List.map_eq_nil_iff.1 hts.symm
    exact h.ahead_of_end hlast later
  | case3 later s err u hf =>
    cases ts with
    | nil =>
      obtain rfl := List.map_eq_nil_iff.1 hts
      exact h.ahead_of_end hlast later
    | cons first ts =>
      obtain ⟨i, xs, rfl, hi, -⟩ := List.map_eq_cons_iff.1 hts
      obtain ⟨rfl, -⟩ := List.cons.inj hs
      cases hi
  | case4 later s u hf ih =>
    cases ts with
    | nil =>
      obtain rfl := List.map_eq_nil_iff.1 hts
      exact h.ahead_of_end hlast later
    | cons first ts =>
      have hplace := Position.le_trans (place_le_of_first hs hts) (hle first List.mem_cons_self).1
      obtain ⟨v, hv, huv⟩ := h.comment hf hplace
      rw [ahead_eq, hv]
      exact ih huv hs hts hle (by simpa [List.getLast?_cons] using hlast)
  | case5 later s token u hf ih =>
    cases ts with
    | nil =>
      obtain rfl := List.map_eq_nil_iff.1 hts
      exact h.ahead_of_end hlast later
    | cons first ts =>
      obtain ⟨i, xs, rfl, hi, hxs⟩ := List.map_eq_cons_iff.1 hts
      obtain ⟨rfl, hmore⟩ := List.cons.inj hs
      obtain rfl := Except.ok.inj hi
      have hpasses := find_passes hf
      have hplace : token.span.stop.next = u.place := by
        rw [hpasses.stop, Position.next, place, Nat.sub_add_cancel hpasses.pos]
      obtain ⟨hfirst, hrest⟩ := List.forall_mem_cons.1 hle
      obtain ⟨v, hv, huv⟩ := h.token hf (hplace ▸ hfirst.2)
      rw [ahead_eq, hv]
      refine congrArg (_ :: ·) (ih huv hmore hxs hrest ?_)
      rw [← hlast, ← hplace, List.getLast?_cons]
      cases ts.getLast? <;> rfl

end Excerpts

end Lexer

end Linewise
