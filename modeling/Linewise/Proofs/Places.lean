import Linewise.Proofs.Spelled

namespace Linewise

namespace Lexeme

theorem commentLength?_le {star : Bool} {line : List Char} {n : Nat}
    (h : commentLength? star line = some n) : 0 < n ∧ n ≤ line.length := by
  induction line generalizing star n with
  | nil => cases h
  | cons c line ih =>
    rw [commentLength?] at h
    split at h
    · cases h
      exact ⟨Nat.one_pos, by simp⟩
    · obtain ⟨m, hm, rfl⟩ := Option.map_eq_some_iff.1 h
      have := ih hm
      rw [List.length_cons]
      omega

theorem commentEnd?_eq {lines : List (List Char)} {e : CommentEnd} (h : commentEnd? lines = some e) :
    ∃ skipped, lines = skipped ++ e.line :: e.pending ∧ skipped.length = e.skipped ∧
      commentLength? false e.line = some e.length := by
  induction lines generalizing e with
  | nil => cases h
  | cons line lines ih =>
    rw [commentEnd?] at h
    split at h
    · next n hn =>
      cases h
      exact ⟨[], rfl, rfl, hn⟩
    · obtain ⟨e, he, rfl⟩ := Option.map_eq_some_iff.1 h
      obtain ⟨skipped, rfl, hlength, hn⟩ := ih he
      exact ⟨line :: skipped, rfl, by rw [List.length_cons, hlength], hn⟩

end Lexeme

namespace Lexer

open Text

def place (s : Lexer) : Position := ⟨s.lineNumber, s.cursor.column⟩

/-- The one state comes from the other by going on in the text, on the same line or on a later one. -/
inductive Reaches (s t : Lexer) : Prop
  | sameLine (w : List Char) (rest : s.cursor.rest = w ++ t.cursor.rest)
      (line : t.lineNumber = s.lineNumber) (column : t.cursor.column = s.cursor.column + w.length)
      (pending : t.pending = s.pending)
  | laterLine (skipped : List (List Char)) (w : List Char)
      (pending : s.pending = skipped ++ (w ++ t.cursor.rest) :: t.pending)
      (line : t.lineNumber = s.lineNumber + skipped.length + 1) (column : t.cursor.column = w.length)

theorem Reaches.place_le {s t : Lexer} (h : s.Reaches t) : s.place ≤ t.place := by
  rw [Position.le_def]
  cases h with
  | sameLine w _ line column =>
    right
    simp only [place]
    omega
  | laterLine skipped w _ line =>
    left
    simp only [place]
    omega

theorem Reaches.of_append {s t u : Lexer} {w : List Char} (h : t.Reaches u)
    (rest : s.cursor.rest = w ++ t.cursor.rest) (line : t.lineNumber = s.lineNumber)
    (column : t.cursor.column = s.cursor.column + w.length) (pending : t.pending = s.pending) :
    s.Reaches u := by
  cases h with
  | sameLine w' rest' line' column' pending' =>
    refine .sameLine (w ++ w') (by rw [rest, rest', List.append_assoc]) (line'.trans line) ?_
      (pending'.trans pending)
    rw [column', column, List.length_append, Nat.add_assoc]
  | laterLine skipped w' pending' line' column' =>
    exact .laterLine skipped w' (pending.symm.trans pending') (by rw [line', line]) column'

structure Passes (s : Lexer) (start : Position) (token : Token) (t : Lexer) : Prop where
  start : token.span.start = start
  stop : token.span.stop = ⟨t.lineNumber, t.cursor.column - 1⟩
  ordered : token.span.start ≤ token.span.stop
  pos : 0 < t.cursor.column
  reaches : s.Reaches t

theorem passes_of_takes {x : Char} {s : Lexer} {kind : TokenKind} {w post : List Char}
    (h : (Lexeme.read x s.cursor).Takes kind s.cursor w post) (hw : s.cursor.rest = w ++ post)
    (hc : 0 < s.cursor.column) :
    ∃ token t, lexeme x s = .ok token t ∧
      s.Passes ⟨s.lineNumber, s.cursor.column - 1⟩ token t := by
  obtain ⟨t, ht, hat, -⟩ := scans_of_takes h hc
  refine ⟨_, t, ht, rfl, ?_, .inr ⟨rfl, Nat.le_add_right _ _⟩, ?_, ?_⟩
  · rw [hat.line, hat.column, Span.onLine, Nat.sub_add_comm hc]
  · rw [hat.column]
    omega
  · exact .sameLine w (by rw [hat.rest, hw]) hat.line hat.column hat.pending

theorem lexeme_passes {x : Char} {s t : Lexer} {token : Token} (h : lexeme x s = .ok token t)
    (hc : 0 < s.cursor.column) : s.Passes ⟨s.lineNumber, s.cursor.column - 1⟩ token t := by
  obtain ⟨kind, w, post, hw, htakes⟩ : ∃ kind w post, s.cursor.rest = w ++ post ∧
      (Lexeme.read x s.cursor).Takes kind s.cursor w post := by
    by_cases hx : x = '#'
    · subst hx
      exact ⟨_, s.cursor.rest, [], (List.append_nil _).symm, Lexeme.read_hash s.cursor⟩
    · cases hr : (Lexeme.read x s.cursor).outcome with
      | error e =>
        simp only [lexeme, hr] at h
        cases h
      | ok kind =>
        obtain ⟨w, post, hw, -, hlocal⟩ := Lexeme.read_local hr hx
        exact ⟨kind, w, post, hw, hlocal s.cursor post hw (.refl post)⟩
  obtain ⟨token', t', ht, hpasses⟩ := passes_of_takes htakes hw hc
  rw [h] at ht
  cases ht
  exact hpasses

theorem blockComment_passes {start : Nat} {s t : Lexer} {token : Token}
    (h : blockComment start s = .ok token t) (hstart : start < s.cursor.column) :
    s.Passes ⟨s.lineNumber, start⟩ token t := by
  obtain ⟨hends, rfl⟩ := endsComment_of_blockComment h
  cases hends with
  | @sameLine n hn =>
    obtain ⟨-, hle⟩ := Lexeme.commentLength?_le hn
    have hcolumn := Cursor.forward_column hle
    refine ⟨rfl, rfl, .inr ⟨rfl, ?_⟩, ?_, ?_⟩
    · simp only [Cursor.position, hcolumn]
      omega
    · simp only [hcolumn]
      omega
    · refine .sameLine (s.cursor.rest.take n) ?_ rfl ?_ rfl
      · simp only [Cursor.forward_rest, List.take_append_drop]
      · simp only [hcolumn, List.length_take_of_le hle]
  | @laterLine e _ he =>
    obtain ⟨skipped, hpending, hskipped, hlength⟩ := Lexeme.commentEnd?_eq he
    obtain ⟨hpos, hle⟩ := Lexeme.commentLength?_le hlength
    have hcolumn : ((Cursor.ofLine e.line).forward e.length).column = e.length := by
      rw [Cursor.forward_column hle]
      simp [Cursor.ofLine, Cursor.column]
    refine ⟨rfl, rfl, .inl ?_, ?_, ?_⟩
    · simp only
      omega
    · simp only [hcolumn, hpos]
    · refine .laterLine skipped (e.line.take e.length) ?_ ?_ ?_
      · simp only [Cursor.forward_rest, Cursor.ofLine, List.take_append_drop, hpending]
      · simp only [hskipped]
      · simp only [hcolumn, List.length_take_of_le hle]

theorem scan_passes {x : Char} {s t : Lexer} {token : Token} (h : scan x s = .ok token t)
    (hc : 0 < s.cursor.column) : s.Passes ⟨s.lineNumber, s.cursor.column - 1⟩ token t := by
  by_cases hstar : x = '/' ∧ s.cursor.rest.head? = some '*'
  · obtain ⟨rfl, hhead⟩ := hstar
    obtain ⟨rest, hr⟩ := List.head?_eq_some_iff.1 hhead
    obtain ⟨d, hd, hdr, hdc⟩ := Cursor.nextIs_of_cons hr
    rw [scan, if_pos rfl, hd] at h
    obtain ⟨hstart, hstop, hle, hpos, hreaches⟩ := blockComment_passes h (by
      rw [Cursor.position]
      simp only [hdc]
      omega)
    refine ⟨hstart, hstop, hle, hpos, ?_⟩
    exact hreaches.of_append (w := ['*']) (by rw [hr, hdr]; rfl) rfl hdc rfl
  · obtain ⟨c, hscan, hcr, hcc⟩ := scan_of_ne_star (not_and.1 hstar)
    rw [hscan] at h
    obtain ⟨hstart, hstop, hle, hpos, hreaches⟩ := lexeme_passes h (by simpa only [hcc] using hc)
    simp only [hcc] at hstart
    exact ⟨hstart, hstop, hle, hpos, hreaches.of_append (w := []) hcr.symm rfl hcc rfl⟩

theorem Reaches.of_nextChar? {s t : Lexer} {x : Char} {c : Cursor} (h : Reaches { s with cursor := c } t)
    (hc : nextChar? true s.cursor = (some x, c)) : s.Reaches t :=
  h.of_append (rest_of_nextChar? hc).1 rfl (rest_of_nextChar? hc).2 rfl

theorem find_passes {s t : Lexer} {token : Token} (h : s.find = .token token t) :
    s.Passes ⟨s.lineNumber, s.cursor.column + (s.cursor.rest.takeWhile isBlank).length⟩ token t := by
  obtain ⟨x, c, hc, hs⟩ := scan_of_find_token h
  obtain ⟨-, hcolumn⟩ := dropWhile_of_nextChar? hc
  obtain ⟨hstart, hstop, hle, hpos, hreaches⟩ := scan_passes hs (by simp only [hcolumn]; omega)
  refine ⟨?_, hstop, hle, hpos, hreaches.of_nextChar? hc⟩
  rw [hstart]
  simp only [hcolumn, Nat.add_sub_cancel]

theorem reaches_of_comment {s t : Lexer} (h : s.find = .comment t) : s.Reaches t := by
  obtain ⟨-, x, c, token, hc, hs, -⟩ := scan_of_find_comment h
  obtain ⟨-, hcolumn⟩ := dropWhile_of_nextChar? hc
  have hpasses := scan_passes hs (by simp only [hcolumn]; omega)
  exact hpasses.reaches.of_nextChar? hc

theorem all_isBlank_of_lineEnd {s t : Lexer} (h : s.find = .lineEnd t) :
    s.cursor.rest.all isBlank = true := by
  obtain ⟨c, hc, -⟩ := lineEnd_of_find h
  cases hd : s.cursor.rest.dropWhile isBlank with
  | nil => exact List.all_eq_true.2 (List.dropWhile_eq_nil_iff.1 hd)
  | cons x rest =>
    obtain ⟨d, hd, -⟩ := nextChar?_of_dropWhile hd
    rw [hc] at hd
    cases hd

/-- Only blank lines are passed over. -/
theorem pending_of_advanceLine {s t u : Lexer} (h : s.find = .lineEnd t)
    (ha : advanceLine false t = (true, u)) : ∃ skipped : List (List Char),
      (∀ line ∈ skipped, line.all isBlank = true) ∧
        s.pending = skipped ++ u.cursor.rest :: u.pending ∧
          u.lineNumber = s.lineNumber + skipped.length + 1 ∧ u.cursor.column = 0 := by
  have hr := rest_of_lineEnd h
  obtain ⟨c, -, rfl⟩ := lineEnd_of_find h
  have hsplit := List.takeWhile_append_dropWhile (p := fun l : List Char ↦ l.all isBlank)
    (l := s.pending)
  have hblank : ∀ line ∈ s.pending.takeWhile (·.all isBlank), line.all isBlank = true := by
    intro line hl
    exact List.mem_takeWhile_imp (p := fun l : List Char ↦ l.all isBlank) hl
  refine ⟨s.pending.takeWhile (·.all isBlank), hblank, ?_⟩
  unfold advanceLine at ha
  simp only at hr
  simp only [hr, List.isEmpty_nil, Bool.not_true, Bool.and_false, Bool.false_eq_true, if_false] at ha
  split at ha <;> cases ha
  next line pending hd =>
  rw [hd] at hsplit
  have hlength := congrArg List.length hsplit
  rw [List.length_append, List.length_cons] at hlength
  refine ⟨hsplit.symm, ?_, rfl⟩
  simp only
  omega

theorem pending_of_no_line {s t u : Lexer} (h : s.find = .lineEnd t)
    (ha : advanceLine false t = (false, u)) : ∀ line ∈ s.pending, line.all isBlank = true := by
  have hr := rest_of_lineEnd h
  obtain ⟨c, -, rfl⟩ := lineEnd_of_find h
  unfold advanceLine at ha
  simp only at hr
  simp only [hr, List.isEmpty_nil, Bool.not_true, Bool.and_false, Bool.false_eq_true, if_false] at ha
  split at ha <;> cases ha
  next hd => exact List.dropWhile_eq_nil_iff.1 hd

theorem reaches_of_advanceLine {s t u : Lexer} (h : s.find = .lineEnd t)
    (ha : advanceLine false t = (true, u)) : s.Reaches u := by
  obtain ⟨skipped, -, hpending, hline, hcolumn⟩ := pending_of_advanceLine h ha
  exact .laterLine skipped [] hpending hline hcolumn

/-- All that is still to come stands after what was read. -/
theorem place_le_of_mem_ahead {s : Lexer} {later : Bool} {i : Upcoming} (hi : i ∈ ahead later s)
    {token : Token} (ht : i.content = .ok token) : s.place ≤ token.span.start := by
  fun_induction ahead later s with
  | case1 later s t h u ha ih => exact Position.le_trans (reaches_of_advanceLine h ha).place_le (ih hi)
  | case2 => cases hi
  | case3 later s e t h =>
    obtain rfl := List.mem_singleton.1 hi
    cases ht
  | case4 later s t h ih => exact Position.le_trans (reaches_of_comment h).place_le (ih hi)
  | case5 later s token' t h ih =>
    have hpasses := find_passes h
    rcases List.mem_cons.1 hi with rfl | hi
    · cases ht
      rw [hpasses.start]
      exact .inr ⟨rfl, Nat.le_add_right _ _⟩
    · exact Position.le_trans hpasses.reaches.place_le (ih hi)

end Lexer

end Linewise
