import Linewise.Proofs.Lexeme
import Linewise.Proofs.Upcoming

namespace Linewise.Lexer

open Text

structure At (s : Lexer) (line column : Nat) (rest : List Char) (pending : List (List Char)) :
    Prop where
  line : s.lineNumber = line
  column : s.cursor.column = column
  rest : s.cursor.rest = rest
  pending : s.pending = pending

theorem nextChar?_of_dropWhile {c : Cursor} {x : Char} {rest : List Char}
    (h : c.rest.dropWhile isBlank = x :: rest) :
    ∃ d, nextChar? true c = (some x, d) ∧ d.rest = rest ∧
      d.column = c.column + (c.rest.takeWhile isBlank).length + 1 := by
  have hsplit := List.takeWhile_append_dropWhile (p := isBlank) (l := c.rest)
  generalize hn : (c.rest.takeWhile isBlank).length = n at *
  have hrest : (c.forward n).rest = x :: rest := by
    rw [Cursor.forward_rest, ← hsplit, h, List.drop_left' hn]
  have hcolumn : (c.forward n).column = c.column + n :=
    Cursor.forward_column (by rw [← hsplit, List.length_append]; omega)
  obtain ⟨d, hd, hdr, hdc⟩ := Cursor.next?_of_cons hrest
  refine ⟨d, ?_, hdr, by rw [hdc, hcolumn]⟩
  simp only [nextChar?, if_true, hn, hd]

theorem nextChar?_of_blank {c : Cursor} (h : c.rest.dropWhile isBlank = []) :
    ∃ d, nextChar? true c = (none, d) := by
  have hall : c.rest.takeWhile isBlank = c.rest := by
    have := List.takeWhile_append_dropWhile (p := isBlank) (l := c.rest)
    rwa [h, List.append_nil] at this
  have hrest : (c.forward c.rest.length).rest = [] := by
    rw [Cursor.forward_rest, List.drop_length]
  refine ⟨c.forward c.rest.length, ?_⟩
  simp only [nextChar?, if_true, hall, Cursor.next?_eq_none_iff.2 hrest]

theorem dropWhile_of_nextChar? {c d : Cursor} {x : Char} (h : nextChar? true c = (some x, d)) :
    c.rest.dropWhile isBlank = x :: d.rest ∧
      d.column = c.column + (c.rest.takeWhile isBlank).length + 1 := by
  cases hd : c.rest.dropWhile isBlank with
  | nil =>
    obtain ⟨e, he⟩ := nextChar?_of_blank hd
    rw [h] at he
    cases he
  | cons y rest =>
    obtain ⟨e, he, her, hec⟩ := nextChar?_of_dropWhile hd
    rw [h] at he
    cases he
    exact ⟨by rw [her], hec⟩

theorem isBlank_of_nextChar? {c d : Cursor} {x : Char} (h : nextChar? true c = (some x, d)) : isBlank x = false :=
  head_dropWhile c.rest x (by rw [(dropWhile_of_nextChar? h).1]; rfl)

/-- The first character that is not blank is read with the blanks in front of it. -/
theorem rest_of_nextChar? {c d : Cursor} {x : Char} (h : nextChar? true c = (some x, d)) :
    c.rest = (c.rest.takeWhile isBlank ++ [x]) ++ d.rest ∧
      d.column = c.column + (c.rest.takeWhile isBlank ++ [x]).length := by
  obtain ⟨hdrop, hcolumn⟩ := dropWhile_of_nextChar? h
  refine ⟨?_, ?_⟩
  · rw [List.append_assoc, List.singleton_append, ← hdrop, List.takeWhile_append_dropWhile]
  · rw [hcolumn, List.length_append, List.length_singleton, Nat.add_assoc]

def Scans (s : Lexer) (kind : TokenKind) (w post : List Char)
    (r : EStateM.Result LexicalError Lexer Token) : Prop :=
  ∃ t, r = .ok ⟨kind, .onLine s.lineNumber (s.cursor.column - 1) (s.cursor.column - 1 + w.length)⟩ t ∧
    t.At s.lineNumber (s.cursor.column + w.length) post s.pending ∧ SameTokens s t

def Finds (reader : Lexer → EStateM.Result LexicalError Lexer Token) (kind : TokenKind)
    (w post : List Char) : Prop :=
  '\r' ∉ w.getLast? ∧ ∀ (s : Lexer) (post' : List Char), s.cursor.rest = w ++ post' →
    Cut post post' → 0 < s.cursor.column → Scans s kind w post' (reader s)

theorem scans_of_takes {x : Char} {s : Lexer} {kind : TokenKind} {w post : List Char}
    (h : (Lexeme.read x s.cursor).Takes kind s.cursor w post) (hc : 0 < s.cursor.column) :
    Scans s kind w post (lexeme x s) := by
  refine ⟨{ s with cursor := (Lexeme.read x s.cursor).cursor }, ?_, ⟨rfl, h.column, h.rest, rfl⟩,
    ⟨rfl, rfl, rfl⟩⟩
  have hlast : (Lexeme.read x s.cursor).last = s.cursor.column - 1 + w.length := by
    rw [h.last, Cursor.position, h.column]
    omega
  simp only [lexeme, h.outcome, h.first, hlast, Cursor.position]

theorem ne_hash_of_lexeme {x : Char} {s t : Lexer} {token : Token} (h : lexeme x s = .ok token t)
    (hk : token.kind.isComment = false) : x ≠ '#' := by
  rintro rfl
  have hcomment := (Lexeme.read_hash s.cursor).outcome
  rw [(read_of_lexeme h).1] at hcomment
  rw [Except.ok.inj hcomment] at hk
  cases hk

theorem finds_of_lexeme {x : Char} {s t : Lexer} {token : Token} (h : lexeme x s = .ok token t)
    (hk : token.kind.isComment = false) :
    ∃ w post, s.cursor.rest = w ++ post ∧ Finds (lexeme x) token.kind w post := by
  obtain ⟨w, post, hw, hreturn, hlocal⟩ := Lexeme.read_local (read_of_lexeme h).1 (ne_hash_of_lexeme h hk)
  exact ⟨w, post, hw, hreturn, fun s' post' hs hcut hc ↦
    scans_of_takes (hlocal s'.cursor post' hs hcut) hc⟩

theorem kind_of_blockComment {start : Nat} {s t : Lexer} {token : Token}
    (h : blockComment start s = .ok token t) : token.kind = .blockComment :=
  congrArg Token.kind (endsComment_of_blockComment h).2

theorem ne_star_of_scan {x : Char} {s t : Lexer} {token : Token} (h : scan x s = .ok token t)
    (hk : token.kind.isComment = false) (hx : x = '/') : s.cursor.rest.head? ≠ some '*' := by
  intro hs
  obtain ⟨rest, hr⟩ := List.head?_eq_some_iff.1 hs
  obtain ⟨d, hd, -⟩ := Cursor.nextIs_of_cons hr
  rw [scan, if_pos hx, hd] at h
  rw [kind_of_blockComment h] at hk
  cases hk

theorem scan_of_ne_star {x : Char} {s : Lexer} (h : x = '/' → s.cursor.rest.head? ≠ some '*') :
    ∃ c, scan x s = lexeme x { s with cursor := c } ∧ c.rest = s.cursor.rest ∧
      c.column = s.cursor.column := by
  by_cases hx : x = '/'
  · obtain ⟨c, hc, hr⟩ := Cursor.nextIs_of_ne (h hx)
    exact ⟨c, by rw [scan, if_pos hx, hc], hr⟩
  · exact ⟨s.cursor, by rw [scan, if_neg hx], rfl, rfl⟩

theorem finds_of_scan {x : Char} {s t : Lexer} {token : Token} (h : scan x s = .ok token t)
    (hk : token.kind.isComment = false) :
    ∃ w post, s.cursor.rest = w ++ post ∧ Finds (scan x) token.kind w post := by
  have hstar := ne_star_of_scan h hk
  obtain ⟨c, hc, hcr, -⟩ := scan_of_ne_star hstar
  rw [hc] at h
  obtain ⟨w, post, hw, hreturn, hfinds⟩ := finds_of_lexeme h hk
  rw [show s.cursor.rest = w ++ post from hcr.symm.trans hw] at hstar
  refine ⟨w, post, hcr.symm.trans hw, hreturn, fun s' post' hs hcut hpos ↦ ?_⟩
  have hstar' : x = '/' → s'.cursor.rest.head? ≠ some '*' := by
    intro hx hs'
    have hne := (hcut.append w).head (P := (· ≠ '*')) (by decide)
      (fun y hy hys ↦ hstar hx (by rw [← hys]; exact hy))
    rw [hs] at hs'
    exact hne '*' hs' rfl
  obtain ⟨d, hd, hdr, hdc⟩ := scan_of_ne_star hstar'
  obtain ⟨u, hu, hat, hsame⟩ := hfinds { s' with cursor := d } post' (hdr.trans hs) hcut
    (by rw [hdc]; exact hpos)
  simp only [hdc] at hu hat
  exact ⟨u, hd.trans hu, hat, ⟨hsame.tokens, hsame.held, hsame.keepComments⟩⟩

/-- The characters `x` and `w` are a token of the given kind when blanks stand before them and they
are cut off like in front of `post`. -/
structure Spelled (kind : TokenKind) (x : Char) (w post : List Char) : Prop where
  comment : kind.isComment = false
  blank : isBlank x = false
  finds : Finds (scan x) kind w post

theorem spelled_of_find {s t : Lexer} {token : Token} (h : s.find = .token token t)
    (hk : token.kind.isComment = false) : ∃ blanks x w post,
      s.cursor.rest = blanks ++ x :: (w ++ post) ∧ blanks.all isBlank = true ∧
        Spelled token.kind x w post := by
  obtain ⟨x, c, hc, hs⟩ := scan_of_find_token h
  obtain ⟨hdrop, -⟩ := dropWhile_of_nextChar? hc
  obtain ⟨w, post, hw, hfinds⟩ := finds_of_scan hs hk
  refine ⟨s.cursor.rest.takeWhile isBlank, x, w, post, ?_, ?_, hk, ?_, hfinds⟩
  · rw [← hw, ← hdrop, List.takeWhile_append_dropWhile]
  · exact List.all_eq_true.2 fun y hy ↦ List.mem_takeWhile_imp hy
  · exact head_dropWhile s.cursor.rest x (by rw [hdrop]; rfl)

theorem Spelled.find {kind : TokenKind} {x : Char} {w post : List Char}
    (h : Spelled kind x w post) {s : Lexer} {blanks post' : List Char}
    (hs : s.cursor.rest = blanks ++ x :: (w ++ post')) (hb : blanks.all isBlank = true)
    (hcut : Cut post post') :
    ∃ t, s.find = .token ⟨kind, .onLine s.lineNumber (s.cursor.column + blanks.length)
        (s.cursor.column + blanks.length + w.length)⟩ t ∧
      t.At s.lineNumber (s.cursor.column + blanks.length + 1 + w.length) post' s.pending ∧
      SameTokens s t := by
  have hx : ∀ y ∈ (x :: (w ++ post')).head?, isBlank y = false := by
    intro y hy
    cases hy
    exact h.blank
  have htake : s.cursor.rest.takeWhile isBlank = blanks := by
    rw [hs, takeWhile_append hx]
    exact List.takeWhile_eq_self_iff.2 (List.all_eq_true.1 hb)
  have hdrop : s.cursor.rest.dropWhile isBlank = x :: (w ++ post') := by
    have := List.takeWhile_append_dropWhile (p := isBlank) (l := s.cursor.rest)
    rw [htake, hs] at this
    rw [hs]
    exact List.append_cancel_left this
  obtain ⟨c, hc, hcr, hcc⟩ := nextChar?_of_dropWhile hdrop
  rw [htake] at hcc
  obtain ⟨t, ht, hat, hsame⟩ := h.finds.2 { s with cursor := c } post' hcr hcut
    (by simp only [hcc]; omega)
  simp only [hcc, Nat.add_sub_cancel] at ht hat
  refine ⟨t, ?_, hat, ⟨hsame.tokens, hsame.held, hsame.keepComments⟩⟩
  simp only [Lexer.find, hc, ht, h.comment, Bool.false_and, Bool.false_eq_true, if_false]

end Linewise.Lexer
