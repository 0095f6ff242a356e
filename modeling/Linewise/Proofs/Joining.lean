import Linewise.Proofs.BlankedLexing
import Linewise.Proofs.Relocate
import Linewise.Proofs.Spelling

namespace Linewise

def Position.down (k : Nat) (p : Position) : Position := ⟨p.line + k, p.column⟩

def Span.down (k : Nat) (s : Span) : Span := ⟨s.start.down k, s.stop.down k⟩

theorem Position.down_le_iff {k : Nat} {p q : Position} : p.down k ≤ q.down k ↔ p ≤ q := by
  simp only [le_def, down]
  omega

theorem Position.down_min (k : Nat) (p q : Position) : (min p q).down k = min (p.down k) (q.down k) := by
  have h := down_le_iff (k := k) (p := p) (q := q)
  change (if p ≤ q then p else q).down k = if p.down k ≤ q.down k then p.down k else q.down k
  by_cases hpq : p ≤ q
  · rw [if_pos hpq, if_pos (h.2 hpq)]
  · rw [if_neg hpq, if_neg (mt h.1 hpq)]

theorem Position.down_max (k : Nat) (p q : Position) : (max p q).down k = max (p.down k) (q.down k) := by
  have h := down_le_iff (k := k) (p := p) (q := q)
  change (if p ≤ q then q else p).down k = if p.down k ≤ q.down k then q.down k else p.down k
  by_cases hpq : p ≤ q
  · rw [if_pos hpq, if_pos (h.2 hpq)]
  · rw [if_neg hpq, if_neg (mt h.1 hpq)]

theorem uniform_down (k : Nat) : Uniform (Span.down k) := by
  intro s t
  simp only [Span.merge, Span.down, Position.down_min, Position.down_max]

namespace Lexer

open Text

section

variable (k : Nat)

def down (s : Lexer) : Lexer := { s with lineNumber := s.lineNumber + k }

def downResult : EStateM.Result LexicalError Lexer Token → EStateM.Result LexicalError Lexer Token
  | .ok t s => .ok (t.relocate (Span.down k)) (s.down k)
  | .error e s => .error (e.relocate (Span.down k)) (s.down k)

def Finding.down : Finding → Finding
  | lineEnd s => lineEnd (s.down k)
  | failure e s => failure (e.relocate (Span.down k)) (s.down k)
  | comment s => comment (s.down k)
  | token t s => token (t.relocate (Span.down k)) (s.down k)

theorem lexeme_down (x : Char) (s : Lexer) : lexeme x (s.down k) = downResult k (lexeme x s) := by
  simp only [lexeme, down]
  cases (Lexeme.read x s.cursor).outcome <;> rfl

theorem blockComment_down (start : Nat) (s : Lexer) :
    blockComment start (s.down k) = downResult k (blockComment start s) := by
  simp only [blockComment, down]
  cases Lexeme.commentLength? false s.cursor.rest with
  | some n => rfl
  | none =>
    cases Lexeme.commentEnd? s.pending with
    | none =>
      simp only [downResult, down, Nat.add_right_comm]
      rfl
    | some e =>
      simp only [downResult, down, Token.relocate, Span.down, Position.down, Nat.add_right_comm _ k]

theorem scan_down (x : Char) (s : Lexer) : scan x (s.down k) = downResult k (scan x s) := by
  unfold scan
  by_cases hx : x = '/'
  · rw [if_pos hx, if_pos hx]
    simp only [down]
    rcases s.cursor.nextIs '*' with ⟨_ | _, c⟩
    · exact lexeme_down k x { s with cursor := c }
    · exact blockComment_down k _ { s with cursor := c }
  · rw [if_neg hx, if_neg hx]
    exact lexeme_down k x s

theorem find_down (s : Lexer) : (s.down k).find = s.find.down k := by
  obtain ⟨pending, cursor, lineNumber, tokens, held, keepComments⟩ := s
  have hs (x : Char) (c : Cursor) := scan_down k x ⟨pending, c, lineNumber, tokens, held, keepComments⟩
  simp only [find, down] at hs ⊢
  rcases nextChar? true cursor with ⟨_ | x, c⟩
  · rfl
  · simp only [hs]
    cases scan x ⟨pending, c, lineNumber, tokens, held, keepComments⟩ with
    | error e t => rfl
    | ok token t =>
      cases keepComments <;> cases hk : token.kind.isComment <;>
        simp [downResult, Token.relocate, down, Finding.down, hk]

theorem advanceLine_down (force : Bool) (s : Lexer) :
    advanceLine force (s.down k) = ((advanceLine force s).1, (advanceLine force s).2.down k) := by
  unfold advanceLine down
  dsimp only
  by_cases hf : (!force && !s.cursor.rest.isEmpty) = true
  · rw [if_pos hf, if_pos hf]
  · rw [if_neg hf, if_neg hf]
    cases s.pending.dropWhile (·.all Text.isBlank) <;> simp only [Nat.add_right_comm]

theorem ahead_down (later : Bool) (s : Lexer) :
    ahead later (s.down k) = (ahead later s).map (Upcoming.relocate (Span.down k)) := by
  fun_induction ahead later s with
  | case1 later s t h u ha ih =>
    rw [ahead_eq, find_down, h]
    simp only [Finding.down, advanceLine_down, ha, ih]
  | case2 later s t h u ha =>
    rw [ahead_eq, find_down, h]
    simp only [Finding.down, advanceLine_down, ha, List.map_nil]
  | case3 later s e t h =>
    rw [ahead_eq, find_down, h]
    rfl
  | case4 later s t h ih =>
    rw [ahead_eq, find_down, h]
    exact ih
  | case5 later s token t h ih =>
    rw [ahead_eq, find_down, h]
    simp only [Finding.down, ih]
    rfl

end

/-- The lines of a text, and those of a text that goes on with `more` after the last one: that one may
lose a carriage return to its line end. -/
inductive Joined (more : List (List Char)) : List (List Char) → List (List Char) → Prop
  | last (line : List Char) : Joined more [line] (line :: more)
  | carriageReturn (line : List Char) : Joined more [line ++ ['\r']] (line :: more)
  | cons (line : List Char) {ls ls' : List (List Char)} :
      Joined more ls ls' → Joined more (line :: ls) (line :: ls')

namespace Joined

variable {more ls ls' front : List (List Char)} {w post rest : List Char}

theorem of_append (h : Joined more ((w ++ post) :: ls) (rest :: ls')) (hw : '\r' ∉ w.getLast?) :
    ∃ post', rest = w ++ post' ∧ Cut post post' ∧ Joined more (post :: ls) (post' :: ls') := by
  generalize hl : (w ++ post) :: ls = l at h
  cases h with
  | last line =>
    obtain ⟨rfl, rfl⟩ := List.cons.inj hl
    exact ⟨post, rfl, .refl post, .last post⟩
  | cons line h =>
    obtain ⟨rfl, rfl⟩ := List.cons.inj hl
    exact ⟨post, rfl, .refl post, .cons post h⟩
  | carriageReturn line =>
    obtain ⟨hline, rfl⟩ := List.cons.inj hl
    rcases List.eq_nil_or_concat post with rfl | ⟨post', x, rfl⟩
    · rw [List.append_nil] at hline
      exact absurd (by rw [hline]; simp) hw
    · rw [List.concat_eq_append, ← List.append_assoc] at hline
      obtain ⟨rfl, hx⟩ := List.append_inj' hline rfl
      obtain rfl := (List.cons.inj hx).1
      rw [List.concat_eq_append]
      refine ⟨post', rfl, ?_, .carriageReturn post'⟩
      cases post' with
      | nil => exact .inr (.inl rfl)
      | cons y post' => exact .inl rfl

theorem of_lines (h : Joined more (front ++ rest :: ls) ls') :
    ∃ rest' ls₁, ls' = front ++ rest' :: ls₁ ∧ Joined more (rest :: ls) (rest' :: ls₁) := by
  induction front generalizing ls' with
  | nil =>
    cases h with
    | last => exact ⟨_, _, rfl, .last _⟩
    | carriageReturn => exact ⟨_, _, rfl, .carriageReturn _⟩
    | cons _ h => exact ⟨_, _, rfl, .cons _ h⟩
  | cons line front ih =>
    generalize hl : line :: front ++ rest :: ls = l at h
    cases h with
    | last line' => simp at hl
    | carriageReturn line' => simp at hl
    | cons line' h =>
      obtain ⟨rfl, rfl⟩ := List.cons.inj hl
      obtain ⟨rest', ls₁, rfl, hjoined⟩ := ih h
      exact ⟨rest', ls₁, rfl, hjoined⟩

theorem of_blank (h : Joined more ls ls') (hb : ∀ l ∈ ls, l.all isBlank = true) :
    ∃ blanks, ls' = blanks ++ more ∧ (∀ l ∈ blanks, l.all isBlank = true) ∧
      blanks.length = ls.length := by
  induction h with
  | last line => exact ⟨[line], rfl, hb, rfl⟩
  | carriageReturn line =>
    refine ⟨[line], rfl, ?_, rfl⟩
    have hline := hb _ List.mem_cons_self
    rw [List.all_append, Bool.and_eq_true] at hline
    exact List.forall_mem_singleton.2 hline.1
  | cons line h ih =>
    obtain ⟨hline, hlines⟩ := List.forall_mem_cons.1 hb
    obtain ⟨blanks, rfl, hblanks, hlength⟩ := ih hlines
    exact ⟨line :: blanks, rfl, List.forall_mem_cons.2 ⟨hline, hblanks⟩, congrArg (· + 1) hlength⟩

end Joined

/-- A carriage return at the end of a line does not close a comment. -/
theorem commentLength?_carriageReturn (star : Bool) (line : List Char) :
    Lexeme.commentLength? star (line ++ ['\r']) = Lexeme.commentLength? star line := by
  induction line generalizing star with
  | nil => cases star <;> rfl
  | cons c line ih => simp only [List.cons_append, Lexeme.commentLength?, ih]

namespace Joined

variable {more ls ls' : List (List Char)} {rest rest' : List Char}

theorem commentLength?_eq (h : Joined more (rest :: ls) (rest' :: ls')) :
    Lexeme.commentLength? false rest' = Lexeme.commentLength? false rest := by
  cases h with
  | last => rfl
  | carriageReturn => exact (commentLength?_carriageReturn false _).symm
  | cons => rfl

theorem tail (h : Joined more (rest :: ls) (rest' :: ls')) (hne : ls ≠ []) : Joined more ls ls' := by
  cases h with
  | last => exact absurd rfl hne
  | carriageReturn => exact absurd rfl hne
  | cons _ h => exact h

theorem ended (h : Joined more (rest :: ls) (rest' :: ls')) : Joined more ([] :: ls) ([] :: ls') := by
  cases h with
  | last => exact .last []
  | carriageReturn => exact .last []
  | cons _ h => exact .cons [] h

theorem drop (h : Joined more (rest :: ls) (rest' :: ls')) {n : Nat} (hn : n ≤ rest'.length) :
    Joined more (rest.drop n :: ls) (rest'.drop n :: ls') := by
  cases h with
  | last => exact .last _
  | carriageReturn =>
    rw [List.drop_append_of_le_length hn]
    exact .carriageReturn _
  | cons _ h => exact .cons _ h

theorem commentEnd? (h : Joined more ls ls') {e : Lexeme.CommentEnd}
    (he : Lexeme.commentEnd? ls = some e) :
    ∃ e', Lexeme.commentEnd? ls' = some e' ∧ e'.skipped = e.skipped ∧ e'.length = e.length ∧
      Joined more (e.line :: e.pending) (e'.line :: e'.pending) := by
  induction h generalizing e with
  | last line =>
    rw [Lexeme.commentEnd?] at he ⊢
    cases hn : Lexeme.commentLength? false line with
    | none => simp [hn, Lexeme.commentEnd?] at he
    | some n =>
      rw [hn] at he
      cases he
      exact ⟨_, rfl, rfl, rfl, .last line⟩
  | carriageReturn line =>
    rw [Lexeme.commentEnd?, commentLength?_carriageReturn] at he
    rw [Lexeme.commentEnd?]
    cases hn : Lexeme.commentLength? false line with
    | none => simp [hn, Lexeme.commentEnd?] at he
    | some n =>
      rw [hn] at he
      cases he
      exact ⟨_, rfl, rfl, rfl, .carriageReturn line⟩
  | cons line h ih =>
    rw [Lexeme.commentEnd?] at he ⊢
    cases hn : Lexeme.commentLength? false line with
    | some n =>
      rw [hn] at he
      cases he
      exact ⟨_, rfl, rfl, rfl, .cons line h⟩
    | none =>
      rw [hn] at he
      obtain ⟨e₁, he₁, rfl⟩ := Option.map_eq_some_iff.1 he
      obtain ⟨e', he', hskipped, hlength, hjoined⟩ := ih he₁
      exact ⟨{ e' with skipped := e'.skipped + 1 }, by rw [he']; rfl, congrArg (· + 1) hskipped, hlength,
        hjoined⟩

end Joined

theorem Reaches.lineCount {s t : Lexer} (h : s.Reaches t) :
    t.lineNumber + t.pending.length = s.lineNumber + s.pending.length := by
  cases h with
  | sameLine w _ line _ pending => rw [line, pending]
  | laterLine skipped w pending line =>
    rw [line, pending, List.length_append, List.length_cons]
    omega

theorem isComment_of_find {s t : Lexer} {token : Token} (h : s.find = .token token t)
    (hs : s.keepComments = false) : token.kind.isComment = false := by
  obtain ⟨x, c, token', hc, hscan⟩ := scan_of_find (.inr ⟨token, h⟩)
  simp only [find, hc, hscan] at h
  split at h
  · cases h
  · next hk =>
    cases h
    simpa [hs] using hk

structure Stands (more : List (List Char)) (s t : Lexer) : Prop where
  left : s.keepComments = false
  right : t.keepComments = false
  line : t.lineNumber = s.lineNumber
  column : s.cursor.rest = [] ∨ t.cursor.column = s.cursor.column
  lines : Joined more (s.cursor.rest :: s.pending) (t.cursor.rest :: t.pending)

namespace Stands

variable {more : List (List Char)} {s t u : Lexer}

theorem lineEnd (h : Stands more s t) (hf : s.find = .lineEnd u) {v : Lexer}
    (ha : advanceLine false u = (true, v)) (later : Bool) :
    ∃ w, Stands more v w ∧ ahead later t = ahead true w := by
  obtain ⟨skipped, hblank, hpending, hline, hcolumn⟩ := pending_of_advanceLine hf ha
  have hlines := h.lines
  rw [hpending, ← List.cons_append] at hlines
  obtain ⟨rest', ls', hls, hjoined⟩ := hlines.of_lines
  obtain ⟨hrest, hpending'⟩ := List.cons.inj hls
  have hr : t.cursor.rest.all isBlank = true := by
    rw [hrest]
    exact all_isBlank_of_lineEnd hf
  let w : Lexer := { t with
    pending := ls', cursor := .ofLine rest', lineNumber := t.lineNumber + skipped.length + 1 }
  have hw : Stands more v w := by
    refine ⟨?_, h.right, ?_, .inr hcolumn.symm, hjoined⟩
    · rw [(sameTokens_of_advanceLine ha).keepComments, (sameTokens_of_lineEnd hf).keepComments, h.left]
    · rw [hline, ← h.line]
  exact ⟨w, hw, ahead_skip later hr hpending' hblank⟩

theorem noLine (h : Stands more s t) (hf : s.find = .lineEnd u) {v : Lexer}
    (ha : advanceLine false u = (false, v)) (later : Bool) :
    ahead later t = ahead true { t with
      pending := more, cursor := .ofLine [], lineNumber := s.lineNumber + s.pending.length } := by
  have hblank : ∀ l ∈ s.cursor.rest :: s.pending, l.all isBlank = true :=
    List.forall_mem_cons.2 ⟨all_isBlank_of_lineEnd hf, pending_of_no_line hf ha⟩
  obtain ⟨blanks, hls, hblanks, hlength⟩ := h.lines.of_blank hblank
  cases blanks with
  | nil => cases hlength
  | cons l blanks =>
    obtain ⟨hl, hlines⟩ := List.forall_mem_cons.1 hblanks
    have hrest : t.cursor.rest = l := (List.cons.inj hls).1
    have hpending : t.pending = blanks ++ more := (List.cons.inj hls).2
    rw [ahead_of_blank later (by rw [hrest]; exact hl), ahead_of_blank true rfl, hpending,
      List.dropWhile_append_of_pos hlines]
    dsimp only
    cases hd : more.dropWhile (·.all isBlank) with
    | nil => rfl
    | cons line pending =>
      have hle := (List.dropWhile_suffix (l := more) (·.all isBlank)).length_le
      rw [hd, List.length_cons] at hle
      rw [List.length_cons, List.length_cons] at hlength
      have hnumber : t.lineNumber + ((blanks ++ more).length - pending.length) =
          s.lineNumber + s.pending.length + (more.length - pending.length) := by
        rw [h.line, List.length_append]
        omega
      simp only [hnumber]

theorem token (h : Stands more s t) {token : Token} (hf : s.find = .token token u)
    (hk : token.kind.isComment = false) : ∃ v, t.find = .token token v ∧ Stands more u v := by
  obtain ⟨blanks, x, w, post, hr, hb, hspelled⟩ := spelled_of_find hf hk
  obtain ⟨u', hu', hat, hsame⟩ := hspelled.find hr hb (.refl post)
  rw [hf] at hu'
  obtain ⟨htoken, rfl⟩ := Finding.token.inj hu'
  have hlines := h.lines
  have hlast : '\r' ∉ (blanks ++ x :: w).getLast? := by
    have hw := hspelled.finds.1
    have hx := hspelled.blank
    rw [List.getLast?_append, List.getLast?_cons]
    cases hl : w.getLast? with
    | none =>
      rintro ⟨⟩
      cases hx
    | some y => simpa [hl] using hw
  have hsplit : s.cursor.rest = (blanks ++ x :: w) ++ post := by
    rw [hr, List.append_assoc, List.cons_append]
  rw [hsplit] at hlines
  obtain ⟨post', hr', hcut, hjoined⟩ := hlines.of_append hlast
  rw [List.append_assoc, List.cons_append] at hr'
  obtain ⟨v, hv, hatv, hsamev⟩ := hspelled.find hr' hb hcut
  have hcolumn : t.cursor.column = s.cursor.column := by
    rcases h.column with hnil | hcolumn
    · rw [hr] at hnil
      simp at hnil
    · exact hcolumn
  refine ⟨v, ?_, ?_, ?_, ?_, .inr ?_, ?_⟩
  · rw [hv, htoken, h.line, hcolumn]
  · rw [hsame.keepComments, h.left]
  · rw [hsamev.keepComments, h.right]
  · rw [hatv.line, hat.line, h.line]
  · rw [hatv.column, hat.column, hcolumn]
  · rw [hat.rest, hat.pending, hatv.rest, hatv.pending]
    exact hjoined

theorem blockComment (h : Stands more s t) (hcolumn : t.cursor.column = s.cursor.column) {start : Nat}
    {token : Token} (hs : blockComment start s = .ok token u) :
    ∃ token' v, Lexer.blockComment start t = .ok token' v ∧ token'.kind = .blockComment ∧
      Stands more u v := by
  have hlength := h.lines.commentLength?_eq
  unfold Lexer.blockComment at hs ⊢
  dsimp only at hs ⊢
  rw [hlength]
  split at hs
  · next n hn =>
    cases hs
    obtain ⟨-, hle⟩ := Lexeme.commentLength?_le hn
    obtain ⟨-, hle'⟩ := Lexeme.commentLength?_le (hlength.trans hn)
    refine ⟨_, _, rfl, rfl, h.left, h.right, h.line, .inr ?_, ?_⟩
    · simp only [Cursor.forward_column hle, Cursor.forward_column hle', hcolumn]
    · simp only [Cursor.forward_rest]
      exact h.lines.drop hle'
  · split at hs
    · next e he =>
      cases hs
      have hne : s.pending ≠ [] := by
        intro hnil
        rw [hnil] at he
        cases he
      obtain ⟨e', he', hskipped, hlength', hjoined⟩ := (h.lines.tail hne).commentEnd? he
      obtain ⟨-, -, -, hn⟩ := Lexeme.commentEnd?_eq he
      obtain ⟨-, -, -, hn'⟩ := Lexeme.commentEnd?_eq he'
      obtain ⟨-, hle⟩ := Lexeme.commentLength?_le hn
      obtain ⟨-, hle'⟩ := Lexeme.commentLength?_le hn'
      rw [he']
      refine ⟨_, _, rfl, rfl, h.left, h.right, ?_, .inr ?_, ?_⟩
      · simp only [h.line, hskipped]
      · rw [hlength'] at hle' ⊢
        exact (Cursor.forward_column (c := .ofLine _) hle').trans
          (Cursor.forward_column (c := .ofLine _) hle).symm
      · simp only [Cursor.forward_rest, Cursor.ofLine, ← hlength']
        exact hjoined.drop hle'
    · cases hs

theorem scan_comment (h : Stands more s t) (hcolumn : t.cursor.column = s.cursor.column)
    (hpos : 0 < s.cursor.column) {x : Char} {token : Token} (hs : scan x s = .ok token u)
    (hk : token.kind.isComment = true) :
    ∃ token' v, scan x t = .ok token' v ∧ token'.kind.isComment = true ∧ Stands more u v := by
  -- A block comment may go over many lines; a line comment is all that is left of its line.
  by_cases hstar : x = '/' ∧ s.cursor.rest.head? = some '*'
  · obtain ⟨rfl, hhead⟩ := hstar
    obtain ⟨rest, hr⟩ := List.head?_eq_some_iff.1 hhead
    obtain ⟨c, hc, hcr, hcc⟩ := Cursor.nextIs_of_cons hr
    have hlines := h.lines
    rw [show s.cursor.rest = ['*'] ++ rest from hr] at hlines
    obtain ⟨rest', hr', -, hjoined⟩ := hlines.of_append (by decide)
    obtain ⟨d, hd, hdr, hdc⟩ := Cursor.nextIs_of_cons hr'
    have hstands : Stands more { s with cursor := c } { t with cursor := d } :=
      ⟨h.left, h.right, h.line, .inr (by rw [hdc, hcc, hcolumn]), by rw [hcr, hdr]; exact hjoined⟩
    rw [scan, if_pos rfl, hc] at hs
    have hposition : s.cursor.position = t.cursor.position := by
      rw [Cursor.position, Cursor.position, hcolumn]
    obtain ⟨token', v, hv, hk', huv⟩ := hstands.blockComment (by rw [hdc, hcc, hcolumn]) hs
    refine ⟨token', v, ?_, by rw [hk']; rfl, huv⟩
    rw [scan, if_pos rfl, hd]
    exact hposition ▸ hv
  · obtain ⟨c, hc, hcr, hcc⟩ := scan_of_ne_star (not_and.1 hstar)
    rw [hc] at hs
    obtain rfl : x = '#' := Lexeme.eq_hash_of_isComment (read_of_lexeme hs).1 hk
    obtain ⟨v, hv, hatv, hsamev⟩ := scans_of_takes (s := t) (Lexeme.read_hash t.cursor)
      (by rw [hcolumn]; exact hpos)
    obtain ⟨u', hu, hat, hsame⟩ := scans_of_takes (s := { s with cursor := c }) (Lexeme.read_hash c)
      (by simp only [hcc]; exact hpos)
    rw [hs] at hu
    cases hu
    have hscan : scan '#' t = lexeme '#' t := by
      rw [scan, if_neg (by decide)]
    refine ⟨_, v, hscan.trans hv, rfl, ?_, ?_, ?_, .inl hat.rest, ?_⟩
    · rw [hsame.keepComments, h.left]
    · rw [hsamev.keepComments, h.right]
    · rw [hatv.line, hat.line, h.line]
    · rw [hat.rest, hat.pending, hatv.rest, hatv.pending]
      exact h.lines.ended

theorem firstChar (h : Stands more s t) {x : Char} {c : Cursor} (hc : nextChar? true s.cursor = (some x, c)) :
    ∃ d, nextChar? true t.cursor = (some x, d) ∧
      Stands more { s with cursor := c } { t with cursor := d } ∧ d.column = c.column ∧ 0 < c.column := by
  obtain ⟨hdrop, hcc⟩ := dropWhile_of_nextChar? hc
  have hx := isBlank_of_nextChar? hc
  obtain ⟨hsplit, -⟩ := rest_of_nextChar? hc
  have hlines := h.lines
  rw [hsplit] at hlines
  obtain ⟨post', hr', -, hjoined⟩ := hlines.of_append (by
    rw [List.getLast?_concat]
    rintro ⟨⟩
    cases hx)
  have hcolumn : t.cursor.column = s.cursor.column := by
    rcases h.column with hnil | hcolumn
    · rw [hnil] at hdrop
      cases hdrop
    · exact hcolumn
  generalize hb : s.cursor.rest.takeWhile isBlank = blanks at hr' hcc
  have hall : blanks.all isBlank = true := by
    rw [← hb]
    exact List.all_eq_true.2 fun y hy ↦ List.mem_takeWhile_imp hy
  have hnext : ∀ y ∈ (x :: post').head?, isBlank y = false := by
    intro y hy
    cases hy
    exact hx
  rw [List.append_assoc, List.singleton_append] at hr'
  have htake : t.cursor.rest.takeWhile isBlank = blanks := by
    rw [hr', takeWhile_append hnext]
    exact List.takeWhile_eq_self_iff.2 (List.all_eq_true.1 hall)
  have htdrop : t.cursor.rest.dropWhile isBlank = x :: post' := by
    rw [hr', dropWhile_append hnext, List.dropWhile_eq_nil_iff.2 (List.all_eq_true.1 hall)]
    rfl
  obtain ⟨d, hd, hdr, hdc⟩ := nextChar?_of_dropWhile htdrop
  rw [htake] at hdc
  have hsame : d.column = c.column := by rw [hdc, hcc, hcolumn]
  refine ⟨d, hd, ⟨h.left, h.right, h.line, .inr hsame, ?_⟩, hsame, by omega⟩
  rw [hdr]
  exact hjoined

theorem comment (h : Stands more s t) (hf : s.find = .comment u) :
    ∃ v, t.find = .comment v ∧ Stands more u v := by
  obtain ⟨-, x, c, token, hc, hs, hk⟩ := scan_of_find_comment hf
  obtain ⟨d, hd, hstands, hsame, hpos⟩ := h.firstChar hc
  obtain ⟨token', v, hv, hk', huv⟩ := hstands.scan_comment hsame hpos hs hk
  refine ⟨v, ?_, huv⟩
  simp only [find, hd, hv]
  rw [hk', h.right]
  rfl

/-- As long as the text alone has no error, the longer text has the same tokens first, and then what it
goes on with. -/
theorem ahead_append (h : Stands more s t) {later : Bool} {tokens : List Token}
    (ht : (ahead later s).map (·.content) = tokens.map .ok) :
    ahead later t = ahead later s ++ ahead true
      ⟨more, .ofLine [], s.lineNumber + s.pending.length, #[], none, false⟩ := by
  fun_induction ahead later s generalizing t tokens with
  | case1 later s u hf v ha ih =>
    obtain ⟨w, hw, hahead⟩ := h.lineEnd hf ha later
    rw [hahead, ih hw ht, (reaches_of_advanceLine hf ha).lineCount]
  | case2 later s u hf v ha =>
    rw [h.noLine hf ha, List.nil_append]
    exact (ahead_recast #[] none false (s := { t with
      pending := more, cursor := .ofLine [], lineNumber := s.lineNumber + s.pending.length }) true
      h.right).symm
  | case3 later s e u hf =>
    cases tokens with
    | nil => cases ht
    | cons token tokens => cases (List.cons.inj ht).1
  | case4 later s u hf ih =>
    obtain ⟨v, hv, huv⟩ := h.comment hf
    rw [ahead_eq, hv, ← (reaches_of_comment hf).lineCount]
    exact ih huv ht
  | case5 later s token u hf ih =>
    obtain ⟨v, hv, huv⟩ := h.token hf (isComment_of_find hf h.left)
    cases tokens with
    | nil => cases ht
    | cons token' tokens =>
      rw [ahead_eq, hv, ← (find_passes hf).reaches.lineCount]
      exact congrArg (_ :: ·) (ih huv (List.cons.inj ht).2)

end Stands

theorem lines_append_terminated {a : List Char} (h : '\n' ∉ a) (b : List Char) :
    lines (a ++ '\n' :: b) = dropTerminator (a ++ ['\n']) :: lines b := by
  rw [lines, pieces_append_newline h, List.map_cons, lines]

/-- After a text and a line feed comes another text: the lines of the one are followed by those of the
other, with an empty line in between where the first text ends with a line feed or is empty. -/
theorem lines_joined (line source rest : List Char) : ∃ more,
    Joined more (line :: lines source) (line :: lines (source ++ '\n' :: rest)) ∧
      (more = lines rest ∧ (lines source).length = source.count '\n' + 1 ∨
        more = [] :: lines rest ∧ (lines source).length = source.count '\n') := by
  by_cases hn : '\n' ∈ source
  · obtain ⟨a, b, hsource, ha⟩ := List.eq_append_cons_of_mem hn
    have hlt : b.length < source.length := by
      rw [hsource, List.length_append, List.length_cons]
      omega
    obtain ⟨more, hjoined, hmore⟩ := lines_joined (dropTerminator (a ++ ['\n'])) b rest
    have hcount : source.count '\n' = b.count '\n' + 1 := by
      rw [hsource, List.count_append, List.count_cons_self, List.count_eq_zero.2 ha, Nat.zero_add]
    rw [hcount, hsource, List.append_assoc, List.cons_append, lines_append_terminated ha,
      lines_append_terminated ha, List.length_cons, Nat.add_right_cancel_iff, Nat.add_right_cancel_iff]
    exact ⟨more, .cons line hjoined, hmore⟩
  · by_cases hne : source = []
    · subst hne
      exact ⟨[] :: lines rest, .last line, .inr ⟨rfl, rfl⟩⟩
    · rw [lines_of_no_newline hn hne, lines_append_terminated hn, dropTerminator_append_newline]
      refine ⟨lines rest, .cons line ?_, .inl ⟨rfl, by rw [List.count_eq_zero.2 hn]; rfl⟩⟩
      split
      · next hr =>
        obtain ⟨body, rfl⟩ := List.getLast?_eq_some_iff.1 hr
        rw [List.dropLast_concat]
        exact .carriageReturn body
      · exact .last source
termination_by source.length

theorem ahead_linesDown (rest : List Char) (k : Nat) :
    ahead true ⟨lines rest, .ofLine [], k, #[], none, false⟩ =
      (ofText rest false).upcoming.map (Upcoming.relocate (Span.down k)) := by
  have hstart : ahead true (ofText rest false) = ahead false (ofText rest false) := by
    rw [ahead_of_blank true rfl, ahead_of_blank false rfl]
  have hdown : (ofText rest false).down k = ⟨lines rest, .ofLine [], k, #[], none, false⟩ := by
    simp only [ofText, down, Nat.zero_add]
  rw [upcoming_of_not_held rfl, ← hstart, ← ahead_down, hdown]

/-- Where a text has no lexical error, what lies ahead in it and a text on further lines is first what
lies ahead in the one and then, further down, what lies ahead in the other. -/
theorem upcoming_append {source : List Char} (rest : List Char) {tokens : List Token}
    (h : (ofText source false).upcoming.map (·.content) = tokens.map .ok) :
    (ofText (source ++ '\n' :: rest) false).upcoming = (ofText source false).upcoming ++
      (ofText rest false).upcoming.map (Upcoming.relocate (Span.down (source.count '\n' + 1))) := by
  obtain ⟨more, hjoined, hmore⟩ := lines_joined [] source rest
  have hstands : Stands more (ofText source false) (ofText (source ++ '\n' :: rest) false) :=
    ⟨rfl, rfl, rfl, .inl rfl, hjoined⟩
  rw [upcoming_of_not_held rfl] at h
  rw [upcoming_of_not_held rfl, hstands.ahead_append h, ← ahead_linesDown]
  refine congrArg (_ ++ ·) ?_
  rcases hmore with ⟨rfl, hlength⟩ | ⟨rfl, hlength⟩
  · simp only [ofText, hlength, Nat.zero_add]
  · have hempty : ([] :: lines rest : List (List Char)) = [] ++ [] :: lines rest := rfl
    rw [ahead_skip true rfl hempty (List.forall_mem_nil _)]
    simp only [ofText, hlength, Nat.zero_add, List.length_nil, Nat.add_zero]

end Lexer

end Linewise
