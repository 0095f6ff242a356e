import Linewise.Proofs.Calls
import Linewise.Proofs.SideBySide
import Linewise.Proofs.Spelling
import Linewise.Proofs.Stepwise.Tokens

namespace Linewise

open Text

namespace Cursor

variable {c d e : Cursor} {x : Char} {rest : List Char}

/-- The cursors differ at most in the character in front of the current one, and in whether the last move was
a step back. -/
def SameView (c d : Cursor) : Prop := ∃ previous steppedBack, d = { c with previous, steppedBack }

namespace SameView

theorem refl (c : Cursor) : SameView c c := ⟨_, _, rfl⟩

theorem trans (h : SameView c d) (h' : SameView d e) : SameView c e := by
  obtain ⟨_, _, rfl⟩ := h
  obtain ⟨previous, steppedBack, rfl⟩ := h'
  exact ⟨previous, steppedBack, rfl⟩

theorem rest_eq (h : SameView c d) : d.rest = c.rest := by
  obtain ⟨_, _, rfl⟩ := h
  rfl

theorem position_eq (h : SameView c d) : d.position = c.position := by
  obtain ⟨_, _, rfl⟩ := h
  rfl

theorem next?_eq (h : SameView c d) : d.next? = c.next? := by
  obtain ⟨_, _, rfl⟩ := h
  rfl

theorem forward_one (h : SameView c d) (hr : c.rest = x :: rest) : d.forward 1 = c.forward 1 := by
  rw [Cursor.forward_one (h.rest_eq.trans hr), Cursor.forward_one hr]
  obtain ⟨_, _, rfl⟩ := h
  rfl

theorem forward (h : SameView c d) (n : Nat) : SameView (c.forward n) (d.forward n) := by
  cases n with
  | zero => exact h
  | succ n =>
    cases hr : c.rest with
    | nil => rwa [forward_of_nil hr, forward_of_nil (h.rest_eq.trans hr)]
    | cons x rest =>
      rw [forward_succ n c, forward_succ n d, h.forward_one hr]
      exact refl _

end SameView

/-- A step back from a character leads to where it was read from. -/
theorem exists_stepBack? (h : c.next? = some (x, d)) : ∃ e, d.stepBack? = some e ∧ SameView c e :=
  ⟨_, stepBack?_of_next h, c.current, true, rfl⟩

theorem sameView_peek (c : Cursor) : SameView c c.peek := by
  unfold peek
  split
  · exact .refl c
  · next h =>
    obtain ⟨e, he, hview⟩ := exists_stepBack? h
    rwa [he]

theorem nextIs_cases (x : Char) (c : Cursor) :
    (c.rest.head? = some x ∧ c.nextIs x = (true, c.forward 1)) ∨
      (c.rest.head? ≠ some x ∧ c.nextIs x = (false, c.peek)) := by
  by_cases hhead : c.rest.head? = some x
  · obtain ⟨rest, hr⟩ := List.head?_eq_some_iff.1 hhead
    refine .inl ⟨hhead, ?_⟩
    simp only [nextIs, next?, hr, if_true, forward_one hr]
  · exact .inr ⟨hhead, nextIs_eq_peek hhead⟩

/-- Some of the characters that are left were read, and others were at most looked for. -/
def ReadsTo (c d : Cursor) : Prop := ∃ n ≤ c.rest.length, SameView (c.forward n) d

namespace ReadsTo

theorem of_sameView (h : SameView c d) : ReadsTo c d := ⟨0, Nat.zero_le _, h⟩

theorem of_next? (h : c.next? = some (x, d)) : ReadsTo c d := by
  have hone : c.forward 1 = d := by simp only [forward, h]
  exact ⟨1, by simp [rest_of_next? h], hone ▸ .refl _⟩

theorem trans (h : ReadsTo c d) (h' : ReadsTo d e) : ReadsTo c e := by
  obtain ⟨m, hm, hview⟩ := h
  obtain ⟨n, hn, hview'⟩ := h'
  refine ⟨m + n, ?_, ?_⟩
  · rw [hview.rest_eq, forward_rest, List.length_drop] at hn
    omega
  · rw [forward_add]
    exact (hview.forward n).trans hview'

end ReadsTo

/-- Every token is read by reading characters and taking back single ones. -/
theorem lasting_readsTo (c : Cursor) : Lasting (ReadsTo c) where
  next h hn := h.trans (.of_next? hn)
  back h hn := by
    obtain ⟨e, he, hview⟩ := exists_stepBack? hn
    rw [he]
    exact h.trans (.of_sameView hview)

theorem readsTo_read (x : Char) (c : Cursor) : ReadsTo c (Lexeme.read x c).cursor :=
  ((lasting_readsTo c).parallel.read ⟨rfl, .of_sameView (.refl c)⟩ x).cursor.2

end Cursor

/-- A token is as long as it can be, and the cursor stands after its last character. -/
theorem Lexeme.read_view {x : Char} {c : Cursor} {kind : TokenKind} (h : (read x c).outcome = .ok kind)
    (hx : x ≠ '#') (hc : 0 < c.column) : ∃ w, c.rest = w ++ (read x c).cursor.rest ∧
      ReadsRight kind (x :: w) (read x c).cursor.rest ∧ (read x c).first = c.position ∧
      (read x c).last = c.position + w.length ∧ (c.forward w.length).SameView (read x c).cursor := by
  obtain ⟨w, hsplit, hright⟩ := read_right h hx
  obtain ⟨n, hn, hview⟩ := c.readsTo_read x
  obtain ⟨_, _, htakes⟩ := Lexer.Step.exists_takes h
  -- both say how far the cursor went: by the characters of the token, and by the characters that were read
  have hlength : w.length = n := by
    have hw := congrArg List.length hsplit
    rw [List.length_append, hview.rest_eq, Cursor.forward_rest, List.length_drop] at hw
    omega
  refine ⟨w, hsplit, hright, htakes.first, ?_, hlength ▸ hview⟩
  rw [htakes.last, hview.position_eq, Cursor.position, Cursor.position, Cursor.forward_column hn, hlength]
  omega

namespace Lexer

variable {s t u : Lexer} {x : Char}

def SameView (s t : Lexer) : Prop :=
  ∃ previous steppedBack, t = { s with cursor := { s.cursor with previous, steppedBack } }

namespace SameView

theorem of_cursor {c : Cursor} (h : s.cursor.SameView c) : SameView s { s with cursor := c } := by
  obtain ⟨previous, steppedBack, rfl⟩ := h
  exact ⟨previous, steppedBack, rfl⟩

theorem cursor (h : SameView s t) : s.cursor.SameView t.cursor := by
  obtain ⟨previous, steppedBack, rfl⟩ := h
  exact ⟨previous, steppedBack, rfl⟩

theorem refl (s : Lexer) : SameView s s := ⟨_, _, rfl⟩

theorem trans (h : SameView s t) (h' : SameView t u) : SameView s u := by
  obtain ⟨_, _, rfl⟩ := h
  obtain ⟨previous, steppedBack, rfl⟩ := h'
  exact ⟨previous, steppedBack, rfl⟩

theorem forward_one {rest : List Char} (h : SameView s t) (hr : s.cursor.rest = x :: rest) :
    t.forward 1 = s.forward 1 := by
  have hcursor := h.cursor.forward_one hr
  obtain ⟨_, _, rfl⟩ := h
  simp only [forward, hcursor]

end SameView

theorem exists_next?_of_nextChar? {skipBlanks : Bool} {c d : Cursor} (h : nextChar? skipBlanks c = (some x, d)) :
    ∃ e : Cursor, e.next? = some (x, d) ∧ (skipBlanks = true → isBlank x = false) := by
  have hblank : skipBlanks = true → isBlank x = false := by
    rintro rfl
    exact isBlank_of_nextChar? h
  unfold nextChar? at h
  dsimp only at h
  split at h <;> cases h
  next hn => exact ⟨_, hn, hblank⟩

theorem nextChar?_of_next? {skipBlanks : Bool} {c d : Cursor} (h : c.next? = some (x, d))
    (hx : skipBlanks = true → isBlank x = false) : nextChar? skipBlanks c = (some x, d) := by
  have hskip : (if skipBlanks then c.forward (c.rest.takeWhile isBlank).length else c) = c := by
    cases skipBlanks with
    | false => rfl
    | true =>
      rw [Cursor.rest_of_next? h, List.takeWhile_cons, hx rfl]
      rfl
  simp only [nextChar?, hskip, h]

theorem column_pos_of_readChar (h : s.readChar true = (true, t)) : 0 < t.cursor.column := by
  obtain ⟨_, -, hnext, -⟩ := Step.exists_current h
  rw [(dropWhile_of_nextChar? hnext).2]
  exact Nat.succ_pos _

theorem exists_unreadChar {skipBlanks : Bool} (h : s.readChar skipBlanks = (true, t)) :
    ∃ u, t.unreadChar = .ok u ∧ u.readChar skipBlanks = (true, t) := by
  unfold readChar at h
  dsimp only at h
  rcases hc : nextChar? skipBlanks s.cursor with ⟨_ | x, d⟩
  · rw [hc] at h
    cases h
  · rw [hc] at h
    cases h
    -- the blanks in front of the character stay read, and it is not a blank, so none is skipped again
    obtain ⟨c, hnext, hblank⟩ := exists_next?_of_nextChar? hc
    obtain ⟨e, hback, hview⟩ := Cursor.exists_stepBack? hnext
    refine ⟨{ s with cursor := e }, ?_, ?_⟩
    · simp only [unreadChar, hback]
    · simp only [readChar, nextChar?_of_next? (hview.next?_eq.trans hnext) hblank]
      rfl

theorem Step.nextIs_of_head (h : s.cursor.rest.head? = some x) : Step.nextIs x s = .ok true (s.forward 1) := by
  rcases s.cursor.nextIs_cases x with ⟨-, hnext⟩ | ⟨hne, -⟩
  · rw [nextIs_eq, hnext]
    rfl
  · exact absurd h hne

theorem Step.nextIs_of_ne (h : s.cursor.rest.head? ≠ some x) :
    ∃ t, Step.nextIs x s = .ok false t ∧ s.SameView t := by
  rcases s.cursor.nextIs_cases x with ⟨hhead, -⟩ | ⟨-, hnext⟩
  · exact absurd hhead h
  · rw [nextIs_eq, hnext]
    exact ⟨_, rfl, .of_cursor s.cursor.sameView_peek⟩

theorem Step.sameView_of_nextIs (h : Step.nextIs x s = .ok false t) : s.SameView t := by
  by_cases hhead : s.cursor.rest.head? = some x
  · rw [nextIs_of_head hhead] at h
    cases h
  · obtain ⟨u, hu, hview⟩ := nextIs_of_ne hhead
    rw [hu] at h
    cases h
    exact hview

/-- Looking for some characters, one after the other and each of them in vain. -/
inductive LooksInVain : List Char → Lexer → Lexer → Prop
  | nil (s : Lexer) : LooksInVain [] s s
  | cons {x : Char} {xs : List Char} {s t u : Lexer} : Step.nextIs x s = .ok false t →
      LooksInVain xs t u → LooksInVain (x :: xs) s u

theorem LooksInVain.sameView {xs : List Char} (h : LooksInVain xs s t) : s.SameView t := by
  induction h with
  | nil s => exact .refl s
  | cons hlook _ ih => exact (Step.sameView_of_nextIs hlook).trans ih

theorem SameView.nextIs (h : SameView s t) (y : Char) :
    (s.cursor.rest.head? = some y → Step.nextIs y t = .ok true (s.forward 1)) ∧
      (s.cursor.rest.head? ≠ some y → ∃ u, Step.nextIs y t = .ok false u) := by
  rw [← h.cursor.rest_eq]
  refine ⟨fun hhead ↦ ?_, fun hne ↦ ?_⟩
  · obtain ⟨rest, hr⟩ := List.head?_eq_some_iff.1 hhead
    rw [h.cursor.rest_eq] at hr
    rw [Step.nextIs_of_head hhead, h.forward_one hr]
  · obtain ⟨u, hu, -⟩ := Step.nextIs_of_ne hne
    exact ⟨u, hu⟩

/-- A slash without a star after it is read like any other character. -/
theorem exists_scan_eq (hcomment : x = '/' → s.cursor.rest.head? ≠ some '*') :
    ∃ c, s.cursor.SameView c ∧ scan x s = lexeme x { s with cursor := c } := by
  unfold scan
  split
  · next hslash =>
    rw [Cursor.nextIs_eq_peek (hcomment hslash)]
    exact ⟨_, s.cursor.sameView_peek, rfl⟩
  · exact ⟨_, .refl s.cursor, rfl⟩

/-- Reading a token leaves behind what reading just its characters does. -/
theorem scan_view (hs : 0 < s.cursor.column) (hx : x ≠ '#') (hcomment : x = '/' → s.cursor.rest.head? ≠ some '*')
    {token : Token} (hscan : scan x s = .ok token t) : ∃ w, s.cursor.rest = w ++ t.cursor.rest ∧
      ReadsRight token.kind (x :: w) t.cursor.rest ∧
      token.span = .onLine s.lineNumber s.cursor.position (s.cursor.position + w.length) ∧
      (s.forward w.length).SameView t := by
  obtain ⟨c, hview, heq⟩ := exists_scan_eq hcomment
  have hc : 0 < c.column := by
    obtain ⟨_, _, rfl⟩ := hview
    exact hs
  rw [heq, lexeme] at hscan
  dsimp only at hscan
  split at hscan
  · next kind hok =>
    cases hscan
    obtain ⟨w, hsplit, hright, hfirst, hlast, hcursor⟩ := Lexeme.read_view hok hx hc
    refine ⟨w, hview.rest_eq.symm.trans hsplit, hright, ?_, ?_⟩
    · rw [hfirst, hlast, hview.position_eq]
    · exact .of_cursor (s := s.forward w.length) ((hview.forward w.length).trans hcursor)
  · cases hscan

theorem exists_scan_of_operatorStart (h : x ∈ Step.operatorStarts)
    (hcomment : x = '/' → s.cursor.rest.head? ≠ some '*') : ∃ token t, scan x s = .ok token t := by
  have hall : Step.operatorStarts.all (fun y ↦ (TokenKind.ofDelimiter? y).isNone) = true := by decide
  have hnone : TokenKind.ofDelimiter? x = none := Option.isNone_iff_eq_none.1 (List.all_eq_true.1 hall x h)
  obtain ⟨single, hsingle⟩ := Option.isSome_iff_exists.1 (Step.isSome_ofOperator? h)
  obtain ⟨c, -, heq⟩ := exists_scan_eq hcomment
  simp only [heq, lexeme, Lexeme.read, hnone, hsingle]
  exact ⟨_, _, rfl⟩

/-- In every state a character that is given back is read again, into the state that it was given back in. A
character that is looked for and does not come next changes nothing but what is remembered of the last moves,
and so do any number of them: the next character stays the same, and so does the column. So a token, be it a
symbol for which several longer ones were looked for, ends with its own last character, and at most what is
remembered of the last moves tells that more was looked at. -/
theorem unreading_exact (s : Lexer) :
    (∀ skipBlanks t, s.readChar skipBlanks = (true, t) →
      ∃ u, t.unreadChar = .ok u ∧ u.readChar skipBlanks = (true, t)) ∧
    (∀ x, Step.nextIs x s = .ok (s.cursor.nextIs x).1 { s with cursor := (s.cursor.nextIs x).2 }) ∧
    (∀ x t, Step.nextIs x s = .ok false t → s.SameView t) ∧
    (∀ xs t, LooksInVain xs s t → s.SameView t ∧ t.cursor.position = s.cursor.position ∧
      ∀ y, (s.cursor.rest.head? = some y → Step.nextIs y t = .ok true (s.forward 1)) ∧
        (s.cursor.rest.head? ≠ some y → ∃ u, Step.nextIs y t = .ok false u)) ∧
    ∀ x t, s.readChar true = (true, t) → t.cursor.current = some x →
      (x = '/' → t.cursor.rest.head? ≠ some '*') →
      (x ∈ Step.operatorStarts → ∃ token u, scan x t = .ok token u) ∧
      ∀ token u, scan x t = .ok token u → x ≠ '#' → Step.token t = .ok token u ∧
        ∃ w, t.cursor.rest = w ++ u.cursor.rest ∧ ReadsRight token.kind (x :: w) u.cursor.rest ∧
          token.span = .onLine t.lineNumber t.cursor.position (t.cursor.position + w.length) ∧
          (t.forward w.length).SameView u := by
  refine ⟨fun _ _ ↦ exists_unreadChar, fun x ↦ Step.nextIs_eq x s, fun _ _ ↦ Step.sameView_of_nextIs, ?_, ?_⟩
  · intro xs t h
    exact ⟨h.sameView, h.sameView.cursor.position_eq, h.sameView.nextIs⟩
  · intro x t hread hx hcomment
    refine ⟨fun hstart ↦ exists_scan_of_operatorStart hstart hcomment, fun token u hscan hhash ↦ ?_⟩
    have hmatches := Step.token_matches hx
    rw [hscan] at hmatches
    exact ⟨hmatches.of_ok, scan_view (column_pos_of_readChar hread) hhash hcomment hscan⟩

theorem unreading_exact_lessThan : ∃ s t v,
    Runs (.ofSource "a <- b" false) [(.readToken true, .found true)] s ∧
    s.readChar true = (true, t) ∧ t.cursor.current = some '<' ∧
    (∃ u, t.unreadChar = .ok u ∧ u.readChar true = (true, t)) ∧
    LooksInVain ['<', '='] t v ∧ t.SameView v ∧ v.cursor.position = 2 ∧
    Step.nextIs '-' v = .ok true (t.forward 1) ∧
    ∃ u, scan '<' t = .ok ⟨.lessThan, .onLine 1 2 2⟩ u ∧
      Step.token t = .ok ⟨.lessThan, .onLine 1 2 2⟩ u ∧ t.SameView u := by
  obtain ⟨s, hs, hcursor, hline⟩ : ∃ s, Runs (.ofSource "a <- b" false) [(.readToken true, .found true)] s ∧
      s.cursor = ⟨['a'], " <- b".toList, some 'a', some 'a', true⟩ ∧ s.lineNumber = 1 :=
    ⟨_, .cons_reply (by decide +kernel) rfl .nil, by decide +kernel, by decide +kernel⟩
  obtain ⟨t, ht⟩ : ∃ t, t = { s with cursor := ⟨['<', ' ', 'a'], "- b".toList, some '<', some ' ', false⟩ } :=
    ⟨_, rfl⟩
  have hread : s.readChar true = (true, t) := by
    rw [readChar, hcursor, ht]
    rfl
  have hcurrent : t.cursor.current = some '<' := by rw [ht]
  have hhead : t.cursor.rest.head? = some '-' := by
    rw [ht]
    rfl
  have hcolumn : t.cursor.position = 2 := by
    rw [ht]
    rfl
  obtain ⟨_, hless⟩ : ∃ u, scan '<' t = .ok ⟨.lessThan, .onLine 1 2 2⟩ u := by
    rw [ht, ← hline]
    exact ⟨_, rfl⟩
  obtain ⟨hunread, -, -, -, htokens⟩ := unreading_exact s
  obtain ⟨-, -, -, hlooks, -⟩ := unreading_exact t
  obtain ⟨t₁, h₁⟩ := ((hlooks [] t (.nil t)).2.2 '<').2 (by rw [hhead]; decide)
  obtain ⟨v, h₂⟩ := ((hlooks ['<'] t₁ (.cons h₁ (.nil t₁))).2.2 '=').2 (by rw [hhead]; decide)
  have hvain : LooksInVain ['<', '='] t v := .cons h₁ (.cons h₂ (.nil v))
  obtain ⟨hview, hposition, hnext⟩ := hlooks _ v hvain
  obtain ⟨hstarts, htokens⟩ := htokens '<' t hread hcurrent (absurd · (by decide))
  obtain ⟨token, u, hscan⟩ := hstarts (by decide)
  obtain ⟨rfl, -⟩ := EStateM.Result.ok.inj (hless.symm.trans hscan)
  obtain ⟨htoken, w, -, -, hspan, hend⟩ := htokens _ u hscan (by decide)
  have hlength : w.length = 0 := by
    have hlast : 2 = t.cursor.position + w.length := congrArg (·.stop.column) hspan
    omega
  rw [hlength] at hend
  exact ⟨s, t, v, hs, hread, hcurrent, hunread true t hread, hvain, hview, hposition.trans hcolumn,
    (hnext '-').1 hhead, u, hscan, htoken, hend⟩

end Lexer

end Linewise
