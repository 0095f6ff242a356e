import Linewise.Proofs.Calls
import Linewise.Proofs.Coverage
import Linewise.Proofs.SideBySide

namespace Linewise

namespace Position

theorem Before.trans_le {p q r : Position} (h : p.Before q) (hr : q ≤ r) : p.Before r := by
  rw [Before, le_def] at *
  omega

theorem Before.irrefl (p : Position) : ¬ p.Before p := by
  rw [Before]
  omega

end Position

namespace Cursor

/-- Reading a character moves the cursor on, and taking it back moves it no further than before. -/
theorem lasting_column (n : Nat) : Lasting fun c ↦ n ≤ c.column where
  next h hn := by
    unfold next? at hn
    split at hn <;> cases hn
    exact Nat.le_succ_of_le h
  back h hn := by
    rw [stepBack?_of_next hn]
    exact h

variable (c : Cursor)

theorem column_le_nextChar? (skipBlanks : Bool) : c.column ≤ (Lexer.nextChar? skipBlanks c).2.column :=
  ((lasting_column c.column).parallel.nextChar? ⟨rfl, Nat.le_refl _⟩ skipBlanks).cursor.2

theorem column_le_nextIs (x : Char) : c.column ≤ (c.nextIs x).2.column :=
  ((lasting_column c.column).parallel.nextIs ⟨rfl, Nat.le_refl _⟩ x).cursor.2

theorem column_le_read (x : Char) : c.column ≤ (Lexeme.read x c).cursor.column :=
  ((lasting_column c.column).parallel.read ⟨rfl, Nat.le_refl _⟩ x).cursor.2

end Cursor

namespace Lexer

variable {s t : Lexer} {p : Position} {e : LexicalError}

def Exhausted (s : Lexer) : Prop := s.cursor.rest = [] ∧ s.pending = []

def Past (p : Position) (s : Lexer) : Prop := s.Exhausted ∨ p.Before s.place

theorem place_le_withCursor {c : Cursor} (h : s.cursor.column ≤ c.column) :
    s.place ≤ place { s with cursor := c } := .inr ⟨rfl, h⟩

structure GoesOn (s t : Lexer) : Prop where
  sameTokens : SameTokens s t
  onward : t.Exhausted ∨ s.place ≤ t.place

theorem GoesOn.of_cursor {c : Cursor} (h : s.cursor.column ≤ c.column) (hg : GoesOn { s with cursor := c } t) :
    GoesOn s t :=
  ⟨⟨hg.sameTokens.tokens, hg.sameTokens.held, hg.sameTokens.keepComments⟩,
    hg.onward.imp_right (Position.le_trans (place_le_withCursor h))⟩

theorem blockComment_error {start : Nat} (h : blockComment start s = .error e t) : GoesOn s t := by
  obtain ⟨-, -, -, rfl⟩ := eq_of_blockComment_error h
  exact ⟨⟨rfl, rfl, rfl⟩, .inl ⟨rfl, rfl⟩⟩

theorem lexeme_error {x : Char} (h : lexeme x s = .error e t) : GoesOn s t := by
  obtain ⟨-, rfl, -⟩ := read_of_lexeme_error h
  exact ⟨⟨rfl, rfl, rfl⟩, .inr (place_le_withCursor (s.cursor.column_le_read x))⟩

theorem scan_error {x : Char} (h : scan x s = .error e t) : GoesOn s t := by
  have hcolumn := s.cursor.column_le_nextIs '*'
  unfold scan at h
  split at h
  · split at h
    · next hstar =>
      rw [hstar] at hcolumn
      exact .of_cursor hcolumn (blockComment_error h)
    · next hstar =>
      rw [hstar] at hcolumn
      exact .of_cursor hcolumn (lexeme_error h)
  · exact lexeme_error h

theorem find_failure (h : s.find = .failure e t) : GoesOn s t := by
  have hcolumn := s.cursor.column_le_nextChar? true
  obtain ⟨x, c, hc, hs⟩ := scan_of_failure h
  rw [hc] at hcolumn
  exact .of_cursor hcolumn (scan_error hs)

theorem not_exhausted (h : ∀ t, s.find ≠ .lineEnd t) : ¬ s.Exhausted := by
  intro hs
  unfold find at h
  split at h
  · exact h _ rfl
  · next x c hc =>
    have hlength := nextChar?_some hc
    rw [hs.1] at hlength
    cases hlength

namespace Past

theorem of_goesOn (h : s.Past p) (hs : ¬ s.Exhausted) (hg : GoesOn s t) : t.Past p :=
  hg.onward.imp_right (h.resolve_left hs).trans_le

theorem before_place (h : s.Past p) (hs : ¬ s.Exhausted) : p.Before s.place := h.resolve_left hs

theorem lineEnd (h : s.Past p) (hf : s.find = .lineEnd t) : t.Past p := by
  have hcolumn := s.cursor.column_le_nextChar? true
  have hrest := rest_of_lineEnd hf
  obtain ⟨c, hc, rfl⟩ := lineEnd_of_find hf
  rw [hc] at hcolumn
  exact h.imp (fun h ↦ ⟨hrest, h.2⟩) (·.trans_le (place_le_withCursor hcolumn))

theorem advanceLine {u : Lexer} (h : s.Past p) (hf : s.find = .lineEnd t)
    (ha : advanceLine false t = (true, u)) : u.Past p := by
  refine .inr ((h.resolve_left fun hs ↦ ?_).trans_le (reaches_of_advanceLine hf ha).place_le)
  obtain ⟨skipped, -, hpending, -⟩ := pending_of_advanceLine hf ha
  rw [hs.2] at hpending
  simp at hpending

end Past

theorem exhausted_of_no_line {u : Lexer} (ha : advanceLine false s = (false, u)) : u.Exhausted := by
  unfold advanceLine at ha
  split at ha
  · cases ha
  · split at ha <;> cases ha
    exact ⟨rfl, rfl⟩

def starts (s : Lexer) : List Position := (s.tokens.toList ++ s.held.toList).map (·.span.start)

theorem SameTokens.starts_eq (h : SameTokens s t) : t.starts = s.starts := by
  rw [starts, starts, h.tokens, h.held]

/-- The tokens begin one after the other, all of them after the marks, and the lexer is past them all. -/
structure Ascends (marks : List Position) (s : Lexer) : Prop where
  pairwise : (marks ++ s.starts).Pairwise Position.Before
  past : ∀ p ∈ marks ++ s.starts, s.Past p

namespace Ascends

variable {marks : List Position}

theorem of_sameTokens (h : Ascends marks s) (hs : SameTokens s t)
    (hp : ∀ p, s.Past p → t.Past p) : Ascends marks t := by
  refine ⟨?_, ?_⟩
  · rw [hs.starts_eq]
    exact h.pairwise
  · rw [hs.starts_eq]
    exact fun p hmem ↦ hp p (h.past p hmem)

theorem sublist (h : Ascends marks s) {marks' : List Position} (hs : s.cursor = t.cursor)
    (hl : s.lineNumber = t.lineNumber) (hp : s.pending = t.pending)
    (hsub : (marks' ++ t.starts).Sublist (marks ++ s.starts)) : Ascends marks' t := by
  refine ⟨h.pairwise.sublist hsub, fun p hmem ↦ ?_⟩
  have hpast := h.past p (hsub.subset hmem)
  rw [Past, Exhausted, place, hs, hl, hp] at hpast
  exact hpast

/-- What is found keeps the order, as long as no token is held that would come before it. -/
theorem persistent (marks : List Position) : Persistent fun s ↦ Ascends marks s ∧ s.held = none where
  lineEnd := fun ⟨h, hheld⟩ hf ↦
    have hsame := sameTokens_of_lineEnd hf
    ⟨h.of_sameTokens hsame fun p hp ↦ hp.lineEnd hf, hsame.held.trans hheld⟩
  laterLine {s t u b} := fun ⟨h, hheld⟩ hf ha ↦ by
    have ht := sameTokens_of_lineEnd hf
    have hsame := ht.trans (sameTokens_of_advanceLine ha)
    refine ⟨h.of_sameTokens hsame fun p hp ↦ ?_, hsame.held.trans hheld⟩
    cases b with
    | true => exact hp.advanceLine hf ha
    | false => exact .inl (exhausted_of_no_line ha)
  failure := fun ⟨h, hheld⟩ hf ↦
    have hg := find_failure hf
    ⟨h.of_sameTokens hg.sameTokens fun p hp ↦ hp.of_goesOn (not_exhausted (by simp [hf])) hg,
      hg.sameTokens.held.trans hheld⟩
  comment := fun ⟨h, hheld⟩ hf ↦
    have hsame := sameTokens_of_find (.inl hf)
    ⟨h.of_sameTokens hsame fun p hp ↦ hp.of_goesOn (not_exhausted (by simp [hf]))
      ⟨hsame, .inr (reaches_of_comment hf).place_le⟩, hsame.held.trans hheld⟩
  token {s t token} := fun ⟨h, hheld⟩ hf ↦ by
    have hs : ¬ s.Exhausted := not_exhausted (by simp [hf])
    have hsame := sameTokens_of_find (.inr ⟨token, hf⟩)
    have hpasses := find_passes hf
    have hstarts : starts { t with tokens := t.tokens.push token } = s.starts ++ [token.span.start] := by
      simp [starts, hsame.tokens, hsame.held, hheld]
    have hnew : token.span.start.Before t.place :=
      (hpasses.before_iff.2 (Position.le_refl _)).of_le hpasses.ordered
    have hle : s.place ≤ token.span.start := by
      rw [hpasses.start]
      exact .inr ⟨rfl, Nat.le_add_right _ _⟩
    refine ⟨⟨?_, ?_⟩, hsame.held.trans hheld⟩
    · rw [hstarts, ← List.append_assoc, List.pairwise_append]
      refine ⟨h.pairwise, List.pairwise_singleton _ _, fun p hp q hq ↦ ?_⟩
      obtain rfl := List.mem_singleton.1 hq
      exact ((h.past p hp).before_place hs).trans_le hle
    · rw [hstarts, ← List.append_assoc]
      intro p hp
      rcases List.mem_append.1 hp with hp | hp
      · exact .inr (((h.past p hp).before_place hs).trans_le hpasses.reaches.place_le)
      · obtain rfl := List.mem_singleton.1 hp
        exact .inr hnew

/-- The token that is read begins after all those before it, and an error does not lead back. -/
theorem readToken (h : Ascends marks s) (acrossLines : Bool) :
    Ascends marks (finalState (readToken acrossLines s)) := by
  unfold Lexer.readToken
  split
  · next token hheld => exact h.sublist rfl rfl rfl (by simp [starts, hheld, finalState])
  · next hheld => exact ((persistent marks).pull ⟨h, hheld⟩ acrossLines).1

theorem unreadToken (h : Ascends marks s) (hu : s.unreadToken = .ok t) : Ascends marks t := by
  obtain ⟨hheld, tokens, token, htokens, rfl⟩ := unreadToken_eq_ok hu
  exact h.sublist rfl rfl rfl (by simp [starts, withTokens, hheld, htokens])

theorem clearTokens (h : Ascends marks s) : Ascends marks s.clearTokens :=
  h.sublist rfl rfl rfl (by simp [starts, Lexer.clearTokens])

theorem runs (h : Ascends marks s) {trace : List (Call × Reply)} (hr : Runs s trace t)
    (ht : ∀ i ∈ trace, i.1.onTokens = true) : Ascends marks t := by
  induction hr with
  | nil => exact h
  | @cons s t u call r trace hstep _ _ ih =>
    refine ih ?_ fun i hi ↦ ht i (List.mem_cons_of_mem _ hi)
    have hcall := ht _ List.mem_cons_self
    cases call with
    | advanceLine force => cases hcall
    | readChar skipBlanks => cases hcall
    | unreadChar => cases hcall
    | readToken acrossLines =>
      have hread := h.readToken acrossLines
      simp only [reply] at hstep
      split at hstep <;> cases hstep
      · next hr => rwa [hr] at hread
      · next hr => rwa [hr] at hread
    | unreadToken =>
      simp only [reply] at hstep
      split at hstep <;> cases hstep
      · next hu => exact h.unreadToken hu
      · exact h
    | clearTokens =>
      cases hstep
      exact h.clearTokens

theorem ofText (source : List Char) (keepComments : Bool) : Ascends [] (ofText source keepComments) :=
  ⟨.nil, by simp [starts, Lexer.ofText]⟩

end Ascends

end Lexer

end Linewise
