import Linewise.Lexer

namespace Linewise

/-- The next thing that a text holds: a token, or the error that ends the reading. -/
structure Upcoming where
  /-- The end of a line stands in front of it. -/
  onLaterLine : Bool
  content : Except LexicalError Token

namespace Upcoming

def InReach (acrossLines : Bool) (i : Upcoming) : Prop := acrossLines = true ∨ i.onLaterLine = false

def givenBack (token : Token) : Upcoming := ⟨false, .ok token⟩

theorem inReach_true (i : Upcoming) : i.InReach true := .inl rfl

theorem inReach_givenBack (acrossLines : Bool) (token : Token) :
    (givenBack token).InReach acrossLines := .inr rfl

theorem mapM_content {xs : List Upcoming} {tokens : List Token} :
    xs.mapM content = .ok tokens ↔ xs.map content = tokens.map .ok := by
  induction xs generalizing tokens with
  | nil => simp [pure, Except.pure, eq_comm]
  | cons i xs ih =>
    rw [List.mapM_cons, List.map_cons]
    cases i.content with
    | error e => cases tokens <;> simp [bind, Except.bind]
    | ok t =>
      cases tokens with
      | nil =>
        cases hm : xs.mapM content <;> simp [bind, Except.bind, pure, Except.pure]
      | cons t' tokens =>
        simp only [List.map_cons, List.cons.injEq, Except.ok.injEq, ← ih]
        cases hm : xs.mapM content <;> simp [bind, Except.bind, pure, Except.pure]

end Upcoming

namespace Lexer

inductive Finding where
  | lineEnd (s : Lexer)
  | failure (e : LexicalError) (s : Lexer)
  | comment (s : Lexer)
  | token (token : Token) (s : Lexer)

def Finding.map (f : Lexer → Lexer) : Finding → Finding
  | lineEnd s => lineEnd (f s)
  | failure e s => failure e (f s)
  | comment s => comment (f s)
  | token t s => token t (f s)

def find (s : Lexer) : Finding :=
  match nextChar? true s.cursor with
  | (none, cursor) => .lineEnd { s with cursor }
  | (some x, cursor) => match scan x { s with cursor } with
    | .error e t => .failure e t
    | .ok token t => if token.kind.isComment && !s.keepComments then .comment t else .token token t

theorem lineEnd_of_find {s t : Lexer} (h : s.find = .lineEnd t) :
    ∃ c, nextChar? true s.cursor = (none, c) ∧ t = { s with cursor := c } := by
  unfold find at h
  split at h
  · next c hc =>
    cases h
    exact ⟨c, hc, rfl⟩
  · split at h
    · cases h
    · split at h <;> cases h

theorem scan_of_failure {s t : Lexer} {e : LexicalError} (h : s.find = .failure e t) :
    ∃ x c, nextChar? true s.cursor = (some x, c) ∧ scan x { s with cursor := c } = .error e t := by
  unfold find at h
  split at h
  · cases h
  · next x c hc =>
    split at h
    · next hs =>
      cases h
      exact ⟨x, c, hc, hs⟩
    · split at h <;> cases h

theorem scan_of_find {s t : Lexer} (h : s.find = .comment t ∨ ∃ token, s.find = .token token t) :
    ∃ x c token, nextChar? true s.cursor = (some x, c) ∧
      scan x { s with cursor := c } = .ok token t := by
  unfold find at h
  split at h
  · rcases h with h | ⟨_, h⟩ <;> cases h
  · next x c hc =>
    split at h
    · rcases h with h | ⟨_, h⟩ <;> cases h
    · next token t' hs =>
      have ht : t' = t := by split at h <;> rcases h with h | ⟨_, h⟩ <;> cases h <;> rfl
      exact ⟨x, c, token, hc, ht ▸ hs⟩

theorem scan_of_find_comment {s t : Lexer} (h : s.find = .comment t) : s.keepComments = false ∧
    ∃ x c token, nextChar? true s.cursor = (some x, c) ∧
      scan x { s with cursor := c } = .ok token t ∧ token.kind.isComment = true := by
  obtain ⟨x, c, token, hc, hs⟩ := scan_of_find (.inl h)
  simp only [find, hc, hs] at h
  split at h
  · next hk =>
    obtain ⟨hcomment, hkeep⟩ := Bool.and_eq_true_iff.1 hk
    exact ⟨by simpa using hkeep, x, c, token, hc, hs, hcomment⟩
  · cases h

theorem scan_of_find_token {s t : Lexer} {token : Token} (h : s.find = .token token t) :
    ∃ x c, nextChar? true s.cursor = (some x, c) ∧ scan x { s with cursor := c } = .ok token t := by
  obtain ⟨x, c, token', hc, hs⟩ := scan_of_find (.inr ⟨token, h⟩)
  simp only [find, hc, hs] at h
  split at h <;> cases h
  exact ⟨x, c, hc, hs⟩

theorem keepComments_of_comment {s t : Lexer} (h : s.find = .comment t) : s.keepComments = false :=
  (scan_of_find_comment h).1

theorem rest_of_lineEnd {s t : Lexer} (h : s.find = .lineEnd t) : t.cursor.rest = [] := by
  obtain ⟨c, hc, rfl⟩ := lineEnd_of_find h
  exact nextChar?_none hc

theorem SameTokens.trans {s t u : Lexer} (h : SameTokens s t) (h' : SameTokens t u) : SameTokens s u :=
  ⟨h'.tokens.trans h.tokens, h'.held.trans h.held, h'.keepComments.trans h.keepComments⟩

theorem sameTokens_of_lineEnd {s t : Lexer} (h : s.find = .lineEnd t) : SameTokens s t := by
  obtain ⟨c, -, rfl⟩ := lineEnd_of_find h
  exact ⟨rfl, rfl, rfl⟩

theorem find_of_lineEnd {s t : Lexer} (h : s.find = .lineEnd t) : t.find = .lineEnd t := by
  simp [find, nextChar?, rest_of_lineEnd h, Cursor.forward, Cursor.next?]

theorem sameTokens_of_find {s t : Lexer}
    (h : s.find = .comment t ∨ ∃ token, s.find = .token token t) : SameTokens s t := by
  obtain ⟨x, c, token, -, hs⟩ := scan_of_find h
  have := sameTokens_of_scan hs
  exact ⟨this.tokens, this.held, this.keepComments⟩

theorem tokens_of_failure {s t : Lexer} {e : LexicalError} (h : s.find = .failure e t) :
    t.tokens = s.tokens := by
  obtain ⟨x, c, -, hs⟩ := scan_of_failure h
  exact (tokens_of_scan_error hs).trans rfl

theorem unreadSize_of_lineEnd {s t u : Lexer} (h : s.find = .lineEnd t)
    (ha : advanceLine false t = (true, u)) : u.unreadSize < s.unreadSize := by
  have hr := rest_of_lineEnd h
  obtain ⟨c, -, rfl⟩ := lineEnd_of_find h
  exact Nat.lt_of_lt_of_le (unreadSize_of_advanceLine ha hr)
    (unreadSize_le_of_cursor (by simp only at hr; simp [hr]))

theorem unreadSize_of_find {s t : Lexer}
    (h : s.find = .comment t ∨ ∃ token, s.find = .token token t) :
    t.unreadSize < s.unreadSize := by
  obtain ⟨x, c, token, hc, hs⟩ := scan_of_find h
  exact Nat.lt_of_le_of_lt (unreadSize_of_scan hs) (unreadSize_lt_of_cursor (nextChar?_some hc))

theorem unreadSize_of_failure {s t : Lexer} {e : LexicalError} (h : s.find = .failure e t) :
    0 < s.unreadSize := by
  obtain ⟨x, c, hc, -⟩ := scan_of_failure h
  exact Nat.add_pos_left (Nat.zero_lt_of_lt (nextChar?_some hc)) _

theorem attempt_eq (acrossLines : Bool) (s : Lexer) :
    attempt acrossLines s = match s.find with
      | .lineEnd t =>
        if acrossLines then
          match advanceLine false t with
          | (true, u) => .again u
          | (false, u) => .done (.ok false u)
        else .done (.ok false t)
      | .failure e t => .done (.error e t)
      | .comment t => .again t
      | .token token t => .done (.ok true { t with tokens := t.tokens.push token }) := by
  unfold attempt find
  rcases nextChar? true s.cursor with ⟨_ | x, c⟩
  · rfl
  · dsimp only
    cases scan x { s with cursor := c } with
    | error e t => rfl
    | ok token t =>
      dsimp only
      cases token.kind.isComment && !s.keepComments <;> rfl

theorem find_of_again {acrossLines : Bool} {s t : Lexer} (h : attempt acrossLines s = .again t) :
    s.find = .comment t ∨ ∃ u, s.find = .lineEnd u ∧ advanceLine false u = (true, t) := by
  rw [attempt_eq] at h
  cases hf : s.find with
  | lineEnd u =>
    simp only [hf] at h
    split at h
    · split at h <;> cases h
      next ha => exact .inr ⟨u, rfl, ha⟩
    · cases h
  | failure e u => simp [hf] at h
  | comment u =>
    simp only [hf, Attempt.again.injEq] at h
    exact .inl (h ▸ rfl)
  | token token u => simp [hf] at h

theorem find_of_done {acrossLines : Bool} {s : Lexer} {result : EStateM.Result LexicalError Lexer Bool}
    (h : attempt acrossLines s = .done result) :
    (∃ t, s.find = .lineEnd t ∧
      (result = .ok false t ∨ ∃ u, advanceLine false t = (false, u) ∧ result = .ok false u)) ∨
    (∃ e t, s.find = .failure e t ∧ result = .error e t) ∨
    ∃ token t, s.find = .token token t ∧ result = .ok true { t with tokens := t.tokens.push token } := by
  rw [attempt_eq] at h
  cases hf : s.find with
  | lineEnd t =>
    simp only [hf] at h
    split at h
    · split at h <;> cases h
      next u ha => exact .inl ⟨t, rfl, .inr ⟨u, ha, rfl⟩⟩
    · cases h
      exact .inl ⟨t, rfl, .inl rfl⟩
  | failure e t =>
    simp only [hf] at h
    cases h
    exact .inr (.inl ⟨e, t, rfl, rfl⟩)
  | comment t => simp [hf] at h
  | token token t =>
    simp only [hf] at h
    cases h
    exact .inr (.inr ⟨token, t, rfl, rfl⟩)

theorem pull_eq (acrossLines : Bool) (s : Lexer) :
    pull acrossLines s = match s.find with
      | .lineEnd t =>
        if acrossLines then
          match advanceLine false t with
          | (true, u) => pull acrossLines u
          | (false, u) => .ok false u
        else .ok false t
      | .failure e t => .error e t
      | .comment t => pull acrossLines t
      | .token token t => .ok true { t with tokens := t.tokens.push token } := by
  have h : pull acrossLines s = match attempt acrossLines s with
      | .done result => result
      | .again t => pull acrossLines t := by
    rw [pull]
    split <;> simp_all
  rw [h, attempt_eq]
  cases s.find with
  | lineEnd t =>
    cases acrossLines with
    | false => rfl
    | true =>
      simp only [if_true]
      rcases advanceLine false t with ⟨_ | _, u⟩ <;> rfl
  | failure e t => rfl
  | comment t => rfl
  | token token t => rfl

/-- What the unread part of the text holds; `later` says whether the end of a line has been passed
since the last token. -/
def ahead (later : Bool) (s : Lexer) : List Upcoming :=
  match _h : s.find with
  | .lineEnd t => match _ha : advanceLine false t with
    | (true, u) => ahead true u
    | (false, _) => []
  | .failure e _ => [⟨later, .error e⟩]
  | .comment t => ahead later t
  | .token token t => ⟨later, .ok token⟩ :: ahead false t
termination_by s.unreadSize
decreasing_by
  · exact unreadSize_of_lineEnd _h _ha
  · exact unreadSize_of_find (.inl _h)
  · exact unreadSize_of_find (.inr ⟨_, _h⟩)

theorem ahead_eq (later : Bool) (s : Lexer) :
    ahead later s = match s.find with
      | .lineEnd t => match advanceLine false t with
        | (true, u) => ahead true u
        | (false, _) => []
      | .failure e _ => [⟨later, .error e⟩]
      | .comment t => ahead later t
      | .token token t => ⟨later, .ok token⟩ :: ahead false t := by
  rw [ahead]
  split
  · next h =>
    split <;> simp_all
  · simp_all
  · simp_all
  · simp_all

def upcoming (s : Lexer) : List Upcoming := s.held.toList.map .givenBack ++ s.ahead false

theorem upcoming_of_held {s : Lexer} {token : Token} (h : s.held = some token) :
    s.upcoming = .givenBack token :: s.ahead false := by
  simp [upcoming, h]

theorem upcoming_of_not_held {s : Lexer} (h : s.held = none) : s.upcoming = s.ahead false := by
  simp [upcoming, h]

section

variable (tokens : Array Token) (held : Option Token) (keepComments : Bool)

def recast (s : Lexer) : Lexer := { s with tokens, held, keepComments }

theorem advanceLine_recast (force : Bool) (s : Lexer) :
    advanceLine force (s.recast tokens held keepComments) =
      ((advanceLine force s).1, (advanceLine force s).2.recast tokens held keepComments) := by
  unfold advanceLine recast
  dsimp only
  by_cases hf : (!force && !s.cursor.rest.isEmpty) = true
  · rw [if_pos hf, if_pos hf]
  · rw [if_neg hf, if_neg hf]
    cases s.pending.dropWhile (·.all Text.isBlank) <;> rfl

def recastResult {α : Type} :
    EStateM.Result LexicalError Lexer α → EStateM.Result LexicalError Lexer α
  | .ok a t => .ok a (t.recast tokens held keepComments)
  | .error e t => .error e (t.recast tokens held keepComments)

theorem lexeme_recast (x : Char) (s : Lexer) :
    lexeme x (s.recast tokens held keepComments) =
      recastResult tokens held keepComments (lexeme x s) := by
  simp only [lexeme, recast]
  cases (Lexeme.read x s.cursor).outcome <;> rfl

theorem blockComment_recast (start : Nat) (s : Lexer) :
    blockComment start (s.recast tokens held keepComments) =
      recastResult tokens held keepComments (blockComment start s) := by
  simp only [blockComment, recast]
  cases Lexeme.commentLength? false s.cursor.rest with
  | some n => rfl
  | none => cases Lexeme.commentEnd? s.pending <;> rfl

theorem scan_recast (x : Char) (s : Lexer) :
    scan x (s.recast tokens held keepComments) =
      recastResult tokens held keepComments (scan x s) := by
  unfold scan
  by_cases hx : x = '/'
  · rw [if_pos hx, if_pos hx]
    simp only [recast]
    rcases s.cursor.nextIs '*' with ⟨_ | _, c⟩
    · exact lexeme_recast tokens held keepComments x { s with cursor := c }
    · exact blockComment_recast tokens held keepComments _ { s with cursor := c }
  · rw [if_neg hx, if_neg hx]
    exact lexeme_recast tokens held keepComments x s

def Finding.ignoringComments : Finding → Finding
  | token t s => if t.kind.isComment then comment s else token t s
  | f => f

theorem find_recast {s : Lexer} (hs : s.keepComments = keepComments) :
    (s.recast tokens held keepComments).find = s.find.map (·.recast tokens held keepComments) := by
  obtain ⟨pending, cursor, lineNumber, tokens', held', _⟩ := s
  cases hs
  rename_i keepComments
  have hs (x : Char) (c : Cursor) :=
    scan_recast tokens held keepComments x ⟨pending, c, lineNumber, tokens', held', keepComments⟩
  simp only [find, recast] at hs ⊢
  rcases nextChar? true cursor with ⟨_ | x, c⟩
  · rfl
  · simp only [hs]
    cases scan x ⟨pending, c, lineNumber, tokens', held', keepComments⟩ with
    | error e t => rfl
    | ok token t =>
      cases keepComments <;> cases hk : token.kind.isComment <;>
        simp [recastResult, recast, Finding.map, hk]

theorem find_ignoringComments {s : Lexer} (hs : s.keepComments = true) :
    (s.recast tokens held false).find =
      (s.find.map (·.recast tokens held false)).ignoringComments := by
  obtain ⟨pending, cursor, lineNumber, tokens', held', keepComments⟩ := s
  cases hs
  have hs (x : Char) (c : Cursor) :=
    scan_recast tokens held false x ⟨pending, c, lineNumber, tokens', held', true⟩
  simp only [find, recast] at hs ⊢
  rcases nextChar? true cursor with ⟨_ | x, c⟩
  · rfl
  · simp only [hs]
    cases scan x ⟨pending, c, lineNumber, tokens', held', true⟩ with
    | error e t => rfl
    | ok token t =>
      cases hk : token.kind.isComment <;>
        simp [recastResult, recast, Finding.map, Finding.ignoringComments, hk]

theorem ahead_recast (later : Bool) {s : Lexer} (hs : s.keepComments = keepComments) :
    ahead later (s.recast tokens held keepComments) = ahead later s := by
  fun_induction ahead later s with
  | case1 later s t h u ha ih =>
    have hu := (sameTokens_of_advanceLine ha).keepComments.trans (sameTokens_of_lineEnd h).keepComments
    rw [ahead_eq, find_recast _ _ _ hs, h]
    simp only [Finding.map, advanceLine_recast, ha, ih (hu.trans hs)]
  | case2 later s t h u ha =>
    rw [ahead_eq, find_recast _ _ _ hs, h]
    simp only [Finding.map, advanceLine_recast, ha]
  | case3 later s e t h =>
    rw [ahead_eq, find_recast _ _ _ hs, h]
    rfl
  | case4 later s t h ih =>
    rw [ahead_eq, find_recast _ _ _ hs, h]
    exact ih ((sameTokens_of_find (.inl h)).keepComments.trans hs)
  | case5 later s token t h ih =>
    rw [ahead_eq, find_recast _ _ _ hs, h]
    simp only [Finding.map, ih ((sameTokens_of_find (.inr ⟨token, h⟩)).keepComments.trans hs)]

def withTokens (s : Lexer) : Lexer := { s with tokens, held }

@[simp]
theorem ahead_withTokens (later : Bool) (s : Lexer) :
    ahead later (s.withTokens tokens held) = ahead later s := ahead_recast tokens held _ later rfl

end

/-- What an attempt to read a token comes to, given what lies ahead. -/
inductive Delivers (acrossLines : Bool) (s : Lexer) :
    List Upcoming → EStateM.Result LexicalError Lexer Bool → Prop
  | token {later : Bool} {token : Token} {rest : List Upcoming} {t : Lexer}
      (reach : Upcoming.InReach acrossLines ⟨later, .ok token⟩)
      (tokens : t.tokens = s.tokens.push token) (held : t.held = none) (ahead : t.upcoming = rest) :
      Delivers acrossLines s (⟨later, .ok token⟩ :: rest) (.ok true t)
  | failure {later : Bool} {e : LexicalError} {t : Lexer}
      (reach : Upcoming.InReach acrossLines ⟨later, .error e⟩) (tokens : t.tokens = s.tokens) :
      Delivers acrossLines s [⟨later, .error e⟩] (.error e t)
  | nothing {items : List Upcoming} {t : Lexer}
      (reach : ∀ i ∈ items.head?, ¬ i.InReach acrossLines) (tokens : t.tokens = s.tokens)
      (held : t.held = none) (ahead : t.upcoming = items) : Delivers acrossLines s items (.ok false t)

theorem Delivers.of_tokens_eq {acrossLines : Bool} {s t : Lexer} {items : List Upcoming}
    {r : EStateM.Result LexicalError Lexer Bool} (h : Delivers acrossLines t items r)
    (ht : t.tokens = s.tokens) : Delivers acrossLines s items r := by
  cases h with
  | token reach tokens held ahead => exact .token reach (ht ▸ tokens) held ahead
  | failure reach tokens => exact .failure reach (tokens.trans ht)
  | nothing reach tokens held ahead => exact .nothing reach (tokens.trans ht) held ahead

theorem onLaterLine_of_head_ahead {later : Bool} {s : Lexer} {i : Upcoming} (hl : later = true)
    (h : i ∈ (ahead later s).head?) : i.onLaterLine = true := by
  fun_induction ahead later s with
  | case1 later s t hf u ha ih => exact ih rfl h
  | case2 later s t hf u ha => simp at h
  | case3 later s e t hf =>
    obtain rfl : _ = i := by simpa using h
    exact hl
  | case4 later s t hf ih => exact ih hl h
  | case5 later s token t hf ih =>
    obtain rfl : _ = i := by simpa using h
    exact hl

theorem ahead_of_no_line {s t : Lexer} (later : Bool) (h : advanceLine false s = (false, t)) :
    ahead later t = [] := by
  have ht : t.cursor.rest = [] ∧ t.pending = [] := by
    unfold advanceLine at h
    split at h
    · cases h
    · split at h <;> cases h
      exact ⟨rfl, rfl⟩
  have hf : t.find = .lineEnd t := by
    simp [find, nextChar?, ht.1, Cursor.forward, Cursor.next?]
  rw [ahead_eq, hf]
  simp [advanceLine, ht]

theorem pull_delivers (acrossLines later : Bool) (s : Lexer)
    (hl : acrossLines = true ∨ later = false) (hs : s.held = none) :
    Delivers acrossLines s (ahead later s) (pull acrossLines s) := by
  -- An attempt that goes on behind a comment or on a later line leads to a state with the same items ahead.
  fun_induction ahead later s with
  | case1 later s t h u ha ih =>
    have ht := sameTokens_of_lineEnd h
    rw [pull_eq, h]
    cases acrossLines with
    | false =>
      refine .nothing (fun i hi ↦ ?_) ht.tokens (ht.held.trans hs) ?_
      · simp [Upcoming.InReach, onLaterLine_of_head_ahead rfl hi]
      · rw [upcoming_of_not_held (ht.held.trans hs), ahead_eq, find_of_lineEnd h]
        simp only [ha]
    | true =>
      have hu := sameTokens_of_advanceLine ha
      simp only [if_true, ha]
      exact (ih (.inl rfl) (hu.held.trans (ht.held.trans hs))).of_tokens_eq
        (hu.tokens.trans ht.tokens)
  | case2 later s t h u ha =>
    have ht := sameTokens_of_lineEnd h
    rw [pull_eq, h]
    cases acrossLines with
    | false =>
      refine .nothing (by simp) ht.tokens (ht.held.trans hs) ?_
      rw [upcoming_of_not_held (ht.held.trans hs), ahead_eq, find_of_lineEnd h]
      simp only [ha]
    | true =>
      have hu := sameTokens_of_advanceLine ha
      simp only [if_true, ha]
      refine .nothing (by simp) (hu.tokens.trans ht.tokens) (hu.held.trans (ht.held.trans hs)) ?_
      rw [upcoming_of_not_held (hu.held.trans (ht.held.trans hs)), ahead_of_no_line false ha]
  | case3 later s e t h =>
    rw [pull_eq, h]
    exact .failure hl (tokens_of_failure h)
  | case4 later s t h ih =>
    have ht := sameTokens_of_find (.inl h)
    rw [pull_eq, h]
    exact (ih hl (ht.held.trans hs)).of_tokens_eq ht.tokens
  | case5 later s token t h ih =>
    have ht := sameTokens_of_find (.inr ⟨token, h⟩)
    rw [pull_eq, h]
    refine .token hl (by rw [ht.tokens]) (ht.held.trans hs) ?_
    have hh : (t.withTokens (t.tokens.push token) t.held).held = none := ht.held.trans hs
    exact (upcoming_of_not_held hh).trans (ahead_withTokens _ _ false t)

/-- Reading a token takes the first thing ahead that is in reach. -/
theorem readToken_delivers (acrossLines : Bool) (s : Lexer) :
    Delivers acrossLines s s.upcoming (readToken acrossLines s) := by
  cases hs : s.held with
  | none =>
    rw [upcoming_of_not_held hs]
    simp only [readToken, hs]
    exact pull_delivers acrossLines false s (.inr rfl) hs
  | some token =>
    rw [upcoming_of_held hs]
    simp only [readToken, hs]
    refine .token (Upcoming.inReach_givenBack acrossLines token) rfl rfl ?_
    exact ahead_withTokens (s.tokens.push token) none false s

theorem unreadToken_push {s : Lexer} {tokens : Array Token} {token : Token}
    (hs : s.held = none) (ht : s.tokens = tokens.push token) :
    unreadToken s = .ok (s.withTokens tokens (some token)) := by
  simp [unreadToken, hs, ht, withTokens]

theorem unreadToken_eq_ok {s t : Lexer} (h : s.unreadToken = .ok t) :
    s.held = none ∧ ∃ tokens token, s.tokens = tokens.push token ∧ t = s.withTokens tokens (some token) := by
  unfold unreadToken at h
  split at h
  · cases h
  next hh =>
  split at h <;> cases h
  next token hlast =>
  obtain ⟨tokens, htokens⟩ := Array.back?_eq_some_iff.1 hlast
  refine ⟨by simpa using hh, tokens, token, htokens, ?_⟩
  rw [htokens, Array.pop_push]
  rfl

theorem upcoming_withTokens_some (s : Lexer) (tokens : Array Token) (token : Token) :
    (s.withTokens tokens (some token)).upcoming = .givenBack token :: s.ahead false := by
  rw [upcoming_of_held rfl, ahead_withTokens]

theorem upcoming_clearTokens (s : Lexer) : s.clearTokens.upcoming = s.upcoming := by
  have h := ahead_withTokens #[] s.held false s
  simp only [upcoming]
  exact congrArg _ h

/-- Reading to the end gathers all that lies ahead, up to an error. -/
theorem readAll_eq (s : Lexer) :
    s.readAll = (s.upcoming.mapM Upcoming.content).map fun ts ↦ s.tokens ++ ts.toArray := by
  fun_induction readAll s with
  | case1 s e t h =>
    have hd := s.readToken_delivers true
    rw [h] at hd
    generalize s.upcoming = items at hd
    cases hd with
    | failure => rfl
  | case2 s t h =>
    have hd := s.readToken_delivers true
    rw [h] at hd
    generalize s.upcoming = items at hd
    cases hd with
    | nothing reach tokens =>
      cases items with
      | nil => simp [tokens, Except.map, pure, Except.pure]
      | cons i items => exact absurd (Upcoming.inReach_true i) (reach i rfl)
  | case3 s t h ih =>
    have hd := s.readToken_delivers true
    rw [h] at hd
    generalize s.upcoming = items at hd
    cases hd with
    | @token later token rest _ reach tokens held ahead =>
      rw [ih, ahead, tokens, List.mapM_cons]
      cases rest.mapM Upcoming.content with
      | error e => rfl
      | ok ts =>
        simp [Except.map, bind, Except.bind, pure, Except.pure]

end Lexer

/-- A text is read to its end if and only if nothing but tokens lies ahead. -/
theorem Lexer.readAll_eq_ok {text : List Char} {keepComments : Bool} {tokens : Array Token} :
    (Lexer.ofText text keepComments).readAll = .ok tokens ↔
      (Lexer.ofText text keepComments).upcoming.map (·.content) = tokens.toList.map .ok := by
  rw [Lexer.readAll_eq, ← Upcoming.mapM_content]
  cases (Lexer.ofText text keepComments).upcoming.mapM Upcoming.content with
  | error e => simp [Except.map]
  | ok ts =>
    simp only [Except.map, Except.ok.injEq]
    refine ⟨fun h ↦ by simp [← h, Lexer.ofText], fun h ↦ ?_⟩
    simp [h, Lexer.ofText]

theorem tokenize_eq_ok {source : String} {tokens : Array Token} :
    tokenize source = .ok tokens ↔
      (Lexer.ofSource source false).upcoming.map (·.content) = tokens.toList.map .ok :=
  Lexer.readAll_eq_ok

namespace Lexer

theorem length_ahead_le (later : Bool) (s : Lexer) : (ahead later s).length ≤ s.unreadSize := by
  fun_induction ahead later s with
  | case1 later s t h u ha ih => exact Nat.le_trans ih (Nat.le_of_lt (unreadSize_of_lineEnd h ha))
  | case2 later s t h u ha => exact Nat.zero_le _
  | case3 later s e t h => exact unreadSize_of_failure h
  | case4 later s t h ih => exact Nat.le_trans ih (Nat.le_of_lt (unreadSize_of_find (.inl h)))
  | case5 later s token t h ih =>
    exact Nat.lt_of_le_of_lt ih (unreadSize_of_find (.inr ⟨token, h⟩))

theorem length_upcoming_le (s : Lexer) : s.upcoming.length ≤ s.remaining := by
  have := length_ahead_le false s
  cases hs : s.held with
  | none => simpa [upcoming, remaining, hs] using this
  | some token => simpa [upcoming, remaining, hs] using this

end Lexer

end Linewise
