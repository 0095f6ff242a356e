import Linewise.Lexer.Scan

namespace Linewise.Lexer

/-- What an attempt to read a token comes to. -/
inductive Attempt where
  | done (result : EStateM.Result LexicalError Lexer Bool)
  /-- A line end or a comment was passed over. -/
  | again (s : Lexer)

def attempt (acrossLines : Bool) (s : Lexer) : Attempt :=
  match nextChar? true s.cursor with
  | (none, cursor) =>
    if acrossLines then
      match advanceLine false { s with cursor } with
      | (true, t) => .again t
      | (false, t) => .done (.ok false t)
    else .done (.ok false { s with cursor })
  | (some c, cursor) => match scan c { s with cursor } with
    | .error e t => .done (.error e t)
    | .ok token t =>
      if token.kind.isComment && !s.keepComments then .again t
      else .done (.ok true { t with tokens := t.tokens.push token })

theorem again_cases {b : Bool} {s t : Lexer} (h : attempt b s = .again t) :
    (∃ c, nextChar? true s.cursor = (none, c) ∧ advanceLine false { s with cursor := c } = (true, t)) ∨
      ∃ x c token, nextChar? true s.cursor = (some x, c) ∧ scan x { s with cursor := c } = .ok token t := by
  unfold attempt at h
  split at h
  · next c hc =>
    split at h
    · split at h <;> cases h
      next ha => exact .inl ⟨c, hc, ha⟩
    · cases h
  · next x c hc =>
    split at h
    · cases h
    · next token u hs =>
      split at h <;> cases h
      exact .inr ⟨x, c, token, hc, hs⟩

theorem done_cases {b r : Bool} {s t : Lexer} (h : attempt b s = .done (.ok r t)) :
    (∃ c, nextChar? true s.cursor = (none, c) ∧ r = false ∧
      (t = { s with cursor := c } ∨ advanceLine false { s with cursor := c } = (false, t))) ∨
      ∃ x c token u, nextChar? true s.cursor = (some x, c) ∧ scan x { s with cursor := c } = .ok token u ∧
        r = true ∧ t = { u with tokens := u.tokens.push token } := by
  unfold attempt at h
  split at h
  · next c hc =>
    split at h
    · split at h <;> cases h
      next ha => exact .inl ⟨c, hc, rfl, .inr ha⟩
    · cases h
      exact .inl ⟨c, hc, rfl, .inl rfl⟩
  · next x c hc =>
    split at h
    · cases h
    · next token u hs =>
      split at h <;> cases h
      exact .inr ⟨x, c, token, u, hc, hs, rfl, rfl⟩

theorem unreadSize_of_again {b : Bool} {s t : Lexer} (h : attempt b s = .again t) :
    t.unreadSize < s.unreadSize := by
  rcases again_cases h with ⟨c, hc, ha⟩ | ⟨x, c, token, hc, hs⟩
  · have hr := nextChar?_none hc
    exact Nat.lt_of_lt_of_le (unreadSize_of_advanceLine ha hr) (unreadSize_le_of_cursor (by simp [hr]))
  · exact Nat.lt_of_le_of_lt (unreadSize_of_scan hs) (unreadSize_lt_of_cursor (nextChar?_some hc))

def pull (acrossLines : Bool) (s : Lexer) : EStateM.Result LexicalError Lexer Bool :=
  match _h : attempt acrossLines s with
  | .done result => result
  | .again t => pull acrossLines t
termination_by s.unreadSize
decreasing_by exact unreadSize_of_again _h

/-- Reads the next token: one that was given back, or else the next one of the current line, or of
the text if lines may be crossed. Says whether there is one. -/
def readToken (acrossLines : Bool) (s : Lexer) : EStateM.Result LexicalError Lexer Bool :=
  match s.held with
  | some token => .ok true { s with held := none, tokens := s.tokens.push token }
  | none => pull acrossLines s

def unreadToken (s : Lexer) : Except InternalError Lexer :=
  if s.held.isSome then .error .tokenAlreadyUnread
  else match s.tokens.back? with
    | none => .error .noTokenToUnread
    | some token => .ok { s with tokens := s.tokens.pop, held := some token }

def clearTokens (s : Lexer) : Lexer := { s with tokens := #[] }

def remaining (s : Lexer) : Nat := s.unreadSize + if s.held.isSome then 1 else 0

theorem unreadSize_of_done {b r : Bool} {s t : Lexer} (h : attempt b s = .done (.ok r t)) :
    t.unreadSize + r.toNat ≤ s.unreadSize := by
  rcases done_cases h with ⟨c, hc, rfl, ht⟩ | ⟨x, c, token, u, hc, hs, rfl, rfl⟩
  · have hle : unreadSize { s with cursor := c } ≤ s.unreadSize :=
      unreadSize_le_of_cursor (by simp [nextChar?_none hc])
    rcases ht with rfl | ha
    · exact hle
    · exact Nat.le_trans (unreadSize_of_advanceLine_false ha) hle
  · have hlt := Nat.lt_of_le_of_lt (unreadSize_of_scan hs) (unreadSize_lt_of_cursor (nextChar?_some hc))
    exact hlt

theorem unreadSize_of_pull {b r : Bool} {s t : Lexer} (h : pull b s = .ok r t) :
    t.unreadSize + r.toNat ≤ s.unreadSize := by
  fun_induction pull b s with
  | case1 s result hd => exact unreadSize_of_done (h ▸ hd)
  | case2 s u hd ih => exact Nat.le_trans (ih h) (Nat.le_of_lt (unreadSize_of_again hd))

theorem held_of_again {b : Bool} {s t : Lexer} (h : attempt b s = .again t) : t.held = s.held := by
  rcases again_cases h with ⟨c, -, ha⟩ | ⟨x, c, token, -, hs⟩
  · exact (sameTokens_of_advanceLine ha).held
  · exact (sameTokens_of_scan hs).held

theorem held_of_done {b r : Bool} {s t : Lexer} (h : attempt b s = .done (.ok r t)) : t.held = s.held := by
  rcases done_cases h with ⟨c, -, -, rfl | ha⟩ | ⟨x, c, token, u, -, hs, -, rfl⟩
  · rfl
  · exact (sameTokens_of_advanceLine ha).held
  · exact (sameTokens_of_scan hs).held

theorem held_of_pull {b r : Bool} {s t : Lexer} (h : pull b s = .ok r t) : t.held = s.held := by
  fun_induction pull b s with
  | case1 s result hd => exact held_of_done (h ▸ hd)
  | case2 s u hd ih => exact (ih h).trans (held_of_again hd)

/-- Reading a token uses up part of what remains, and nothing is ever added to it. -/
theorem remaining_of_readToken {b r : Bool} {s t : Lexer} (h : readToken b s = .ok r t) :
    t.remaining + r.toNat ≤ s.remaining := by
  unfold readToken at h
  split at h
  · next hh =>
    cases h
    simp [remaining, unreadSize, hh]
  · next hh =>
    have := unreadSize_of_pull h
    simp only [remaining, held_of_pull h, hh]
    exact this

def readAll (s : Lexer) : Except LexicalError (Array Token) :=
  match _h : readToken true s with
  | .error e _ => .error e
  | .ok false t => .ok t.tokens
  | .ok true t => readAll t
termination_by s.remaining
decreasing_by exact remaining_of_readToken _h

end Linewise.Lexer

namespace Linewise

def tokenize (source : String) : Except LexicalError (Array Token) :=
  (Lexer.ofSource source false).readAll

end Linewise
