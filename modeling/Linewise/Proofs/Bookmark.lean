import Linewise.Proofs.Calls
import Linewise.Proofs.Upcoming

namespace Linewise.Lexer

def stream (s : Lexer) : Array Token × Option LexicalError :=
  match _h : readToken true s with
  | .error e t => (t.tokens, some e)
  | .ok false t => (t.tokens, none)
  | .ok true t => stream t
termination_by s.remaining
decreasing_by exact remaining_of_readToken _h

/-- A place in the tokens of a text: those from `base` up to `next` are on show. -/
structure Bookmark where
  base : Nat
  next : Nat
  /-- The token at `next` was given back. -/
  givenBack : Bool
deriving DecidableEq, Repr

namespace Bookmark

/-- The bookmark after a call with the given reply. -/
def move (m : Bookmark) : Call × Reply → Bookmark
  | (.readToken _, .found true) => ⟨m.base, m.next + 1, false⟩
  | (.unreadToken, .done) => ⟨m.base, m.next - 1, true⟩
  | (.clearTokens, _) => { m with base := m.next }
  | _ => m

def after (trace : List (Call × Reply)) : Bookmark := trace.foldl move ⟨0, 0, false⟩

end Bookmark

/-- Tokens lie ahead, and then at most one error. -/
theorem exists_contents (s : Lexer) : ∃ (tokens : List Token) (e : Option LexicalError),
    s.upcoming.map (·.content) = tokens.map .ok ++ e.toList.map .error := by
  have hahead (later : Bool) (s : Lexer) : ∃ (tokens : List Token) (e : Option LexicalError),
      (ahead later s).map (·.content) = tokens.map .ok ++ e.toList.map .error := by
    fun_induction ahead later s with
    | case1 later s t h u ha ih => exact ih
    | case2 => exact ⟨[], none, rfl⟩
    | case3 later s e t h => exact ⟨[], some e, rfl⟩
    | case4 later s t h ih => exact ih
    | case5 later s token t h ih =>
      obtain ⟨tokens, e, he⟩ := ih
      exact ⟨token :: tokens, e, congrArg (Except.ok token :: ·) he⟩
  obtain ⟨tokens, e, he⟩ := hahead false s
  refine ⟨s.held.toList ++ tokens, e, ?_⟩
  rw [upcoming, List.map_append, he]
  simp [Upcoming.givenBack]

theorem stream_eq {s : Lexer} {tokens : List Token} {e : Option LexicalError}
    (h : s.upcoming.map (·.content) = tokens.map .ok ++ e.toList.map .error) :
    s.stream = (s.tokens ++ tokens.toArray, e) := by
  -- The reading takes what lies ahead item by item: its outcome at each step is what stands first there.
  fun_induction stream s generalizing tokens with
  | case1 s e' t hr =>
    have hd := s.readToken_delivers true
    rw [hr] at hd
    generalize s.upcoming = items at hd h
    cases hd with
    | failure reach ht =>
      cases tokens with
      | nil =>
        cases e with
        | none => cases h
        | some e =>
          cases (List.cons.inj h).1
          simp [ht]
      | cons token tokens => cases (List.cons.inj h).1
  | case2 s t hr =>
    have hd := s.readToken_delivers true
    rw [hr] at hd
    generalize s.upcoming = items at hd h
    cases hd with
    | nothing reach ht =>
      cases items with
      | cons i items => exact absurd (Upcoming.inReach_true i) (reach i rfl)
      | nil =>
        obtain ⟨htokens, he⟩ := List.append_eq_nil_iff.1 h.symm
        obtain rfl := List.map_eq_nil_iff.1 htokens
        cases e with
        | some e => cases he
        | none => simp [ht]
  | case3 s t hr ih =>
    have hd := s.readToken_delivers true
    rw [hr] at hd
    generalize s.upcoming = items at hd h
    cases hd with
    | @token later token rest _ reach ht held hrest =>
      cases tokens with
      | nil =>
        cases e with
        | none => cases h
        | some e => cases (List.cons.inj h).1
      | cons token' tokens =>
        obtain ⟨htoken, hmore⟩ := List.cons.inj h
        cases htoken
        rw [ih (hrest ▸ hmore), ht]
        simp

/-- The lexer has read the tokens `T` of its text, after which the error `e` comes, up to the bookmark,
and shows those from its base on. -/
structure Shows (T : List Token) (e : Option LexicalError) (m : Bookmark) (s : Lexer) : Prop where
  base_le : m.base ≤ m.next
  next_le : m.next ≤ T.length
  tokens : s.tokens.toList = (T.take m.next).drop m.base
  contents : s.upcoming.map (·.content) = (T.drop m.next).map .ok ++ e.toList.map .error
  held : s.held.isSome = m.givenBack

namespace Shows

variable {T : List Token} {e : Option LexicalError} {m : Bookmark} {s t : Lexer}

theorem start (source : String) (keepComments : Bool) :
    Shows (stream (.ofSource source keepComments)).1.toList (stream (.ofSource source keepComments)).2
      ⟨0, 0, false⟩ (.ofSource source keepComments) := by
  obtain ⟨tokens, e, he⟩ := exists_contents (.ofSource source keepComments)
  rw [stream_eq he]
  refine ⟨Nat.le_refl 0, Nat.zero_le _, by simp [ofSource, ofText], ?_, rfl⟩
  simpa [ofSource, ofText] using he

theorem found (h : Shows T e m s) {b : Bool} (hr : s.readToken b = .ok true t) :
    ∃ token, T[m.next]? = some token ∧ t.tokens = s.tokens.push token ∧
      Shows T e ⟨m.base, m.next + 1, false⟩ t := by
  have hc := h.contents
  have hd := s.readToken_delivers b
  rw [hr] at hd
  generalize s.upcoming = items at hd hc
  cases hd with
  | @token later token rest _ reach tokens held ahead =>
    have hlt : m.next < T.length := by
      apply Nat.lt_of_not_le
      intro hge
      rw [List.drop_eq_nil_of_le hge] at hc
      cases e with
      | none => cases hc
      | some e => cases (List.cons.inj hc).1
    rw [List.drop_eq_getElem_cons hlt] at hc
    obtain ⟨htoken, hmore⟩ := List.cons.inj hc
    obtain rfl : token = T[m.next] := Except.ok.inj htoken
    have hbase : m.base ≤ (T.take m.next).length := by
      rw [List.length_take, Nat.min_eq_left h.next_le]
      exact h.base_le
    refine ⟨_, List.getElem?_eq_getElem hlt, tokens, Nat.le_succ_of_le h.base_le, hlt, ?_, ?_, ?_⟩
    · rw [tokens, Array.toList_push, h.tokens, ← List.take_append_getElem hlt,
        List.drop_append_of_le_length hbase]
    · rw [ahead]
      exact hmore
    · rw [held]
      rfl

theorem notFound (h : Shows T e m s) {b : Bool} (hr : s.readToken b = .ok false t) :
    Shows T e m t ∧ (b = true → m.next = T.length ∧ e = none) := by
  have hc := h.contents
  have hd := s.readToken_delivers b
  have hnone : m.givenBack = false := by
    rw [← h.held]
    cases hh : s.held with
    | none => rfl
    | some token => simp [readToken, hh] at hr
  rw [hr] at hd
  generalize s.upcoming = items at hd hc
  cases hd with
  | nothing reach tokens held ahead =>
    refine ⟨⟨h.base_le, h.next_le, by rw [tokens, h.tokens], by rw [ahead, hc], ?_⟩, ?_⟩
    · rw [held, hnone]
      rfl
    · rintro rfl
      cases items with
      | cons i items => exact absurd (Upcoming.inReach_true i) (reach i rfl)
      | nil =>
        obtain ⟨hdrop, he⟩ := List.append_eq_nil_iff.1 hc.symm
        have hle := List.drop_eq_nil_iff.1 (List.map_eq_nil_iff.1 hdrop)
        refine ⟨Nat.le_antisymm h.next_le hle, ?_⟩
        cases e with
        | none => rfl
        | some e => cases he

theorem failed (h : Shows T e m s) {b : Bool} {e' : LexicalError} (hr : s.readToken b = .error e' t) :
    m.next = T.length ∧ e = some e' ∧ t.tokens = s.tokens := by
  have hc := h.contents
  have hd := s.readToken_delivers b
  rw [hr] at hd
  generalize s.upcoming = items at hd hc
  cases hd with
  | failure reach tokens =>
    cases hdrop : T.drop m.next with
    | cons token more =>
      rw [hdrop] at hc
      cases (List.cons.inj hc).1
    | nil =>
      refine ⟨Nat.le_antisymm h.next_le (List.drop_eq_nil_iff.1 hdrop), ?_, tokens⟩
      rw [hdrop] at hc
      cases e with
      | none => cases hc
      | some e => rw [Except.error.inj (List.cons.inj hc).1]

theorem atEnd (h : Shows T none m s) (hm : m.next = T.length) (b : Bool) :
    ∃ t, s.readToken b = .ok false t := by
  have hc := h.contents
  rw [List.drop_eq_nil_of_le (Nat.le_of_eq hm.symm)] at hc
  obtain hu : s.upcoming = [] := List.map_eq_nil_iff.1 hc
  have hd := s.readToken_delivers b
  rw [hu] at hd
  cases hr : s.readToken b with
  | error e t =>
    rw [hr] at hd
    cases hd
  | ok found t =>
    rw [hr] at hd
    cases hd with
    | nothing => exact ⟨t, rfl⟩

theorem unread (h : Shows T e m s) (hr : s.unreadToken = .ok t) :
    Shows T e ⟨m.base, m.next - 1, true⟩ t ∧ m.givenBack = false ∧ m.base < m.next := by
  unfold unreadToken at hr
  split at hr
  · cases hr
  next hh =>
  have hheld : s.held = none := by simpa using hh
  split at hr <;> cases hr
  next token hlast =>
  obtain ⟨tokens, htokens⟩ := Array.back?_eq_some_iff.1 hlast
  have hshown : tokens.toList ++ [token] = (T.take m.next).drop m.base := by
    rw [← h.tokens, htokens, Array.toList_push]
  have hlt : m.base < m.next := by
    have hlength := congrArg List.length hshown
    simp only [List.length_append, List.length_singleton, List.length_drop, List.length_take] at hlength
    omega
  obtain ⟨n, hn⟩ : ∃ n, m.next = n + 1 := ⟨m.next - 1, by omega⟩
  have hle := h.next_le
  rw [hn] at hle hlt hshown
  rw [← List.take_append_getElem hle, List.drop_append_of_le_length (by rw [List.length_take]; omega)]
    at hshown
  obtain ⟨hbefore, htoken⟩ := List.append_inj' hshown rfl
  have hc := h.contents
  rw [upcoming_of_not_held hheld, hn] at hc
  refine ⟨⟨?_, ?_, ?_, ?_, rfl⟩, ?_, by omega⟩
  · simp only [hn]
    omega
  · simp only [hn]
    omega
  · simp only [hn, htokens, Array.pop_push, Nat.add_sub_cancel]
    exact hbefore
  · have hu := upcoming_withTokens_some s s.tokens.pop token
    simp only [withTokens] at hu
    rw [hu, List.map_cons, hc, hn, Nat.add_sub_cancel, List.drop_eq_getElem_cons hle,
      ← (List.cons.inj htoken).1]
    rfl
  · rw [← h.held, hheld]
    rfl

theorem refused (h : Shows T e m s) {e' : InternalError} (hr : s.unreadToken = .error e') :
    m.givenBack = true ∨ m.base = m.next := by
  unfold unreadToken at hr
  split at hr
  · next hh =>
    rw [h.held] at hh
    exact .inl hh
  · split at hr <;> cases hr
    next hlast =>
    right
    have hlength := congrArg List.length h.tokens
    rw [Array.back?_eq_none_iff.1 hlast, List.length_drop, List.length_take] at hlength
    have hbase := h.base_le
    have hnext := h.next_le
    simp only [List.length_nil] at hlength
    omega

theorem clear (h : Shows T e m s) : Shows T e { m with base := m.next } s.clearTokens := by
  refine ⟨Nat.le_refl _, h.next_le, ?_, ?_, h.held⟩
  · simp [clearTokens]
  · rw [upcoming_clearTokens]
    exact h.contents

/-- Every call moves the bookmark along. -/
theorem step (h : Shows T e m s) {call : Call} {r : Reply} (hcall : call.onTokens = true)
    (hr : s.reply call = (r, t)) (hgoes : r.goesOn = true) : Shows T e (m.move (call, r)) t := by
  cases call with
  | readToken b =>
    simp only [reply] at hr
    cases hread : s.readToken b with
    | error e' u =>
      rw [hread] at hr
      cases hr
      cases hgoes
    | ok found u =>
      rw [hread] at hr
      cases hr
      cases found with
      | true =>
        obtain ⟨token, -, -, hu⟩ := h.found hread
        exact hu
      | false => exact (h.notFound hread).1
  | unreadToken =>
    simp only [reply] at hr
    cases hunread : s.unreadToken with
    | error e' =>
      rw [hunread] at hr
      cases hr
      cases hgoes
    | ok u =>
      rw [hunread] at hr
      cases hr
      exact (h.unread hunread).1
  | clearTokens =>
    cases hr
    exact h.clear
  | _ => cases hcall

theorem run (h : Shows T e m s) {trace : List (Call × Reply)} (hr : Runs s trace t)
    (hcalls : ∀ c ∈ trace, c.1.onTokens = true) : Shows T e (trace.foldl Bookmark.move m) t := by
  induction hr generalizing m with
  | nil => exact h
  | cons hstep hgoes _ ih =>
    obtain ⟨hcall, hmore⟩ := List.forall_mem_cons.1 hcalls
    exact ih (h.step hcall hstep hgoes) hmore

/-- Whoever never gives a token back stays at the end. -/
theorem run_atEnd (h : Shows T none m s) (hm : m.next = T.length) {trace : List (Call × Reply)}
    (hr : Runs s trace t) (hcalls : ∀ c ∈ trace, c.1.onTokens = true ∧ c.1 ≠ .unreadToken) :
    ∃ m' : Bookmark, m'.next = T.length ∧ Shows T none m' t := by
  induction hr generalizing m with
  | nil => exact ⟨m, hm, h⟩
  | @cons s t u call r trace hstep hgoes _ ih =>
    obtain ⟨⟨hcall, hne⟩, hmore⟩ := List.forall_mem_cons.1 hcalls
    refine ih (h.step hcall hstep hgoes) ?_ hmore
    cases call with
    | readToken b =>
      obtain ⟨v, hv⟩ := h.atEnd hm b
      simp only [reply, hv] at hstep
      cases hstep
      exact hm
    | unreadToken => exact absurd rfl hne
    | clearTokens => exact hm
    | _ => cases hcall

end Shows

/-- Whatever calls are made, the tokens on show are those between the two ends of a bookmark in the
tokens of the whole text, and the lexer answers as the bookmark stands. -/
theorem follows_bookmark {source : String} {keepComments : Bool} {trace : List (Call × Reply)} {s : Lexer}
    (h : Runs (.ofSource source keepComments) trace s) (hcalls : ∀ c ∈ trace, c.1.onTokens = true) :
    let T := (stream (.ofSource source keepComments)).1.toList
    let e := (stream (.ofSource source keepComments)).2
    let m := Bookmark.after trace
    m.base ≤ m.next ∧ m.next ≤ T.length ∧ s.tokens.toList = (T.take m.next).drop m.base ∧
    (∀ b t, s.readToken b = .ok true t →
      ∃ token, T[m.next]? = some token ∧ t.tokens = s.tokens.push token) ∧
    (∀ b t, s.readToken b = .ok false t → t.tokens = s.tokens) ∧
    (∀ t, s.readToken true = .ok false t → m.next = T.length ∧
      ∀ more u, Runs t more u → (∀ c ∈ more, c.1.onTokens = true ∧ c.1 ≠ .unreadToken) →
        ∀ b, ∃ v, u.readToken b = .ok false v) ∧
    (∀ b e' t, s.readToken b = .error e' t → m.next = T.length ∧ e = some e' ∧ t.tokens = s.tokens) ∧
    ((∃ e', s.unreadToken = .error e') ↔ m.givenBack = true ∨ m.base = m.next) := by
  intro T e m
  have hs : Shows T e m s := (Shows.start source keepComments).run h hcalls
  refine ⟨hs.base_le, hs.next_le, hs.tokens, ?_, ?_, ?_, ?_, ?_⟩
  · intro b t hr
    obtain ⟨token, htoken, ht, -⟩ := hs.found hr
    exact ⟨token, htoken, ht⟩
  · intro b t hr
    rw [← Array.toList_inj, (hs.notFound hr).1.tokens, hs.tokens]
  · intro t hr
    obtain ⟨ht, hend⟩ := hs.notFound hr
    obtain ⟨hm, he⟩ := hend rfl
    rw [he] at ht
    refine ⟨hm, fun more u hmore hc b ↦ ?_⟩
    obtain ⟨m', hm', hu⟩ := ht.run_atEnd hm hmore hc
    exact hu.atEnd hm' b
  · intro b e' t hr
    exact hs.failed hr
  · constructor
    · rintro ⟨e', he'⟩
      exact hs.refused he'
    · intro hm
      cases hu : s.unreadToken with
      | error e' => exact ⟨e', rfl⟩
      | ok t =>
        obtain ⟨-, hback, hlt⟩ := hs.unread hu
        rcases hm with hm | hm
        · rw [hback] at hm
          cases hm
        · omega

theorem follows_bookmark_comment : ∃ s,
    Runs (.ofSource "a /*\n*/ b\nc 'xy'" false)
      [(.readToken true, .found true), (.readToken false, .found true), (.unreadToken, .done),
        (.clearTokens, .done), (.readToken false, .found true), (.readToken false, .found false)] s ∧
    s.tokens.toList = [⟨.identifier "b", .onLine 2 3 3⟩] ∧
    (∀ t, s.readToken true = .ok true t → ∃ token,
      (stream (.ofSource "a /*\n*/ b\nc 'xy'" false)).1.toList[2]? = some token ∧
        t.tokens = s.tokens.push token) ∧
    ((∃ e, s.unreadToken = .error e) ↔ false = true ∨ 1 = 2) := by
  obtain ⟨s, h⟩ : ∃ s, Runs (.ofSource "a /*\n*/ b\nc 'xy'" false)
      [(.readToken true, .found true), (.readToken false, .found true), (.unreadToken, .done),
        (.clearTokens, .done), (.readToken false, .found true), (.readToken false, .found false)] s :=
    ⟨_, .cons_reply (by decide +kernel) rfl (.cons_reply (by decide +kernel) rfl
      (.cons_reply (by decide +kernel) rfl (.cons_reply (by decide +kernel) rfl
        (.cons_reply (by decide +kernel) rfl (.cons_reply (by decide +kernel) rfl .nil)))))⟩
  have hT : (stream (.ofSource "a /*\n*/ b\nc 'xy'" false)).1.toList =
      [⟨.identifier "a", .onLine 1 0 0⟩, ⟨.identifier "b", .onLine 2 3 3⟩,
        ⟨.identifier "c", .onLine 3 0 0⟩] := by decide +kernel
  obtain ⟨-, -, htokens, hfound, -, -, -, hrefused⟩ := follows_bookmark h (by decide)
  refine ⟨s, h, ?_, fun t ht ↦ hfound true t ht, hrefused⟩
  rw [htokens, hT]
  rfl

end Linewise.Lexer
