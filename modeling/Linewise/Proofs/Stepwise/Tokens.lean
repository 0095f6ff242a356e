import Linewise.Proofs.Stepwise.Lexemes

namespace Linewise.Lexer

open Text

variable {s t : Lexer} {x : Char} {rest : List Char}

namespace Step

def SamePlace (s t : Lexer) : Prop := ∃ current previous steppedBack,
  t = { s with cursor := { s.cursor with current, previous, steppedBack } }

theorem SamePlace.refl (s : Lexer) : SamePlace s s := ⟨_, _, _, rfl⟩

theorem SamePlace.trans {u : Lexer} (h : SamePlace s t) (h' : SamePlace t u) : SamePlace s u := by
  obtain ⟨_, _, _, rfl⟩ := h
  obtain ⟨current, previous, steppedBack, rfl⟩ := h'
  exact ⟨current, previous, steppedBack, rfl⟩

/-- The same result, or the same error in the text in the same place, and so no internal error. -/
inductive Matches {α : Type} : Outcome α → EStateM.Result LexicalError Lexer α → Prop
  | ok (a : α) (t : Lexer) : Matches (.ok a t) (.ok a t)
  | rejected (e : LexicalError) {t u : Lexer} : SamePlace t u → Matches (.error (.rejected e) t) (.error e u)

theorem Matches.eq_ok {α : Type} {r : Outcome α} {r' : EStateM.Result LexicalError Lexer α} {a : α}
    (h : Matches r r') (hr : r = .ok a t) : r' = .ok a t := by
  subst hr
  cases h
  rfl

theorem Matches.eq_error {α : Type} {r : Outcome α} {r' : EStateM.Result LexicalError Lexer α}
    {e : Failure LexicalError} (h : Matches r r') (hr : r = .error e t) :
    ∃ e' u, e = .rejected e' ∧ SamePlace t u ∧ r' = .error e' u := by
  subst hr
  cases h with
  | rejected e hplace => exact ⟨e, _, rfl, hplace, rfl⟩

theorem Matches.of_ok {α : Type} {r : Outcome α} {a : α} (h : Matches r (.ok a t)) : r = .ok a t := by
  cases h
  rfl

theorem commentLength?_of_blank {line : List Char} (h : line.all isBlank = true) (star : Bool) :
    Lexeme.commentLength? star line = none := by
  induction line generalizing star with
  | nil => rfl
  | cons c line ih =>
    rw [List.all_cons, Bool.and_eq_true] at h
    have hc : (star && c == '/') = false := by
      rw [Bool.and_eq_false_iff, beq_eq_false_iff_ne]
      right
      rintro rfl
      exact absurd h.1 (by decide)
    rw [Lexeme.commentLength?, hc, ih h.2]
    rfl

theorem commentEnd?_of_blank {skipped : List (List Char)} (h : ∀ line ∈ skipped, line.all isBlank = true)
    (more : List (List Char)) : Lexeme.commentEnd? (skipped ++ more) =
      (Lexeme.commentEnd? more).map fun e ↦ { e with skipped := e.skipped + skipped.length } := by
  induction skipped with
  | nil =>
    rw [List.nil_append]
    cases Lexeme.commentEnd? more <;> rfl
  | cons line skipped ih =>
    obtain ⟨hline, hskipped⟩ := List.forall_mem_cons.1 h
    rw [List.cons_append, Lexeme.commentEnd?, commentLength?_of_blank hline, ih hskipped, Option.map_map]
    rfl

theorem advanceLine_cases (h : s.cursor.rest = []) (force : Bool) :
    (∃ skipped line pending, s.pending = skipped ++ line :: pending ∧
      (∀ l ∈ skipped, l.all isBlank = true) ∧ s.advanceLine force =
        (true, { s with pending, cursor := .ofLine line, lineNumber := s.lineNumber + skipped.length + 1 })) ∨
    ((∀ l ∈ s.pending, l.all isBlank = true) ∧ s.advanceLine force = (false, { s with
      pending := [], cursor := s.cursor.withoutLine, lineNumber := s.lineNumber + s.pending.length })) := by
  have hsplit := List.takeWhile_append_dropWhile (p := fun l : List Char ↦ l.all isBlank) (l := s.pending)
  have hblank : ∀ l ∈ s.pending.takeWhile (·.all isBlank), l.all isBlank = true := by
    intro l hl
    exact List.mem_takeWhile_imp (p := fun l : List Char ↦ l.all isBlank) hl
  have hforce : ¬ (!force && !s.cursor.rest.isEmpty) = true := by simp [h]
  rw [advanceLine, if_neg hforce]
  cases hd : s.pending.dropWhile (·.all isBlank) with
  | nil => exact .inr ⟨List.dropWhile_eq_nil_iff.1 hd, rfl⟩
  | cons line pending =>
    rw [hd] at hsplit
    have hlength := congrArg List.length hsplit
    rw [List.length_append, List.length_cons] at hlength
    refine .inl ⟨_, line, pending, hsplit.symm, hblank, ?_⟩
    have hnumber : s.lineNumber + (s.pending.length - pending.length) =
        s.lineNumber + (s.pending.takeWhile (·.all isBlank)).length + 1 := by omega
    simp only [hnumber]

def commentOutcome (line start : Nat) (star : Bool) (s : Lexer) : EStateM.Result LexicalError Lexer Token :=
  let token (stop : Lexer) : EStateM.Result LexicalError Lexer Token :=
    .ok ⟨.blockComment, ⟨⟨line, start⟩, ⟨stop.lineNumber, stop.cursor.position⟩⟩⟩ stop
  match Lexeme.commentLength? star s.cursor.rest with
  | some n => token (s.forward n)
  | none => match Lexeme.commentEnd? s.pending with
    | some e => token { s with
        pending := e.pending, cursor := (Cursor.ofLine e.line).forward e.length,
        lineNumber := s.lineNumber + e.skipped + 1 }
    | none => .error ⟨.unterminatedComment, .onLine line start (start + 1)⟩ { s with
        pending := [], cursor := s.cursor.withoutLine, lineNumber := s.lineNumber + s.pending.length }

theorem spanAcross_eq {line start : Nat} (h : line ≤ s.lineNumber) :
    spanAcross line start s = .ok ⟨⟨line, start⟩, ⟨s.lineNumber, s.cursor.position⟩⟩ s := by
  have hensure : ensure (line ≤ s.lineNumber) .linesReversed s = .ok () s := by
    simp only [ensure, decide_eq_true h, if_true]
    rfl
  have hget : (get : Step Lexer) s = .ok s s := rfl
  rw [spanAcross, bind_of_ok hget, bind_of_ok hensure]
  rfl

/-- Going on with the next line that is not blank makes no difference to where a comment ends. -/
theorem Matches.of_nextLine {line start : Nat} {star : Bool} {skipped pending : List (List Char)}
    {next : List Char} {r : Outcome Token} (hr : s.cursor.rest = [])
    (hp : s.pending = skipped ++ next :: pending) (hb : ∀ l ∈ skipped, l.all isBlank = true)
    (h : Matches r (commentOutcome line start false { s with
      pending, cursor := .ofLine next, lineNumber := s.lineNumber + skipped.length + 1 })) :
    Matches r (commentOutcome line start star s) := by
  have hnone : Lexeme.commentLength? star [] = none := rfl
  unfold commentOutcome at h ⊢
  rw [hr, hnone, hp, commentEnd?_of_blank hb, Lexeme.commentEnd?]
  dsimp only [Cursor.ofLine] at h ⊢
  cases hn : Lexeme.commentLength? false next with
  | some n =>
    rw [hn] at h
    simpa only [Option.map_some, Nat.zero_add, forward] using h
  | none =>
    rw [hn] at h
    cases he : Lexeme.commentEnd? pending with
    | some e =>
      rw [he] at h
      simp only [Option.map_some] at h ⊢
      have hskipped : s.lineNumber + skipped.length + 1 + e.skipped + 1 =
          s.lineNumber + (e.skipped + 1 + skipped.length) + 1 := by omega
      rw [hskipped] at h
      exact h
    | none =>
      rw [he] at h
      simp only [Option.map_none] at h ⊢
      have hlength : s.lineNumber + skipped.length + 1 + pending.length =
          s.lineNumber + (skipped ++ next :: pending).length := by
        rw [List.length_append, List.length_cons]
        omega
      rw [hlength] at h
      cases h with
      | rejected _ hplace => exact .rejected _ (hplace.trans ⟨_, _, _, rfl⟩)

/-- Nor does reading one more character of the comment. -/
theorem Matches.of_nextChar {line start : Nat} {star : Bool} {r : Outcome Token}
    (hr : s.cursor.rest = x :: rest) (hend : ¬ (star && x == '/') = true)
    (h : Matches r (commentOutcome line start (x == '*') (s.forward 1))) :
    Matches r (commentOutcome line start star s) := by
  unfold commentOutcome at h ⊢
  rw [rest_forward hr] at h
  rw [hr, Lexeme.commentLength?, if_neg hend]
  cases hn : Lexeme.commentLength? (x == '*') rest with
  | some n =>
    rw [hn] at h
    simpa only [Option.map_some, forward_forward] using h
  | none =>
    rw [hn] at h
    simp only [Option.map_none] at h ⊢
    cases he : Lexeme.commentEnd? s.pending with
    | some e =>
      rw [show (s.forward 1).pending = s.pending from rfl, he] at h
      exact h
    | none =>
      rw [show (s.forward 1).pending = s.pending from rfl, he] at h
      cases h with
      | rejected _ hplace => exact .rejected _ (hplace.trans ⟨_, _, _, rfl⟩)

theorem blockComment_matches (line start : Nat) (star : Bool) (s : Lexer) (h : line ≤ s.lineNumber) :
    Matches (blockComment line start star s) (commentOutcome line start star s) := by
  fun_induction blockComment line start star s with
  | case1 star s t hr u ha =>
    obtain ⟨hs, rfl⟩ := eq_of_readChar hr
    rcases advanceLine_cases hs true with ⟨_, _, _, -, -, ha'⟩ | ⟨hblank, ha'⟩
    · rw [ha] at ha'
      cases ha'
    · rw [ha] at ha'
      obtain rfl := (Prod.mk.inj ha').2
      have hlength : Lexeme.commentLength? star [] = none := rfl
      have hnone : Lexeme.commentEnd? t.pending = none := by
        have hend := commentEnd?_of_blank hblank []
        rwa [List.append_nil] at hend
      have hensure : ensure (start ≤ start + 1) .columnsReversed = (pure () : Step Unit) := by
        simp [ensure]
      rw [commentOutcome, hs, hlength, hnone, hensure]
      exact .rejected _ (.refl _)
  | case2 star s t hr u ha ih =>
    obtain ⟨hs, rfl⟩ := eq_of_readChar hr
    rcases advanceLine_cases hs true with ⟨_, _, _, hp, hb, ha'⟩ | ⟨-, ha'⟩
    · rw [ha] at ha'
      obtain rfl := (Prod.mk.inj ha').2
      exact .of_nextLine hs hp hb (ih (by simp only; omega))
    · rw [ha] at ha'
      cases ha'
  | case3 star s t hr hend =>
    obtain ⟨x, rest, hs, rfl⟩ := exists_of_readChar hr
    rw [current_forward hs] at hend
    have hend' : (star && x == '/') = true := hend
    have hspan : spanAcross line start (s.forward 1) = _ := spanAcross_eq h
    rw [commentOutcome, hs, Lexeme.commentLength?, if_pos hend', bind_of_ok hspan]
    exact .ok _ _
  | case4 star s t hr hend ih =>
    obtain ⟨x, rest, hs, rfl⟩ := exists_of_readChar hr
    rw [current_forward hs] at hend ih ⊢
    exact .of_nextChar hs hend (ih h)

theorem exists_takes {c : Cursor} {kind : TokenKind} (h : (Lexeme.read x c).outcome = .ok kind) :
    ∃ w post, (Lexeme.read x c).Takes kind c w post := by
  by_cases hx : x = '#'
  · subst hx
    obtain ⟨hok, hfirst, hlast, hrest, hcolumn⟩ := Lexeme.read_hash c
    exact ⟨c.rest, [], h, hfirst, hlast, hrest, hcolumn⟩
  · obtain ⟨w, post, hw, -, hlocal⟩ := Lexeme.read_local h hx
    exact ⟨w, post, hlocal c post hw (.refl post)⟩

theorem lexeme_matches (x : Char) (s : Lexer) :
    Matches (lexeme x s.cursor.position s) (Lexer.lexeme x s) := by
  have hkind := tokenKind_eq x s
  rw [lexeme, Lexer.lexeme]
  cases hread : (Lexeme.read x s.cursor).outcome with
  | error cause =>
    rw [ofLexeme, hread] at hkind
    rw [bind_of_error hkind]
    dsimp only
    exact .rejected _ (.refl _)
  | ok kind =>
    obtain ⟨w, post, -, hfirst, hlast, -, hcolumn⟩ := exists_takes hread
    have hle : s.cursor.position ≤ (Lexeme.read x s.cursor).cursor.position :=
      Nat.sub_le_sub_right (by omega) 1
    have hspan : spanFrom s.cursor.position { s with cursor := (Lexeme.read x s.cursor).cursor } = _ :=
      spanFrom_eq hle
    rw [ofLexeme, hread] at hkind
    rw [bind_of_ok hkind, bind_of_ok hspan, hfirst, hlast]
    exact .ok _ _

/-- Reading a token, the first character of which has just been read. -/
theorem token_matches (hx : s.cursor.current = some x) : Matches (token s) (scan x s) := by
  have hcurrent : current? s = .ok (some x) s := by
    rw [← hx]
    rfl
  have hposition : position s = .ok s.cursor.position s := rfl
  rw [token, bind_of_ok hcurrent]
  dsimp only
  rw [bind_of_ok hposition, scan]
  by_cases hslash : x = '/'
  · rw [if_pos hslash, if_pos hslash, bind_of_ok (nextIs_eq '*' s)]
    rcases hnext : s.cursor.nextIs '*' with ⟨_ | _, c⟩
    · have hc : c.position = s.cursor.position := by
        by_cases hhead : s.cursor.rest.head? = some '*'
        · obtain ⟨d, hd⟩ := Cursor.nextIs_of_head hhead
          rw [hd] at hnext
          cases hnext
        · rw [Cursor.nextIs_eq_peek hhead] at hnext
          rw [← (Prod.mk.inj hnext).2, Cursor.position, Cursor.peek_column, Cursor.position]
      have hlexeme := lexeme_matches x { s with cursor := c }
      rw [hc] at hlexeme
      exact hlexeme
    · exact blockComment_matches _ _ _ _ (Nat.le_refl _)
  · rw [if_neg hslash, if_neg hslash]
    exact lexeme_matches x s

theorem exists_current (h : s.readChar true = (true, t)) :
    ∃ x, t.cursor.current = some x ∧ nextChar? true s.cursor = (some x, t.cursor) ∧
      t = { s with cursor := t.cursor } := by
  have hnext {c d : Cursor} {x : Char} (h : nextChar? true c = (some x, d)) : d.current = some x := by
    unfold nextChar? at h
    simp only [if_true] at h
    split at h <;> cases h
    next hn =>
    unfold Cursor.next? at hn
    split at hn <;> cases hn
    rfl
  unfold Lexer.readChar at h
  dsimp only at h
  rcases hc : nextChar? true s.cursor with ⟨_ | x, c⟩
  · rw [hc] at h
    cases h
  · rw [hc] at h
    cases h
    exact ⟨x, hnext hc, rfl, rfl⟩

theorem unreadSize_of_token (h : s.readChar true = (true, t)) {token : Token} {u : Lexer}
    (ht : Step.token t = .ok token u) : u.unreadSize < s.unreadSize := by
  obtain ⟨x, hx, -⟩ := exists_current h
  have hs := (token_matches hx).eq_ok ht
  exact Nat.lt_of_le_of_lt (unreadSize_of_scan hs) (unreadSize_of_readChar h)

def pull (acrossLines : Bool) (s : Lexer) : Outcome Bool :=
  match _h : s.readChar true with
  | (false, t) =>
    if acrossLines then
      match _ha : t.advanceLine false with
      | (true, u) => pull acrossLines u
      | (false, u) => .ok false u
    else .ok false t
  | (true, t) => match _ht : Step.token t with
    | .error e u => .error e u
    | .ok token u =>
      if token.kind.isComment && !s.keepComments then pull acrossLines u
      else .ok true { u with tokens := u.tokens.push token }
termination_by s.unreadSize
decreasing_by
  · exact unreadSize_of_advanceLine_readChar _h _ha
  · exact unreadSize_of_token _h _ht

def readToken (acrossLines : Bool) (s : Lexer) : Outcome Bool :=
  match s.held with
  | some token => .ok true { s with held := none, tokens := s.tokens.push token }
  | none => pull acrossLines s

theorem pull_of_lineEnd (acrossLines : Bool) (h : s.readChar true = (false, t)) :
    Lexer.pull acrossLines s =
      if acrossLines then
        match t.advanceLine false with
        | (true, u) => Lexer.pull acrossLines u
        | (false, u) => .ok false u
      else .ok false t := by
  have hfind : s.find = .lineEnd t := by
    unfold Lexer.readChar at h
    dsimp only at h
    rcases hc : nextChar? true s.cursor with ⟨_ | x, c⟩
    · rw [hc] at h
      obtain rfl := (Prod.mk.inj h).2
      simp only [find, hc]
    · rw [hc] at h
      cases h
  have hpull := pull_eq acrossLines s
  rw [hfind] at hpull
  exact hpull

theorem pull_of_token (acrossLines : Bool) (h : s.readChar true = (true, t)) (hx : t.cursor.current = some x) :
    Lexer.pull acrossLines s = match scan x t with
      | .error e u => .error e u
      | .ok token u =>
        if token.kind.isComment && !s.keepComments then Lexer.pull acrossLines u
        else .ok true { u with tokens := u.tokens.push token } := by
  obtain ⟨y, hy, hc, ht⟩ := exists_current h
  obtain rfl : y = x := Option.some.inj (hy.symm.trans hx)
  rw [pull_eq, find, hc]
  dsimp only
  rw [← ht]
  cases scan y t with
  | error e u => rfl
  | ok token u => cases hk : token.kind.isComment && !s.keepComments <;> simp only [hk] <;> rfl

theorem pull_matches (acrossLines : Bool) (s : Lexer) :
    Matches (pull acrossLines s) (Lexer.pull acrossLines s) := by
  fun_induction pull acrossLines s with
  | case1 s t hr hb u ha ih =>
    rw [pull_of_lineEnd acrossLines hr, if_pos hb, ha]
    exact ih
  | case2 s t hr hb u ha =>
    rw [pull_of_lineEnd acrossLines hr, if_pos hb, ha]
    exact .ok _ _
  | case3 s t hr hb =>
    rw [pull_of_lineEnd acrossLines hr, if_neg hb]
    exact .ok _ _
  | case4 s t hr e u ht =>
    obtain ⟨x, hx, -⟩ := exists_current hr
    obtain ⟨e, v, rfl, hplace, hs⟩ := (token_matches hx).eq_error ht
    rw [pull_of_token acrossLines hr hx, hs]
    exact .rejected e hplace
  | case5 s t hr token u ht hk ih =>
    obtain ⟨x, hx, -⟩ := exists_current hr
    rw [pull_of_token acrossLines hr hx, (token_matches hx).eq_ok ht]
    dsimp only
    rw [if_pos hk]
    exact ih
  | case6 s t hr token u ht hk =>
    obtain ⟨x, hx, -⟩ := exists_current hr
    rw [pull_of_token acrossLines hr hx, (token_matches hx).eq_ok ht]
    dsimp only
    rw [if_neg hk]
    exact .ok _ _

theorem readToken_matches (acrossLines : Bool) (s : Lexer) :
    Matches (readToken acrossLines s) (Lexer.readToken acrossLines s) := by
  rw [readToken, Lexer.readToken]
  cases s.held with
  | some token => exact .ok _ _
  | none => exact pull_matches acrossLines s

theorem remaining_of_step {b r : Bool} (h : readToken b s = .ok r t) :
    t.remaining + r.toNat ≤ s.remaining :=
  remaining_of_readToken ((readToken_matches b s).eq_ok h)

theorem readAll_eq_readToken (s : Lexer) : s.readAll = match Lexer.readToken true s with
    | .error e _ => .error e
    | .ok false t => .ok t.tokens
    | .ok true t => t.readAll := by
  rw [Lexer.readAll.eq_def]
  split
  · next hr => rw [hr]
  · next hr => rw [hr]
  · next hr => rw [hr]

def readAll (s : Lexer) : Except (Failure LexicalError) (Array Token) :=
  match _h : readToken true s with
  | .error e _ => .error e
  | .ok false t => .ok t.tokens
  | .ok true t => readAll t
termination_by s.remaining
decreasing_by exact remaining_of_step _h

/-- All the tokens of a text, or the error that they end in, are read without an internal error. -/
theorem readAll_eq_mapError (s : Lexer) : readAll s = s.readAll.mapError .rejected := by
  fun_induction readAll s with
  | case1 s e t h =>
    obtain ⟨e, u, rfl, -, hr⟩ := (readToken_matches true s).eq_error h
    rw [readAll_eq_readToken, hr]
    rfl
  | case2 s t h =>
    rw [readAll_eq_readToken, (readToken_matches true s).eq_ok h]
    rfl
  | case3 s t h ih =>
    rw [readAll_eq_readToken, (readToken_matches true s).eq_ok h]
    exact ih

end Step

end Linewise.Lexer
