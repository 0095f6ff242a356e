import Linewise.Proofs.Calls
import Linewise.Proofs.Coverage
import Linewise.Proofs.SideBySide

namespace Linewise

open Text

namespace Cursor

variable {c d : Cursor} {x : Char} {line : List Char}

/-- The characters that the cursor remembers are those in front of it. -/
structure Remembers (c : Cursor) : Prop where
  current : ∀ x ∈ c.read.head?, c.current = some x
  previous : c.steppedBack = false → ∀ x ∈ c.read[1]?, c.previous = some x

theorem remembers_of_read_eq_nil (h : c.read = []) : c.Remembers := ⟨by simp [h], by simp [h]⟩

theorem Remembers.next (h : c.Remembers) (hn : c.next? = some (x, d)) : d.Remembers := by
  unfold next? at hn
  split at hn <;> cases hn
  refine ⟨?_, ?_⟩
  · intro y hy
    exact hy
  · intro _ y hy
    rw [List.getElem?_cons_succ, ← List.head?_eq_getElem?] at hy
    exact h.current y hy

theorem Remembers.stepBack (h : c.Remembers) (hb : c.stepBack? = some d) : d.Remembers := by
  unfold stepBack? at hb
  split at hb
  · cases hb
  next hsteppedBack =>
  split at hb <;> cases hb
  next y read hread =>
  refine ⟨?_, nofun⟩
  intro z hz
  apply h.previous (by simpa using hsteppedBack)
  rw [hread, List.getElem?_cons_succ, ← List.head?_eq_getElem?]
  exact hz

theorem line_of_next? (h : c.next? = some (x, d)) : d.line = c.line := by
  unfold next? at h
  split at h <;> cases h
  next hrest => simp [line, hrest]

theorem line_of_stepBack? (h : c.stepBack? = some d) : d.line = c.line := by
  unfold stepBack? at h
  split at h
  · cases h
  · split at h <;> cases h
    next hread => simp [Cursor.line, hread]

structure On (line : List Char) (c : Cursor) : Prop where
  line : c.line = line
  remembers : c.Remembers

theorem On.next (h : On line c) (hn : c.next? = some (x, d)) : On line d :=
  ⟨(line_of_next? hn).trans h.line, h.remembers.next hn⟩

theorem On.stepBack (h : On line c) (hb : c.stepBack? = some d) : On line d :=
  ⟨(line_of_stepBack? hb).trans h.line, h.remembers.stepBack hb⟩

theorem lasting_on (line : List Char) : Lasting (On line) where
  next := On.next
  back {c d x} h hn := by
    cases hb : d.stepBack? with
    | none => exact h
    | some e => exact (h.next hn).stepBack hb

theorem on_ofLine (line : List Char) : On line (ofLine line) := ⟨rfl, remembers_of_read_eq_nil rfl⟩

theorem On.forward (h : On line c) (n : Nat) : On line (c.forward n) :=
  ((lasting_on line).parallel.forward ⟨rfl, h⟩ n).2

theorem On.nextIs (h : On line c) (x : Char) : On line (c.nextIs x).2 :=
  ((lasting_on line).parallel.nextIs ⟨rfl, h⟩ x).cursor.2

theorem On.nextChar? (h : On line c) (skipBlanks : Bool) : On line (Lexer.nextChar? skipBlanks c).2 :=
  ((lasting_on line).parallel.nextChar? ⟨rfl, h⟩ skipBlanks).cursor.2

theorem On.read (h : On line c) (x : Char) : On line (Lexeme.read x c).cursor :=
  ((lasting_on line).parallel.read ⟨rfl, h⟩ x).cursor.2

end Cursor

namespace Lexer

variable {s t : Lexer} {ls : List (List Char)}

inductive Placed (ls : List (List Char)) (s : Lexer) : Prop
  | onLine (front : List (List Char)) : [] :: ls = front ++ s.cursor.line :: s.pending →
      s.lineNumber = front.length → Placed ls s
  | atEnd : s.cursor.line = [] → s.pending = [] → Placed ls s

/-- The state stands in the text, remembers what it has read there and has only tokens of the text. -/
structure WellFormed (ls : List (List Char)) (s : Lexer) : Prop where
  placed : Placed ls s
  remembers : s.cursor.Remembers
  tokens : ∀ token ∈ s.tokens.toList ++ s.held.toList, token.LiesIn ls

namespace WellFormed

theorem ofText (source : List Char) (keepComments : Bool) :
    WellFormed (lines source) (ofText source keepComments) where
  placed := .onLine [] rfl rfl
  remembers := Cursor.remembers_of_read_eq_nil rfl
  tokens := by simp [Lexer.ofText]

theorem on (h : WellFormed ls s) : s.cursor.On s.cursor.line := ⟨rfl, h.remembers⟩

theorem withCursor (h : WellFormed ls s) {c : Cursor} (hc : c.On s.cursor.line) :
    WellFormed ls { s with cursor := c } := by
  refine ⟨?_, hc.remembers, h.tokens⟩
  cases h.placed with
  | onLine front hls hnumber => exact .onLine front (by rw [hls, hc.line]) hnumber
  | atEnd hline hpending => exact .atEnd (hc.line.trans hline) hpending

theorem withTokens (h : WellFormed ls s) {tokens : Array Token} (held : Option Token)
    (ht : ∀ token ∈ tokens.toList ++ held.toList, token.LiesIn ls) :
    WellFormed ls (s.withTokens tokens held) := by
  refine ⟨?_, h.remembers, ht⟩
  cases h.placed with
  | onLine front hls hnumber => exact .onLine front hls hnumber
  | atEnd hline hpending => exact .atEnd hline hpending

theorem ended (h : WellFormed ls s) (number : Nat) :
    WellFormed ls { s with pending := [], cursor := s.cursor.withoutLine, lineNumber := number } :=
  ⟨.atEnd rfl rfl, Cursor.remembers_of_read_eq_nil rfl, h.tokens⟩

theorem laterLine (h : WellFormed ls s) {skipped pending : List (List Char)} {line : List Char}
    {c : Cursor} (hpending : s.pending = skipped ++ line :: pending) (hc : c.On line) :
    WellFormed ls { s with pending, cursor := c, lineNumber := s.lineNumber + skipped.length + 1 } := by
  refine ⟨?_, hc.remembers, h.tokens⟩
  cases h.placed with
  | onLine front hls hnumber =>
    refine .onLine (front ++ s.cursor.line :: skipped) ?_ ?_
    · rw [hls, hpending, hc.line, List.append_assoc, List.cons_append]
    · rw [List.length_append, List.length_cons, hnumber, Nat.add_assoc]
  | atEnd hline hempty =>
    rw [hempty] at hpending
    simp at hpending

theorem nextChar? (h : WellFormed ls s) {skipBlanks : Bool} {x : Option Char} {c : Cursor}
    (hc : nextChar? skipBlanks s.cursor = (x, c)) : WellFormed ls { s with cursor := c } := by
  have hcursor := h.withCursor (h.on.nextChar? skipBlanks)
  rwa [hc] at hcursor

theorem lexeme (h : WellFormed ls s) (x : Char) : WellFormed ls (finalState (lexeme x s)) := by
  have hcursor := h.withCursor (h.on.read x)
  unfold Lexer.lexeme
  dsimp only
  split
  · exact hcursor
  · exact hcursor

theorem blockComment (h : WellFormed ls s) (start : Nat) :
    WellFormed ls (finalState (blockComment start s)) := by
  unfold Lexer.blockComment
  dsimp only
  split
  · next n _ => exact h.withCursor (h.on.forward n)
  · split
    · next e he =>
      obtain ⟨skipped, hpending, hskipped, -⟩ := Lexeme.commentEnd?_eq he
      have hlater := h.laterLine hpending ((Cursor.on_ofLine e.line).forward e.length)
      rw [hskipped] at hlater
      exact hlater
    · exact h.ended _

theorem scan (h : WellFormed ls s) (x : Char) : WellFormed ls (finalState (scan x s)) := by
  have hstar := h.withCursor (h.on.nextIs '*')
  unfold Lexer.scan
  generalize s.cursor.nextIs '*' = r at hstar
  obtain ⟨b, c⟩ := r
  split
  · cases b with
    | true => exact hstar.blockComment _
    | false => exact hstar.lexeme x
  · exact h.lexeme x

theorem advanceLine (h : WellFormed ls s) (force : Bool) : WellFormed ls (advanceLine force s).2 := by
  unfold Lexer.advanceLine
  split
  · exact h
  · split
    · exact h.ended _
    · next line pending hdrop =>
      have hsplit := List.takeWhile_append_dropWhile (p := fun l : List Char ↦ l.all isBlank)
        (l := s.pending)
      rw [hdrop] at hsplit
      have hlater := h.laterLine hsplit.symm (Cursor.on_ofLine line)
      have hlength := congrArg List.length hsplit
      rw [List.length_append, List.length_cons] at hlength
      have hnumber : s.lineNumber + (s.pending.length - pending.length) =
          s.lineNumber + (s.pending.takeWhile (·.all isBlank)).length + 1 := by omega
      rw [hnumber]
      exact hlater

/-- Where there is something left to read, the state stands on a line. -/
theorem inside (h : WellFormed ls s) (hrest : s.cursor.rest ≠ []) : Inside ls s := by
  cases h.placed with
  | onLine front hls hnumber => exact ⟨front, s.cursor.read.reverse, hls, hnumber, List.length_reverse.symm⟩
  | atEnd hline _ => exact absurd (List.append_eq_nil_iff.1 hline).2 hrest

theorem liesIn (h : WellFormed ls s) {token : Token} (hf : s.find = .token token t) : token.LiesIn ls := by
  obtain ⟨x, c, hc, -⟩ := scan_of_find_token hf
  have hlength := nextChar?_some hc
  refine (h.inside fun hnil ↦ ?_).liesIn hf
  rw [hnil] at hlength
  cases hlength

theorem persistent (ls : List (List Char)) : Persistent (WellFormed ls) where
  lineEnd h hf := by
    obtain ⟨c, hc, rfl⟩ := lineEnd_of_find hf
    exact h.nextChar? hc
  laterLine h hf ha := by
    obtain ⟨c, hc, rfl⟩ := lineEnd_of_find hf
    have hline := (h.nextChar? hc).advanceLine false
    rwa [ha] at hline
  failure h hf := by
    obtain ⟨x, c, hc, hs⟩ := scan_of_failure hf
    have hscan := (h.nextChar? hc).scan x
    rwa [hs] at hscan
  comment h hf := by
    obtain ⟨-, x, c, token, hc, hs, -⟩ := scan_of_find_comment hf
    have hscan := (h.nextChar? hc).scan x
    rwa [hs] at hscan
  token {s t token} h hf := by
    obtain ⟨x, c, hc, hs⟩ := scan_of_find_token hf
    have hscan := (h.nextChar? hc).scan x
    rw [hs] at hscan
    have hsame := sameTokens_of_find (.inr ⟨token, hf⟩)
    refine hscan.withTokens t.held fun token' ht ↦ ?_
    rw [Array.toList_push, hsame.tokens, hsame.held, List.mem_append, List.mem_append] at ht
    rcases ht with (ht | ht) | ht
    · exact h.tokens token' (List.mem_append_left _ ht)
    · obtain rfl := List.mem_singleton.1 ht
      exact h.liesIn hf
    · exact h.tokens token' (List.mem_append_right _ ht)

theorem readToken (h : WellFormed ls s) (acrossLines : Bool) :
    WellFormed ls (finalState (readToken acrossLines s)) := by
  unfold Lexer.readToken
  split
  · next token hheld =>
    have htokens := h.tokens
    rw [hheld] at htokens
    exact h.withTokens none (by simpa using htokens)
  · exact (persistent ls).pull h acrossLines

theorem unreadToken (h : WellFormed ls s) (hu : s.unreadToken = .ok t) : WellFormed ls t := by
  obtain ⟨hheld, tokens, token, htokens, rfl⟩ := unreadToken_eq_ok hu
  have hmem := h.tokens
  rw [hheld, htokens] at hmem
  exact h.withTokens (some token) (by simpa using hmem)

theorem clearTokens (h : WellFormed ls s) : WellFormed ls s.clearTokens :=
  h.withTokens s.held fun token ht ↦ h.tokens token (List.mem_append_right _ (by simpa using ht))

theorem unreadChar (h : WellFormed ls s) (hu : s.unreadChar = .ok t) : WellFormed ls t := by
  unfold Lexer.unreadChar at hu
  split at hu
  · cases hu
  · next c hc =>
    cases hu
    exact h.withCursor (h.on.stepBack hc)

/-- Every call keeps the state well-formed, also one that fails. -/
theorem reply (h : WellFormed ls s) (call : Call) : WellFormed ls (s.reply call).2 := by
  cases call with
  | advanceLine force => exact h.advanceLine force
  | readChar skipBlanks => exact h.withCursor (h.on.nextChar? skipBlanks)
  | unreadChar =>
    simp only [Lexer.reply]
    split
    · next hu => exact h.unreadChar hu
    · exact h
  | readToken acrossLines =>
    have ht := h.readToken acrossLines
    simp only [Lexer.reply]
    split
    · next hr => rwa [hr] at ht
    · next hr => rwa [hr] at ht
  | unreadToken =>
    simp only [Lexer.reply]
    split
    · next hu => exact h.unreadToken hu
    · exact h
  | clearTokens => exact h.clearTokens

theorem runs (h : WellFormed ls s) {trace : List (Call × Reply)} (hr : Runs s trace t) : WellFormed ls t := by
  induction hr with
  | nil => exact h
  | @cons s t u call r trace hstep _ _ ih =>
    have ht := h.reply call
    rw [hstep] at ht
    exact ih ht

end WellFormed

/-- The state agrees with the lines of its text: the current line is one of them, the characters that the
cursor remembers stand in front of it, and the spans of all tokens name characters of the lines. -/
structure Reflects (ls : List (List Char)) (s : Lexer) : Prop where
  column_le : s.cursor.column ≤ s.cursor.line.length
  line : s.cursor.line ≠ [] → 0 < s.lineNumber ∧ ls[s.lineNumber - 1]? = some s.cursor.line
  current : 0 < s.cursor.column → s.cursor.current = s.cursor.line[s.cursor.column - 1]?
  previous : 2 ≤ s.cursor.column → s.cursor.steppedBack = false →
    s.cursor.previous = s.cursor.line[s.cursor.column - 2]?
  tokens : ∀ token ∈ s.tokens.toList ++ s.held.toList,
    (charAt? ls token.span.start).isSome = true ∧ (charAt? ls token.span.stop).isSome = true ∧
      (token.span.start.line = token.span.stop.line → token.span.start.column ≤ token.span.stop.column)

theorem getElem?_line {c : Cursor} {i : Nat} (hi : i < c.column) :
    c.line[c.column - (i + 1)]? = c.read[i]? := by
  have hlt : c.column - (i + 1) < c.read.length := by
    rw [Cursor.column]
    exact Nat.sub_lt (Nat.zero_lt_of_lt hi) (Nat.succ_pos i)
  rw [Cursor.line, List.getElem?_append_left (by rwa [List.length_reverse]), List.getElem?_reverse hlt]
  congr 1
  rw [Cursor.column] at hi ⊢
  omega

theorem WellFormed.reflects (h : WellFormed ls s) : Reflects ls s where
  column_le := by
    rw [Cursor.column, Cursor.line, List.length_append, List.length_reverse]
    exact Nat.le_add_right _ _
  line hne := by
    cases h.placed with
    | onLine front hls hnumber =>
      cases front with
      | nil => exact absurd (List.cons.inj hls).1.symm hne
      | cons first front =>
        have hlines : ls = front ++ s.cursor.line :: s.pending := (List.cons.inj hls).2
        rw [hnumber, hlines, List.length_cons, Nat.add_sub_cancel,
          List.getElem?_append_right (Nat.le_refl _), Nat.sub_self, List.getElem?_cons_zero]
        exact ⟨Nat.succ_pos _, rfl⟩
    | atEnd hline _ => exact absurd hline hne
  current hpos := by
    have hread := List.getElem?_eq_getElem hpos
    rw [getElem?_line hpos, hread]
    exact h.remembers.current _ (by rw [List.head?_eq_getElem?, hread]; rfl)
  previous hlt hback := by
    have hread := List.getElem?_eq_getElem hlt
    rw [getElem?_line hlt, hread]
    exact h.remembers.previous hback _ hread
  tokens token ht := by
    have hliesIn := h.tokens token ht
    refine ⟨hliesIn.start, hliesIn.stop, fun hline ↦ ?_⟩
    rcases hliesIn.ordered with hlt | ⟨-, hle⟩
    · omega
    · exact hle

/-- After any calls on characters and tokens, the first that fails or is refused included, the lexer
agrees with its text. -/
theorem reflects_text {source : String} {keepComments : Bool} {trace : List (Call × Reply)}
    (h : Runs (.ofSource source keepComments) trace s) :
    Reflects (lines source.toList) s ∧ ∀ call, Reflects (lines source.toList) (s.reply call).2 := by
  have hs : WellFormed (lines source.toList) s := (WellFormed.ofText source.toList keepComments).runs h
  exact ⟨hs.reflects, fun call ↦ (hs.reply call).reflects⟩

theorem reflects_text_unclosed : ∃ s,
    Runs (.ofSource "é b\n/* c\n*/ d 'x" true)
      [(.advanceLine false, .found true), (.readChar true, .found true), (.readChar false, .found true),
        (.unreadChar, .done), (.readToken true, .found true), (.unreadToken, .done),
        (.readToken false, .found true), (.readToken true, .found true), (.readToken false, .found true)] s ∧
    Reflects (lines "é b\n/* c\n*/ d 'x".toList) s ∧
    (s.reply (.readToken false)).1 = .failed ⟨.unterminatedChar, .onLine 3 5 5⟩ ∧
    Reflects (lines "é b\n/* c\n*/ d 'x".toList) (s.reply (.readToken false)).2 := by
  have h : Runs (.ofSource "é b\n/* c\n*/ d 'x" true)
      [(.advanceLine false, .found true), (.readChar true, .found true), (.readChar false, .found true),
        (.unreadChar, .done), (.readToken true, .found true), (.unreadToken, .done),
        (.readToken false, .found true), (.readToken true, .found true), (.readToken false, .found true)] _ :=
    .cons_reply (by decide +kernel) rfl (.cons_reply (by decide +kernel) rfl
      (.cons_reply (by decide +kernel) rfl (.cons_reply (by decide +kernel) rfl
        (.cons_reply (by decide +kernel) rfl (.cons_reply (by decide +kernel) rfl
          (.cons_reply (by decide +kernel) rfl (.cons_reply (by decide +kernel) rfl
            (.cons_reply (by decide +kernel) rfl .nil))))))))
  obtain ⟨hs, hcalls⟩ := reflects_text h
  exact ⟨_, h, hs, by decide +kernel, hcalls (.readToken false)⟩

end Lexer

end Linewise
