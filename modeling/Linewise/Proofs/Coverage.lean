import Linewise.Proofs.Blanking
import Linewise.Proofs.TokenText

namespace Linewise

open Text

def Position.Before (p q : Position) : Prop := p.line < q.line ∨ (p.line = q.line ∧ p.column < q.column)
deriving Decidable

namespace Position

theorem before_of_not_le {p q : Position} (h : ¬ p ≤ q) : q.Before p := by
  rw [le_def] at h
  rw [Before]
  omega

theorem Before.not_le {p q : Position} (h : p.Before q) : ¬ q ≤ p := by
  rw [Before] at h
  rw [le_def]
  omega

theorem Before.le {p q : Position} (h : p.Before q) : p ≤ q := by
  rw [Before] at h
  rw [le_def]
  omega

theorem Before.of_le {p q r : Position} (h : q.Before r) (hp : p ≤ q) : p.Before r :=
  before_of_not_le fun hr ↦ h.not_le (le_trans hr hp)

end Position

/-- The characters of a text, each with its place, if the first one stands at `p`. -/
def placed (p : Position) : List Char → List (Position × Char)
  | [] => []
  | c :: cs => (p, c) :: placed (if c = '\n' then ⟨p.line + 1, 0⟩ else ⟨p.line, p.column + 1⟩) cs

def charAt? (ls : List (List Char)) (p : Position) : Option Char := ([] :: ls)[p.line]?.bind (·[p.column]?)

namespace Text

variable {p : Position} {c : Char}

theorem getElem?_pieces_of_placed {text : List Char} {n k : Nat} (h : (p, c) ∈ placed ⟨n, k⟩ text) :
    (p.line = n ∧ k ≤ p.column ∧ (pieces text)[0]?.bind (·[p.column - k]?) = some c) ∨
      (n < p.line ∧ (pieces text)[p.line - n]?.bind (·[p.column]?) = some c) := by
  induction text generalizing n k with
  | nil => cases h
  | cons d text ih =>
    rw [pieces_cons, addInFront.eq_def]
    rcases List.mem_cons.1 h with heq | h
    · cases heq
      left
      refine ⟨rfl, Nat.le_refl _, ?_⟩
      rw [Nat.sub_self]
      split
      · rfl
      · split <;> rfl
    by_cases hd : d = '\n'
    · rw [if_pos hd] at h ⊢
      change (p, c) ∈ placed ⟨n + 1, 0⟩ text at h
      right
      rcases ih h with ⟨hline, hcolumn, hget⟩ | ⟨hline, hget⟩
      · refine ⟨by omega, ?_⟩
        rw [show p.line - n = 0 + 1 by omega, List.getElem?_cons_succ, ← hget, Nat.sub_zero]
      · refine ⟨by omega, ?_⟩
        rw [show p.line - n = p.line - (n + 1) + 1 by omega, List.getElem?_cons_succ, hget]
    · rw [if_neg hd] at h ⊢
      change (p, c) ∈ placed ⟨n, k + 1⟩ text at h
      cases hp : pieces text with
      | nil =>
        rw [hp] at ih
        rcases ih h with ⟨-, -, hget⟩ | ⟨-, hget⟩ <;> simp at hget
      | cons first more =>
        rw [hp] at ih
        dsimp only
        rcases ih h with ⟨hline, hcolumn, hget⟩ | ⟨hline, hget⟩
        · left
          refine ⟨hline, by omega, ?_⟩
          rw [List.getElem?_cons_zero, Option.bind_some] at hget ⊢
          rw [show p.column - k = p.column - (k + 1) + 1 by omega, List.getElem?_cons_succ, hget]
        · right
          refine ⟨hline, ?_⟩
          rw [show p.line - n = p.line - n - 1 + 1 by omega] at hget ⊢
          exact hget

theorem getElem?_dropTerminator {text piece : List Char} (hp : piece ∈ pieces text) {i : Nat}
    (h : piece[i]? = some c) (hc : isBlank c = false) : (dropTerminator piece)[i]? = some c := by
  obtain ⟨a, ha, rfl | rfl⟩ := exists_of_mem_pieces hp
  · rwa [dropTerminator_of_no_newline ha]
  · have hnewline : a[i]? = some c := by
      rcases Nat.lt_or_ge i a.length with hi | hi
      · rwa [List.getElem?_append_left hi] at h
      · rw [List.getElem?_append_right hi] at h
        obtain rfl := List.mem_singleton.1 (List.mem_of_getElem? h)
        exact absurd hc (by decide)
    rw [dropTerminator_append_newline]
    split
    · next hr =>
      obtain ⟨body, rfl⟩ := List.getLast?_eq_some_iff.1 hr
      rw [List.dropLast_concat]
      rcases Nat.lt_or_ge i body.length with hi | hi
      · rwa [List.getElem?_append_left hi] at hnewline
      · rw [List.getElem?_append_right hi] at hnewline
        obtain rfl := List.mem_singleton.1 (List.mem_of_getElem? hnewline)
        exact absurd hc (by decide)
    · exact hnewline

theorem charAt?_of_placed {text : List Char} (h : (p, c) ∈ placed ⟨1, 0⟩ text) (hc : isBlank c = false) :
    charAt? (lines text) p = some c ∧ 0 < p.line := by
  have hpiece : 0 < p.line ∧ (pieces text)[p.line - 1]?.bind (·[p.column]?) = some c := by
    rcases getElem?_pieces_of_placed h with ⟨hline, -, hget⟩ | ⟨hline, hget⟩
    · rw [hline]
      exact ⟨Nat.one_pos, hget⟩
    · exact ⟨by omega, hget⟩
  obtain ⟨hline, hget⟩ := hpiece
  obtain ⟨piece, hp, hget⟩ := Option.bind_eq_some_iff.1 hget
  obtain ⟨n, hn⟩ := Nat.exists_eq_add_of_lt hline
  rw [Nat.zero_add] at hn
  refine ⟨?_, hline⟩
  rw [hn, Nat.add_sub_cancel] at hp
  rw [charAt?, hn, List.getElem?_cons_succ, lines, List.getElem?_map, hp]
  exact getElem?_dropTerminator (List.mem_of_getElem? hp) hget hc

end Text

/-- The span of the token runs from one character of the lines to another, and over the end of a line only
in a comment. -/
structure Token.LiesIn (ls : List (List Char)) (token : Token) : Prop where
  start : (charAt? ls token.span.start).isSome = true
  stop : (charAt? ls token.span.stop).isSome = true
  ordered : token.span.start ≤ token.span.stop
  oneLine : token.span.isMultiLine = true → token.kind = .blockComment

namespace Lexer

variable {s t : Lexer} {ls : List (List Char)} {p : Position} {c : Char} {token : Token}

theorem Inside.charAt?_rest (h : Inside ls s) {i : Nat} (hc : s.cursor.rest[i]? = some c) :
    charAt? ls ⟨s.lineNumber, s.cursor.column + i⟩ = some c := by
  obtain ⟨front, w, hls, hline, hcolumn⟩ := h
  rw [charAt?, hls, hline, hcolumn, List.getElem?_append_right (Nat.le_refl _), Nat.sub_self,
    List.getElem?_cons_zero, Option.bind_some, List.getElem?_append_right (Nat.le_add_right _ _),
    Nat.add_sub_cancel_left, hc]

theorem Inside.isSome_charAt?_behind (h : Inside ls s) (hpos : 0 < s.cursor.column) :
    (charAt? ls ⟨s.lineNumber, s.cursor.column - 1⟩).isSome = true := by
  obtain ⟨front, w, hls, hline, hcolumn⟩ := h
  rw [charAt?, hls, hline, hcolumn, List.getElem?_append_right (Nat.le_refl _), Nat.sub_self,
    List.getElem?_cons_zero, Option.bind_some, List.getElem?_eq_getElem]
  · rfl
  · dsimp only
    rw [List.length_append]
    omega

theorem Inside.ahead_of_le (h : Inside ls s) (hp : s.place ≤ p) (hc : charAt? ls p = some c) :
    (p.line = s.lineNumber ∧ s.cursor.column ≤ p.column ∧
      s.cursor.rest[p.column - s.cursor.column]? = some c) ∨
    ∃ i row, p.line = s.lineNumber + i + 1 ∧ s.pending[i]? = some row ∧ row[p.column]? = some c := by
  obtain ⟨front, w, hls, hline, hcolumn⟩ := h
  rw [charAt?, hls] at hc
  obtain ⟨line, hget, hc⟩ := Option.bind_eq_some_iff.1 hc
  rcases hp with hlt | ⟨heq, hle⟩
  · right
    obtain ⟨i, hi⟩ := Nat.exists_eq_add_of_lt hlt
    refine ⟨i, line, hi, ?_, hc⟩
    rw [hi, show s.place.line = front.length from hline, Nat.add_assoc,
      List.getElem?_append_right (Nat.le_add_right _ _), Nat.add_sub_cancel_left,
      List.getElem?_cons_succ] at hget
    exact hget
  · left
    rw [← heq, show s.place.line = front.length from hline,
      List.getElem?_append_right (Nat.le_refl _), Nat.sub_self, List.getElem?_cons_zero] at hget
    obtain rfl := Option.some.inj hget
    change s.cursor.column ≤ p.column at hle
    rw [List.getElem?_append_right (hcolumn ▸ hle), ← hcolumn] at hc
    exact ⟨heq.symm, hle, hc⟩

theorem scan_multiLine {x : Char} (h : scan x s = .ok token t) (hm : token.span.isMultiLine = true) :
    token.kind = .blockComment := by
  have hlexeme {u : Lexer} : lexeme x u ≠ .ok token t := by
    intro hu
    simp [(read_of_lexeme hu).2.2, Span.onLine, Span.isMultiLine] at hm
  unfold scan at h
  split at h
  · split at h
    · exact kind_of_blockComment h
    · exact absurd h hlexeme
  · exact absurd h hlexeme

theorem find_multiLine (hf : s.find = .token token t) (hm : token.span.isMultiLine = true) :
    token.kind = .blockComment := by
  obtain ⟨x, c, hc, hs⟩ := scan_of_find_token hf
  exact scan_multiLine hs hm

theorem Inside.liesIn (h : Inside ls s) (hf : s.find = .token token t) : token.LiesIn ls := by
  have hpasses := find_passes hf
  refine ⟨?_, ?_, hpasses.ordered, find_multiLine hf⟩
  · obtain ⟨x, c, hc, -⟩ := scan_of_find_token hf
    obtain ⟨hdrop, -⟩ := dropWhile_of_nextChar? hc
    have hsplit : s.cursor.rest = s.cursor.rest.takeWhile isBlank ++ x :: c.rest := by
      rw [← hdrop, List.takeWhile_append_dropWhile]
    have hfirst : s.cursor.rest[(s.cursor.rest.takeWhile isBlank).length]? = some x := by
      refine (congrArg (·[(s.cursor.rest.takeWhile isBlank).length]?) hsplit).trans ?_
      rw [List.getElem?_append_right (Nat.le_refl _), Nat.sub_self, List.getElem?_cons_zero]
    rw [hpasses.start, h.charAt?_rest hfirst]
    rfl
  · rw [hpasses.stop]
    exact (h.of_reaches hpasses.reaches).isSome_charAt?_behind hpasses.pos

theorem liesIn_of_mem_ahead (h : Inside ls s) {later : Bool} {tokens : List Token}
    (hts : (ahead later s).map (·.content) = tokens.map .ok) (ht : token ∈ tokens) : token.LiesIn ls := by
  have hmem : Except.ok token ∈ tokens.map (Except.ok : Token → Except LexicalError Token) :=
    List.mem_map_of_mem ht
  rw [← hts] at hmem
  obtain ⟨i, hi, hcontent⟩ := List.mem_map.1 hmem
  obtain ⟨u, v, hu, -, hf⟩ := h.find_of_mem_ahead hi hcontent
  exact hu.liesIn hf

theorem Passes.before_iff {start : Position} (h : s.Passes start token t) :
    token.span.stop.Before p ↔ t.place ≤ p := by
  have hpos := h.pos
  rw [h.stop, Position.Before, Position.le_def]
  simp only [place]
  omega

theorem place_le_of_mem {later : Bool} {tokens : List Token}
    (hts : (ahead later s).map (·.content) = tokens.map .ok) (ht : token ∈ tokens) :
    s.place ≤ token.span.start := by
  have hmem : Except.ok token ∈ tokens.map (Except.ok : Token → Except LexicalError Token) :=
    List.mem_map_of_mem ht
  rw [← hts] at hmem
  obtain ⟨i, hi, hcontent⟩ := List.mem_map.1 hmem
  exact place_le_of_mem_ahead hi hcontent

/-- No token starts before the last one has stopped. -/
theorem pairwise_contents_ahead (later : Bool) (s : Lexer) : ((ahead later s).map (·.content)).Pairwise
    fun c d ↦ ∀ t u : Token, c = .ok t → d = .ok u → t.span.stop.Before u.span.start := by
  fun_induction ahead later s with
  | case1 later s t h u ha ih => exact ih
  | case2 => exact .nil
  | case3 => exact List.pairwise_singleton _ _
  | case4 later s t h ih => exact ih
  | case5 later s token t h ih =>
    refine .cons (fun d hd t' u ht' hu ↦ ?_) ih
    obtain rfl := Except.ok.inj ht'
    obtain ⟨i, hi, rfl⟩ := List.mem_map.1 hd
    exact (find_passes h).before_iff.2 (place_le_of_mem_ahead hi hu)

theorem pairwise_of_ahead {later : Bool} {tokens : List Token}
    (hts : (ahead later s).map (·.content) = tokens.map .ok) :
    tokens.Pairwise fun t u ↦ t.span.stop.Before u.span.start := by
  have hpairwise := pairwise_contents_ahead later s
  rw [hts, List.pairwise_map] at hpairwise
  exact hpairwise.imp fun h ↦ h _ _ rfl rfl

theorem Inside.ordered_of_mem_ahead (h : Inside ls s) {later : Bool}
    (ht : .ok token ∈ (ahead later s).map (·.content)) : token.span.start ≤ token.span.stop := by
  obtain ⟨i, hi, hcontent⟩ := List.mem_map.1 ht
  obtain ⟨u, v, -, -, hf⟩ := h.find_of_mem_ahead hi hcontent
  exact (find_passes hf).ordered

theorem isBlank_of_getElem? {row : List Char} {i : Nat} (h : row.all isBlank = true)
    (hc : row[i]? = some c) : isBlank c = true :=
  List.all_eq_true.1 h c (List.mem_of_getElem? hc)

section

variable (h : Inside ls s) (hp : s.place ≤ p) (hc : charAt? ls p = some c) (hb : isBlank c = false)
include h hp hc hb

theorem Inside.place_le_of_lineEnd {u : Lexer} (hf : s.find = .lineEnd t)
    (ha : advanceLine false t = (true, u)) : u.place ≤ p := by
  obtain ⟨skipped, hskipped, hpending, hline, hcolumn⟩ := pending_of_advanceLine hf ha
  rcases h.ahead_of_le hp hc with ⟨-, -, hget⟩ | ⟨i, line, hi, hget, hchar⟩
  · rw [isBlank_of_getElem? (all_isBlank_of_lineEnd hf) hget] at hb
    cases hb
  · rcases Nat.lt_or_ge i skipped.length with hlt | hle
    · rw [hpending, List.getElem?_append_left hlt] at hget
      rw [isBlank_of_getElem? (hskipped line (List.mem_of_getElem? hget)) hchar] at hb
      cases hb
    · rw [Position.le_def]
      simp only [place]
      omega

theorem Inside.false_of_no_line {u : Lexer} (hf : s.find = .lineEnd t)
    (ha : advanceLine false t = (false, u)) : False := by
  rcases h.ahead_of_le hp hc with ⟨-, -, hget⟩ | ⟨i, line, -, hget, hchar⟩
  · rw [isBlank_of_getElem? (all_isBlank_of_lineEnd hf) hget] at hb
    cases hb
  · rw [isBlank_of_getElem? (pending_of_no_line hf ha line (List.mem_of_getElem? hget)) hchar] at hb
    cases hb

theorem Inside.start_le (hf : s.find = .token token t) : token.span.start ≤ p := by
  rw [(find_passes hf).start, Position.le_def]
  rcases h.ahead_of_le hp hc with ⟨hline, hcolumn, hget⟩ | ⟨i, line, hi, -, -⟩
  · right
    refine ⟨hline.symm, ?_⟩
    rcases Nat.lt_or_ge (p.column - s.cursor.column) (s.cursor.rest.takeWhile isBlank).length with hlt | hle
    · have hblank : (s.cursor.rest.takeWhile isBlank).all isBlank = true := List.all_takeWhile
      rw [← List.takeWhile_append_dropWhile (p := isBlank) (l := s.cursor.rest),
        List.getElem?_append_left hlt] at hget
      rw [isBlank_of_getElem? hblank hget] at hb
      cases hb
    · dsimp only
      omega
  · left
    dsimp only
    omega

end

theorem covers_of_le (h : token.span.start ≤ p) (h' : p ≤ token.span.stop) :
    token.span.covers p = true := by
  rw [Span.covers, decide_eq_true h, decide_eq_true h']
  rfl

theorem not_covers_of_before (h : p.Before token.span.start) : token.span.covers p = false := by
  rw [Span.covers, decide_eq_false h.not_le, Bool.false_and]

theorem not_covers_of_after (h : token.span.stop.Before p) : token.span.covers p = false := by
  rw [Span.covers, decide_eq_false h.not_le, Bool.and_false]

/-- Every character ahead that is not blank belongs to exactly one of the tokens to come. -/
theorem Inside.countP_covers {later : Bool} {tokens : List Token} (h : Inside ls s)
    (hs : s.keepComments = true) (hts : (ahead later s).map (·.content) = tokens.map .ok)
    (hp : s.place ≤ p) (hc : charAt? ls p = some c) (hb : isBlank c = false) :
    tokens.countP (·.span.covers p) = 1 := by
  fun_induction ahead later s generalizing tokens with
  | case1 later s t hf u ha ih =>
    refine ih (h.of_reaches (reaches_of_advanceLine hf ha)) ?_ hts (h.place_le_of_lineEnd hp hc hb hf ha)
    rw [(sameTokens_of_advanceLine ha).keepComments, (sameTokens_of_lineEnd hf).keepComments, hs]
  | case2 later s t hf u ha => exact (h.false_of_no_line hp hc hb hf ha).elim
  | case3 later s e t h =>
    cases tokens <;> cases hts
  | case4 later s t hf =>
    rw [keepComments_of_comment hf] at hs
    cases hs
  | case5 later s token t hf ih =>
    cases tokens with
    | nil => cases hts
    | cons first more =>
      obtain ⟨hfirst, hmore⟩ := List.cons.inj hts
      obtain rfl := Except.ok.inj hfirst
      have ht : t.keepComments = true := (sameTokens_of_find (.inr ⟨token, hf⟩)).keepComments.trans hs
      have hpasses := find_passes hf
      rw [List.countP_cons]
      -- The first token holds the character if it does not end in front of it; all later tokens start behind
      -- its end.
      by_cases hstop : p ≤ token.span.stop
      · have hothers : more.countP (·.span.covers p) = 0 := by
          rw [List.countP_eq_zero]
          intro u hu hcovers
          have hbefore := hpasses.before_iff.2 (place_le_of_mem hmore hu)
          rw [not_covers_of_before (hbefore.of_le hstop)] at hcovers
          cases hcovers
        rw [hothers, if_pos (covers_of_le (h.start_le hp hc hb hf) hstop)]
      · have hafter : token.span.stop.Before p := Position.before_of_not_le hstop
        rw [ih (h.of_reaches hpasses.reaches) ht hmore (hpasses.before_iff.1 hafter),
          not_covers_of_after hafter]
        rfl

end Lexer

/-- The tokens of a text, comments included, stand one after the other. Each lies on the lines of the text,
on a single one unless it is a block comment, and each character that is not blank is part of exactly one. -/
theorem tokens_cover_text {source : String} {tokens : Array Token}
    (h : (Lexer.ofSource source true).readAll = .ok tokens) :
    tokens.toList.Pairwise (fun t u ↦ t.span.stop.Before u.span.start) ∧
    (∀ t ∈ tokens, t.LiesIn (lines source.toList)) ∧
    ∀ p c, (p, c) ∈ placed ⟨1, 0⟩ source.toList →
      (isBlank c = false → tokens.toList.countP (·.span.covers p) = 1) ∧
      ((∀ t ∈ tokens, t.span.covers p = false) → isBlank c = true) := by
  have hcontents := Lexer.readAll_eq_ok.1 h
  rw [Lexer.upcoming_of_not_held rfl] at hcontents
  have hinside := Lexer.inside_ofText source.toList true
  have honce : ∀ p c, (p, c) ∈ placed ⟨1, 0⟩ source.toList → isBlank c = false →
      tokens.toList.countP (·.span.covers p) = 1 := by
    intro p c hp hb
    obtain ⟨hc, hline⟩ := charAt?_of_placed hp hb
    exact hinside.countP_covers rfl hcontents (.inl hline) hc hb
  refine ⟨Lexer.pairwise_of_ahead hcontents, fun t ht ↦ ?_, fun p c hp ↦ ⟨honce p c hp, fun hnone ↦ ?_⟩⟩
  · exact Lexer.liesIn_of_mem_ahead hinside hcontents (Array.mem_toList_iff.2 ht)
  · cases hb : isBlank c with
    | true => rfl
    | false =>
      obtain ⟨t, ht, hcovers⟩ := List.countP_pos_iff.1 (honce p c hp hb ▸ Nat.one_pos)
      rw [hnone t (Array.mem_toList_iff.1 ht)] at hcovers
      cases hcovers

theorem tokens_cover_text_comments : ∃ (source : String) (tokens : Array Token),
    (Lexer.ofSource source true).readAll = .ok tokens ∧
    tokens = #[⟨.identifier "é", .onLine 1 0 0⟩, ⟨.blockComment, ⟨⟨1, 2⟩, ⟨3, 3⟩⟩⟩,
      ⟨.compoundAssignment .exponent, .onLine 3 4 6⟩, ⟨.lineComment, .onLine 3 8 11⟩] ∧
    tokens.toList.Pairwise (fun t u ↦ t.span.stop.Before u.span.start) ∧
    (∀ t ∈ tokens, t.LiesIn (lines source.toList)) ∧
    ∀ p c, (p, c) ∈ placed ⟨1, 0⟩ source.toList →
      (isBlank c = false → tokens.toList.countP (·.span.covers p) = 1) ∧
      ((∀ t ∈ tokens, t.span.covers p = false) → isBlank c = true) := by
  have hrun : (Lexer.ofSource "é /* x\r\n\n\t**/**= # y\r\r\n \n" true).readAll =
      .ok #[⟨.identifier "é", .onLine 1 0 0⟩, ⟨.blockComment, ⟨⟨1, 2⟩, ⟨3, 3⟩⟩⟩,
        ⟨.compoundAssignment .exponent, .onLine 3 4 6⟩, ⟨.lineComment, .onLine 3 8 11⟩] := by
    decide +kernel
  exact ⟨_, _, hrun, rfl, tokens_cover_text hrun⟩

end Linewise
