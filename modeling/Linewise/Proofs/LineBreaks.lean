import Mathlib.Data.List.Forall2
import Linewise.Proofs.Places

namespace Linewise

/-- Tokens that lie ahead, each with a mark that the end of a line stands in front of it. -/
def marked (marks : List Bool) (tokens : List Token) : List Upcoming :=
  List.zipWith (fun later token ↦ ⟨later, .ok token⟩) marks tokens

/-- For each token, whether it begins on a later line than the one before it ends. The number is that
of the line on which the reading begins. -/
def lineBreaks : Nat → List Token → List Bool
  | _, [] => []
  | line, t :: ts => decide (line < t.span.start.line) :: lineBreaks t.span.stop.line ts

def withoutComments (tokens : List Token) : List Token := tokens.filter fun t ↦ !t.kind.isComment

/-- For each token that is no comment, whether the end of a line outside comments stands between it
and the one before it. The first argument says whether one has been passed already. -/
def openBreaks : Bool → Nat → List Token → List Bool
  | _, _, [] => []
  | passed, line, t :: ts =>
    if t.kind.isComment then
      openBreaks (passed || decide (line < t.span.start.line)) t.span.stop.line ts
    else (passed || decide (line < t.span.start.line)) :: openBreaks false t.span.stop.line ts

theorem length_lineBreaks (line : Nat) (tokens : List Token) :
    (lineBreaks line tokens).length = tokens.length := by
  induction tokens generalizing line with
  | nil => rfl
  | cons t ts ih => rw [lineBreaks, List.length_cons, List.length_cons, ih]

theorem map_content_marked {marks : List Bool} {tokens : List Token}
    (h : marks.length = tokens.length) : (marked marks tokens).map (·.content) = tokens.map .ok := by
  induction marks generalizing tokens with
  | nil =>
    cases tokens with
    | nil => rfl
    | cons t ts => cases h
  | cons later marks ih =>
    cases tokens with
    | nil => cases h
    | cons t ts => exact congrArg (.ok t :: ·) (ih (Nat.succ.inj h))

def InOrder : Nat → List Token → Prop
  | _, [] => True
  | line, t :: ts => line ≤ t.span.start.line ∧ t.span.start.line ≤ t.span.stop.line ∧
      InOrder t.span.stop.line ts

/-- Where a line ends outside comments, a token begins on a later line. -/
theorem openBreaks_le {passed : Bool} {line line' : Nat} {tokens : List Token}
    (h : InOrder line tokens) (hline : line' ≤ line) (hpassed : passed = true → line' < line) :
    List.Forall₂ (fun a b ↦ a = true → b = true) (openBreaks passed line tokens)
      (lineBreaks line' (withoutComments tokens)) := by
  induction tokens generalizing passed line line' with
  | nil => exact .nil
  | cons t ts ih =>
    obtain ⟨hstart, hstop, hmore⟩ := h
    have hlt (hp : (passed || decide (line < t.span.start.line)) = true) :
        line' < t.span.start.line := by
      rw [Bool.or_eq_true, decide_eq_true_eq] at hp
      rcases hp with hp | hp
      · exact Nat.lt_of_lt_of_le (hpassed hp) hstart
      · exact Nat.lt_of_le_of_lt hline hp
    rw [openBreaks, withoutComments, List.filter_cons]
    cases t.kind.isComment with
    | true => exact ih hmore (by omega) fun hp ↦ Nat.lt_of_lt_of_le (hlt hp) hstop
    | false =>
      exact .cons (fun hp ↦ decide_eq_true (hlt hp))
        (ih hmore (Nat.le_refl _) fun hp ↦ (by cases hp))

/-- Between tokens that are no comments, every end of a line is seen. -/
theorem openBreaks_withoutComments (line : Nat) (tokens : List Token) :
    openBreaks false line (withoutComments tokens) = lineBreaks line (withoutComments tokens) := by
  induction tokens generalizing line with
  | nil => rfl
  | cons t ts ih =>
    rw [withoutComments, List.filter_cons]
    cases hk : t.kind.isComment with
    | true => exact ih line
    | false =>
      simp only [Bool.not_false, if_true, openBreaks, lineBreaks, hk, Bool.false_eq_true, if_false,
        Bool.false_or]
      exact congrArg _ (ih _)

theorem withoutComments_withoutComments (tokens : List Token) :
    withoutComments (withoutComments tokens) = withoutComments tokens := by
  rw [withoutComments, withoutComments, List.filter_filter]
  simp only [Bool.and_self]

namespace Lexer

/-- The marks on what lies ahead say where lines end, and so do the spans of the tokens. -/
theorem ahead_eq_marked {s : Lexer} {later : Bool} {line : Nat} {tokens : List Token}
    (hs : s.keepComments = true) (hline : line ≤ s.lineNumber)
    (hlater : later = decide (line < s.lineNumber))
    (h : (ahead later s).map (·.content) = tokens.map .ok) :
    ahead later s = marked (lineBreaks line tokens) tokens ∧ InOrder line tokens := by
  fun_induction ahead later s generalizing line tokens with
  | case1 later s t hf u ha ih =>
    have hu := (sameTokens_of_advanceLine ha).keepComments.trans (sameTokens_of_lineEnd hf).keepComments
    obtain ⟨skipped, -, -, hnumber, -⟩ := pending_of_advanceLine hf ha
    have hlt : line < u.lineNumber := by omega
    exact ih (hu.trans hs) (Nat.le_of_lt hlt) (decide_eq_true hlt).symm h
  | case2 =>
    obtain rfl := List.map_eq_nil_iff.1 h.symm
    exact ⟨rfl, trivial⟩
  | case3 later s e t hf =>
    cases tokens with
    | nil => cases h
    | cons t ts => cases (List.cons.inj h).1
  | case4 later s t hf =>
    rw [keepComments_of_comment hf] at hs
    cases hs
  | case5 later s token t hf ih =>
    have hpasses := find_passes hf
    have ht := (sameTokens_of_find (.inr ⟨token, hf⟩)).keepComments.trans hs
    cases tokens with
    | nil => cases h
    | cons token' ts =>
      obtain ⟨htoken, hmore⟩ := List.cons.inj h
      cases htoken
      obtain ⟨hmarked, hordered⟩ :=
        ih ht (Nat.le_refl t.lineNumber) (decide_eq_false (Nat.lt_irrefl _)).symm hmore
      have hle := hpasses.ordered
      rw [Position.le_def] at hle
      refine ⟨?_, ?_⟩
      · rw [hmarked, lineBreaks, hpasses.start, hpasses.stop, hlater]
        rfl
      · rw [InOrder, hpasses.stop]
        rw [hpasses.start, hpasses.stop] at hle
        rw [hpasses.start]
        refine ⟨hline, ?_, hordered⟩
        simp only at hle ⊢
        omega

/-- What a reader that passes over comments finds, given what one that keeps them finds. The first
argument says whether the end of a line has been passed since the last token. -/
def skipComments : Bool → List Upcoming → List Upcoming
  | _, [] => []
  | passed, ⟨later, .error e⟩ :: xs => ⟨passed || later, .error e⟩ :: skipComments false xs
  | passed, ⟨later, .ok t⟩ :: xs =>
    if t.kind.isComment then skipComments (passed || later) xs
    else ⟨passed || later, .ok t⟩ :: skipComments false xs

theorem skipComments_marked (passed : Bool) (line : Nat) (tokens : List Token) :
    skipComments passed (marked (lineBreaks line tokens) tokens) =
      marked (openBreaks passed line tokens) (withoutComments tokens) := by
  induction tokens generalizing passed line with
  | nil => rfl
  | cons t ts ih =>
    rw [lineBreaks, marked, List.zipWith_cons_cons, ← marked, skipComments, openBreaks,
      withoutComments, List.filter_cons]
    cases t.kind.isComment with
    | true => exact ih _ _
    | false => exact congrArg (_ :: ·) (ih _ _)

theorem exists_tokens_of_skipComments {passed : Bool} {xs : List Upcoming} {tokens : List Token}
    (h : (skipComments passed xs).map (·.content) = tokens.map .ok) :
    ∃ all, xs.map (·.content) = all.map .ok ∧ withoutComments all = tokens := by
  fun_induction skipComments passed xs generalizing tokens with
  | case1 => exact ⟨[], rfl, (List.map_eq_nil_iff.1 h.symm).symm⟩
  | case2 passed later e xs ih =>
    cases tokens with
    | nil => cases h
    | cons t tokens => cases (List.cons.inj h).1
  | case3 passed later t xs hk ih =>
    obtain ⟨all, hall, rfl⟩ := ih h
    refine ⟨t :: all, by rw [List.map_cons, List.map_cons, hall], ?_⟩
    rw [withoutComments, List.filter_cons, hk]
    rfl
  | case4 passed later t xs hk ih =>
    cases tokens with
    | nil => cases h
    | cons t' tokens =>
      obtain ⟨htoken, hmore⟩ := List.cons.inj h
      cases htoken
      obtain ⟨all, hall, rfl⟩ := ih hmore
      refine ⟨t :: all, by rw [List.map_cons, List.map_cons, hall], ?_⟩
      rw [withoutComments, List.filter_cons, Bool.eq_false_iff.2 hk]
      rfl

/-- Comments that are not kept are passed over, but the ends of lines in front of them count. -/
theorem ahead_ignoringComments (tokens : Array Token) (held : Option Token) {s : Lexer}
    (hs : s.keepComments = true) (passed later : Bool) :
    ahead (passed || later) (s.recast tokens held false) = skipComments passed (ahead later s) := by
  fun_induction ahead later s generalizing passed with
  | case1 later s t h u ha ih =>
    have hu := (sameTokens_of_advanceLine ha).keepComments.trans (sameTokens_of_lineEnd h).keepComments
    have hahead := ih (hu.trans hs) passed
    rw [Bool.or_true] at hahead
    rw [ahead_eq, find_ignoringComments _ _ hs, h, ← hahead]
    simp only [Finding.map, Finding.ignoringComments, advanceLine_recast, ha]
  | case2 later s t h u ha =>
    rw [ahead_eq, find_ignoringComments _ _ hs, h]
    simp only [Finding.map, Finding.ignoringComments, advanceLine_recast, ha, skipComments]
  | case3 later s e t h =>
    rw [ahead_eq, find_ignoringComments _ _ hs, h]
    rfl
  | case4 later s t h =>
    rw [keepComments_of_comment h] at hs
    cases hs
  | case5 later s token t h ih =>
    have ht := (sameTokens_of_find (.inr ⟨token, h⟩)).keepComments.trans hs
    rw [ahead_eq, find_ignoringComments _ _ hs, h, skipComments]
    cases hk : token.kind.isComment with
    | true =>
      simp only [Finding.map, Finding.ignoringComments, hk, if_true]
      have hahead := ih ht (passed || later)
      rwa [Bool.or_false] at hahead
    | false =>
      simp only [Finding.map, Finding.ignoringComments, hk, Bool.false_eq_true, if_false]
      rw [← ih ht false, Bool.or_false]

/-- The tokens of a text stand in order, with the ends of lines between them where their spans say. -/
theorem ahead_of_readAll {text : List Char} {tokens : Array Token}
    (h : (ofText text true).readAll = .ok tokens) :
    (ofText text true).ahead false = marked (lineBreaks 0 tokens.toList) tokens.toList ∧
      InOrder 0 tokens.toList :=
  @ahead_eq_marked _ false 0 _ rfl (Nat.zero_le _) rfl (readAll_eq_ok.1 h)

/-- What a reader that passes over comments finds in a text, given all that is in it. -/
theorem upcoming_of_readAll {text : List Char} {tokens : Array Token}
    (h : (ofText text true).readAll = .ok tokens) : (ofText text false).upcoming =
      marked (openBreaks false 0 tokens.toList) (withoutComments tokens.toList) := by
  obtain ⟨hkept, -⟩ := ahead_of_readAll h
  have hskip := ahead_ignoringComments #[] none (s := ofText text true) rfl false false
  rw [hkept, skipComments_marked] at hskip
  exact hskip

end Lexer

/-- The comments of a text are sound when its other tokens are. -/
theorem exists_readAll_of_tokenize {source : String} {tokens : Array Token}
    (h : tokenize source = .ok tokens) : ∃ all,
      (Lexer.ofSource source true).readAll = .ok all ∧ withoutComments all.toList = tokens.toList := by
  have hskip := Lexer.ahead_ignoringComments #[] none (s := Lexer.ofSource source true) rfl false false
  have hcontents : ((Lexer.ofSource source false).ahead false).map (·.content) = tokens.toList.map .ok :=
    tokenize_eq_ok.1 h
  obtain ⟨all, hall, hall'⟩ := Lexer.exists_tokens_of_skipComments (hskip ▸ hcontents)
  exact ⟨all.toArray, Lexer.readAll_eq_ok.2 hall, hall'⟩

end Linewise
