import Linewise.Proofs.Parser.ProgramCongruence
import Linewise.Proofs.StatementLines

namespace Linewise

open Upcoming

variable {flags flags' : List Bool} {xs ys xs' ys' : List Upcoming}

/-- `Reveals flags xs ys`: the same tokens lie ahead in both, one for each flag. In `ys` a line ends wherever it
does in `xs`, and nowhere else but in front of what has its flag set. -/
inductive Reveals : List Bool → List Upcoming → List Upcoming → Prop
  | nil : Reveals [] [] []
  | cons {may later later' : Bool} {token : Token} {flags : List Bool} {xs ys : List Upcoming} :
      (later' = true ∧ may = true ∨ later' = later) → Reveals flags xs ys →
      Reveals (may :: flags) (⟨later, .ok token⟩ :: xs) (⟨later', .ok token⟩ :: ys)

namespace Reveals

theorem drop (h : Reveals flags xs ys) (n : Nat) : Reveals (flags.drop n) (xs.drop n) (ys.drop n) := by
  induction h generalizing n with
  | nil =>
    rw [List.drop_nil, List.drop_nil]
    exact .nil
  | cons hlater h ih =>
    cases n with
    | zero => exact .cons hlater h
    | succ n => exact ih n

theorem take (h : Reveals flags xs ys) (n : Nat) : Reveals (flags.take n) (xs.take n) (ys.take n) := by
  induction h generalizing n with
  | nil =>
    rw [List.take_nil, List.take_nil]
    exact .nil
  | cons hlater h ih =>
    cases n with
    | zero => exact .nil
    | succ n => exact .cons hlater (ih n)

theorem relaid (h : Reveals flags xs ys) : Relaid flags xs ys := by
  induction h with
  | nil => exact .nil
  | cons hlater _ ih =>
    refine .cons (fun hmay ↦ ?_) ih
    rcases hlater with ⟨-, hmay'⟩ | hsame
    · rw [hmay] at hmay'
      cases hmay'
    · exact hsame

theorem exists_tokens (h : Reveals flags xs ys) : ∃ tokens : List Token, ys.map (·.content) = tokens.map .ok := by
  induction h with
  | nil => exact ⟨[], rfl⟩
  | @cons _ _ _ token _ _ _ _ _ ih =>
    obtain ⟨tokens, htokens⟩ := ih
    exact ⟨token :: tokens, congrArg _ htokens⟩

theorem exists_fixed (h : Reveals flags xs ys) (hy : ¬ EndsLine ys) : ∃ more, Fixed more ∧ Reveals more xs ys := by
  cases h with
  | nil => exact absurd nofun hy
  | @cons _ later later' _ flags _ _ hlater h =>
    have hkept : later' ≠ true := by
      rintro rfl
      refine hy fun i hi ↦ ?_
      cases hi
      rfl
    exact ⟨false :: flags, .cons _, .cons (.inr (hlater.resolve_left fun hl ↦ hkept hl.1)) h⟩

theorem append {more : List Bool} {zs zs' : List Upcoming} (h : Reveals flags xs ys) (h' : Reveals more zs zs') :
    Reveals (flags ++ more) (xs ++ zs) (ys ++ zs') := by
  induction h with
  | nil => exact h'
  | cons hlater _ ih => exact .cons hlater ih

end Reveals

/-- A construct takes up the tokens that it stands for, and leaves what comes after them. -/
theorem ReadsConstruct.eq_drop {c : Construct} (h : ReadsConstruct xs c ys) : ys = xs.drop c.pieces.length := by
  obtain ⟨taken, htaken, hflags⟩ := h.breaksWithin
  have hlength : taken.length = c.pieces.length := hflags.length_eq.symm.trans c.length_mayBreak
  have hdrop : (looked true xs).drop c.pieces.length = ys := by
    rw [htaken, ← hlength, List.drop_left]
  cases hp : c.pieces with
  | nil => exact absurd hp c.pieces_ne_nil
  | cons p ps =>
    rw [← hdrop, hp]
    cases xs <;> rfl

/-- The flags of a construct, and in front of it a line may end, too. -/
def Construct.mayReveal (c : Construct) : List Bool := true :: c.mayBreak.tail

theorem Construct.length_mayReveal (c : Construct) : c.mayReveal.length = c.pieces.length := by
  rw [mayReveal, List.length_cons, List.length_tail, c.length_mayBreak]
  exact Nat.succ_pred_eq_of_pos (List.length_pos_iff.2 c.pieces_ne_nil)

theorem ReadsConstruct.mayBreak_eq {c : Construct} (h : ReadsConstruct xs c ys) :
    c.mayBreak = false :: c.mayBreak.tail := by
  have hfixed := h.fixed
  have hlength := c.length_mayReveal
  cases hm : c.mayBreak with
  | nil =>
    rw [← c.length_mayBreak, hm] at hlength
    cases hlength
  | cons may flags =>
    rw [Fixed, hm] at hfixed
    cases may with
    | false => rfl
    | true => exact absurd rfl hfixed

/-- A construct is read again where further ends of lines show between its delimiters, or around it. -/
theorem ReadsConstruct.reveal {c : Construct} (h : ReadsConstruct xs c ys)
    (hr : Reveals (c.mayReveal ++ flags) xs xs') : ReadsConstruct xs' c (xs'.drop c.pieces.length) := by
  -- in front of the construct lines may end as they like, so let them end as in the other text
  obtain ⟨xs, h, hr⟩ : ∃ zs, ReadsConstruct zs c ys ∧ Reveals (c.mayBreak ++ flags) zs xs' := by
    rw [h.mayBreak_eq]
    cases hr with
    | @cons _ _ later' token _ zs _ _ hr =>
      exact ⟨⟨later', .ok token⟩ :: zs, h.of_looked (by simp [looked]), .cons (.inr rfl) hr⟩
  have hfront := hr.take c.pieces.length
  have hback := hr.drop c.pieces.length
  rw [← c.length_mayBreak, List.take_left, c.length_mayBreak] at hfront
  rw [← c.length_mayBreak, List.drop_left, c.length_mayBreak] at hback
  have hjoin (zs : List Upcoming) := List.take_append_drop c.pieces.length zs
  by_cases hline : EndsLine (xs'.drop c.pieces.length)
  · obtain ⟨ts, hcovers, -, halone⟩ := h.exists_alone
    rw [← hcovers.length_eq] at halone
    rw [← List.append_nil c.mayBreak] at hfront
    obtain ⟨_, hreads, hnil⟩ := halone.relaid hfront.relaid .nil
    cases hnil
    obtain ⟨tokens, htokens⟩ := hfront.exists_tokens
    obtain ⟨ws, hreads, -⟩ := hreads.extend (.append htokens) hline
    rw [hjoin] at hreads
    rwa [hreads.eq_drop] at hreads
  · obtain ⟨more, hfixed, hback⟩ := hback.exists_fixed hline
    have hall := hfront.append hback
    rw [hjoin, hjoin] at hall
    obtain ⟨ys', hreads, -⟩ := h.relaid hall.relaid hfixed
    rwa [hreads.eq_drop] at hreads

/-- A program is read again where further ends of lines show between the delimiters of its constructs, or between
two constructs. -/
theorem ReadsProgram.reveal {cs : List Construct} (h : ReadsProgram xs cs)
    (hr : Reveals (cs.flatMap (·.mayReveal)) xs xs') : ReadsProgram xs' cs := by
  induction h generalizing xs' with
  | done =>
    cases hr
    exact .done
  | @construct c cs xs ys hc _ ih =>
    rw [List.flatMap_cons] at hr
    have hmore := hr.drop c.pieces.length
    rw [← c.length_mayReveal, List.drop_left, c.length_mayReveal, ← hc.eq_drop] at hmore
    exact .construct (hc.reveal hr) (ih hmore)

theorem reveals_marked {marks marks' : List Bool} {tokens : List Token} (hf : flags.length = tokens.length)
    (hm : marks.length = tokens.length) (hle : List.Forall₂ (fun a b ↦ a = true → b = true) marks marks')
    (h : ∀ j : Nat, flags[j]? = some false → marks'[j]? = marks[j]?) :
    Reveals flags (marked marks tokens) (marked marks' tokens) := by
  induction hle generalizing flags tokens with
  | nil =>
    obtain rfl := List.length_eq_zero_iff.1 hm.symm
    obtain rfl := List.length_eq_zero_iff.1 hf
    exact .nil
  | @cons mark mark' marks marks' hmark _ ih =>
    obtain ⟨t, ts, rfl⟩ := List.exists_cons_of_length_eq_add_one hm.symm
    obtain ⟨may, flags, rfl⟩ := List.exists_cons_of_length_eq_add_one hf
    refine .cons ?_ (ih (Nat.succ.inj hf) (Nat.succ.inj hm) fun j ↦ h (j + 1))
    cases may with
    | false => exact .inr (Option.some.inj (h 0 rfl))
    | true =>
      cases mark with
      | true => exact .inr (hmark rfl)
      | false => cases mark' <;> simp

theorem exists_inside_of_mayReveal {cs : List Construct} {j : Nat}
    (h : (cs.flatMap (·.mayReveal))[j]? = some false) : ∃ before c after i, cs = before ++ c :: after ∧
      j = (before.flatMap (·.pieces)).length + (i + 1) ∧ c.mayBreak[i + 1]? = some false := by
  induction cs generalizing j with
  | nil => cases h
  | cons c cs ih =>
    rw [List.flatMap_cons] at h
    by_cases hj : j < c.mayReveal.length
    · rw [List.getElem?_append_left hj] at h
      cases j with
      | zero => cases h
      | succ i =>
        refine ⟨[], c, cs, i, rfl, (Nat.zero_add _).symm, ?_⟩
        rwa [Construct.mayReveal, List.getElem?_cons_succ, List.getElem?_tail] at h
    · have hle := Nat.le_of_not_lt hj
      rw [List.getElem?_append_right hle] at h
      obtain ⟨before, d, after, i, rfl, hi, hflag⟩ := ih h
      refine ⟨c :: before, d, after, i, rfl, ?_, hflag⟩
      rw [List.flatMap_cons, List.length_append, ← c.length_mayReveal]
      omega

/-- Each construct goes past the end of a line only between two of its delimiters. -/
def Program.BreaksInside (p : Program) (tokens : List Token) : Prop :=
  ∀ before c after pre ts post, p.constructs = before ++ c :: after → tokens = pre ++ (ts ++ post) →
    Covers (before.flatMap (·.pieces)) pre → Covers c.pieces ts →
      ∀ (i : Nat) (t u : Token), ts[i]? = some t → ts[i + 1]? = some u → ¬ c.Encloses t u → t.SameLine u

namespace CommentFree

variable {source : String} {tokens : Array Token}

theorem commentsOnLine (h : CommentFree source tokens) : CommentsOnLine source := by
  intro all hall t ht hk
  obtain rfl := Except.ok.inj (h.1.symm.trans hall)
  have hcomment := h.2 t ht
  rw [hk] at hcomment
  cases hcomment

/-- The text with its comments blanked out has none. -/
theorem blankComments {kept : Array Token} (h : (Lexer.ofSource source true).readAll = .ok kept) :
    CommentFree (blankComments source) (withoutComments kept.toList).toArray := by
  refine ⟨readAll_blankComments h, fun t ht ↦ ?_⟩
  have hkept := (List.mem_filter.1 (List.mem_toArray.1 ht)).2
  simpa using hkept

end CommentFree

section

variable {source : String} {tokens : List Token} {program : Program}

/-- Where no comment hides the end of a line, every construct stays on its line, but for its delimiters. -/
theorem ShowsLineEnds.breaksInside (hshows : ShowsLineEnds source) (htokens : tokenize source = .ok tokens.toArray)
    (h : parse source = .ok program) : program.BreaksInside tokens := by
  intro before c after pre ts post hp hsplit hbefore hcovers i t u ht hu hnot
  obtain ⟨pre', ts', post', _, _, htokenize, hbefore', hcovers', -, hlooked, hreads, -⟩ := exists_split_of_parse h hp
  have hall : pre' ++ (ts' ++ post') = pre ++ (ts ++ post) := by
    rw [← hsplit]
    exact congrArg Array.toList (Except.ok.inj (htokenize.symm.trans htokens))
  obtain ⟨rfl, hrest⟩ := List.append_inj hall (hbefore'.length_eq.symm.trans hbefore.length_eq)
  obtain ⟨rfl, rfl⟩ := List.append_inj hrest (hcovers'.length_eq.symm.trans hcovers.length_eq)
  exact sameLine_of_not_encloses htokenize hcovers hlooked hreads hshows ht hu hnot

theorem Program.BreaksInside.getElem?_lineBreaks {kept : List Token} (hinside : program.BreaksInside kept)
    (hkept : tokenize source = .ok kept.toArray) (h : parse source = .ok program) {j : Nat}
    (hj : (program.constructs.flatMap (·.mayReveal))[j]? = some false) : (lineBreaks 0 kept)[j]? = some false := by
  obtain ⟨before, c, after, i, hp, rfl, hflag⟩ := exists_inside_of_mayReveal hj
  obtain ⟨pre, ts, post, -, -, htokenize, hbefore, hcovers, -⟩ := exists_split_of_parse h hp
  obtain rfl := congrArg Array.toList (Except.ok.inj (hkept.symm.trans htokenize))
  have hlt : i + 1 < ts.length := by
    have hlt := (List.getElem?_eq_some_iff.1 hflag).1
    rwa [c.length_mayBreak, hcovers.length_eq] at hlt
  have hu := List.getElem?_eq_getElem hlt
  have ht := List.getElem?_eq_getElem (Nat.lt_of_succ_lt hlt)
  have hnot : ¬ c.Encloses ts[i] ts[i + 1] := by
    rintro ⟨d, hd, hopen, hclose⟩
    have hsuccessive := (successive_of_tokenize htokenize).right.left
    rw [(c.delimits d hd).getElem?_of_between hcovers hsuccessive ht hu hopen hclose] at hflag
    cases hflag
  have hsame : ts[i].SameLine ts[i + 1] := hinside before c after pre ts post hp rfl hbefore hcovers i _ _ ht hu hnot
  have hbehind {k : Nat} (hk : k < ts.length) : (pre ++ (ts ++ post))[pre.length + k]? = some ts[k] := by
    rw [List.getElem?_append_right (Nat.le_add_right _ _), Nat.add_sub_cancel_left, List.getElem?_append_left hk,
      List.getElem?_eq_getElem hk]
  rw [hbefore.length_eq]
  refine (Linewise.getElem?_lineBreaks (hbehind (Nat.lt_of_succ_lt hlt)) (hbehind hlt)).trans ?_
  exact congrArg some (decide_eq_false (Nat.not_lt_of_le (Nat.le_of_eq hsame.symm)))

/-- Where each construct stays on its line but for its delimiters, only ends of lines between them are hidden. -/
theorem Program.BreaksInside.reveals {kept : Array Token} (hinside : program.BreaksInside (withoutComments kept.toList))
    (hkept : (Lexer.ofSource source true).readAll = .ok kept)
    (hall : tokenize source = .ok (withoutComments kept.toList).toArray) (h : parse source = .ok program) :
    Reveals (program.constructs.flatMap (·.mayReveal)) (Parser.ofSource source).upcoming
      (Parser.ofSource (blankComments source)).upcoming := by
  have hupcoming : (Parser.ofSource source).upcoming = _ := Lexer.upcoming_of_readAll hkept
  have hblanked : (Parser.ofSource (blankComments source)).upcoming = _ := upcoming_blankComments hkept
  obtain ⟨-, horder⟩ := Lexer.ahead_of_readAll hkept
  have hle : List.Forall₂ (fun a b ↦ a = true → b = true) (openBreaks false 0 kept.toList)
      (lineBreaks 0 (withoutComments kept.toList)) := openBreaks_le horder (Nat.le_refl 0) nofun
  have hlength : (program.constructs.flatMap (·.mayReveal)).length = (withoutComments kept.toList).length := by
    rw [← (covers_of_parse h hall).length_eq, Program.pieces, List.length_flatMap, List.length_flatMap]
    simp only [Construct.length_mayReveal]
  rw [hupcoming, hblanked]
  refine reveals_marked hlength (hle.length_eq.trans (length_lineBreaks 0 _)) hle fun j hj ↦ ?_
  have hbreak := hinside.getElem?_lineBreaks hall h hj
  obtain ⟨later, hlater, hseen⟩ := exists_getElem?_of_forall₂ hle hbreak
  rw [hbreak, hlater]
  exact congrArg some (Bool.eq_false_iff.2 fun hl ↦ Bool.false_ne_true (hseen hl)).symm

end

/-- Comments do not matter to the parsing of a text but by the ends of lines that they hide. If they hide none, the
text gives the same program or the same error when its comments are blanked out. An accepted text gives the same
program if and only if none of its constructs goes past the end of a line but between its delimiters. -/
theorem parse_blankComments {source : String} {tokens : Array Token} (h : tokenize source = .ok tokens) :
    (ShowsLineEnds source → parse (blankComments source) = parse source) ∧
    ∀ program, parse source = .ok program →
      (parse (blankComments source) = .ok program ↔ program.BreaksInside tokens.toList) := by
  obtain ⟨kept, hkept, hall⟩ := exists_readAll_of_tokenize h
  refine ⟨fun hshows ↦ parse_congr ?_, fun program hparse ↦ ⟨fun hblank ↦ ?_, fun hinside ↦ ?_⟩⟩
  · rw [upcoming_blankComments hkept, ← hshows kept hkept]
    exact (Lexer.upcoming_of_readAll hkept).symm
  · rw [← hall]
    have hfree := CommentFree.blankComments hkept
    exact hfree.commentsOnLine.showsLineEnds.breaksInside hfree.tokenize_eq hblank
  · rw [← hall] at hinside
    have hkinds : tokenize source = .ok (withoutComments kept.toList).toArray := by rw [h, hall]
    obtain ⟨hreads, hneed⟩ := readsProgram_of_parse hparse
    exact parse_of_readsProgram (hreads.reveal (hinside.reveals hkept hkinds hparse)) hneed

example : (parse "a /*\n*/ - b").toOption.map (·.constructs.length) = some 1 ∧
    (parse (blankComments "a /*\n*/ - b")).toOption.map (·.constructs.length) = some 2 := by decide +kernel

end Linewise
