import Linewise.Proofs.Coverage
import Linewise.Proofs.Rejection

namespace Linewise

open Text

structure Span.LiesIn (ls : List (List Char)) (s : Span) : Prop where
  start : (charAt? ls s.start).isSome = true
  stop : (charAt? ls s.stop).isSome = true
  ordered : s.start ≤ s.stop

theorem Token.LiesIn.span {ls : List (List Char)} {t : Token} (h : t.LiesIn ls) : t.span.LiesIn ls :=
  ⟨h.start, h.stop, h.ordered⟩

namespace Position

theorem min_eq (p q : Position) : min p q = p ∨ min p q = q := by
  simp only [min]
  split
  · exact .inl rfl
  · exact .inr rfl

theorem max_eq (p q : Position) : max p q = p ∨ max p q = q := by
  simp only [max]
  split
  · exact .inr rfl
  · exact .inl rfl

theorem min_le_left (p q : Position) : min p q ≤ p := by
  simp only [min]
  split
  · exact le_refl p
  · next h => exact (le_total p q).resolve_left h

theorem le_max_left (p q : Position) : p ≤ max p q := by
  simp only [max]
  split
  · assumption
  · exact le_refl p

end Position

theorem Span.LiesIn.merge {ls : List (List Char)} {s t : Span} (hs : s.LiesIn ls) (ht : t.LiesIn ls) :
    (s.merge t).LiesIn ls := by
  refine ⟨?_, ?_, ?_⟩
  · rcases Position.min_eq s.start t.start with h | h <;> rw [Span.merge, h]
    · exact hs.start
    · exact ht.start
  · rcases Position.max_eq s.stop t.stop with h | h <;> rw [Span.merge, h]
    · exact hs.stop
    · exact ht.stop
  · exact Position.le_trans (Position.min_le_left s.start t.start)
      (Position.le_trans hs.ordered (Position.le_max_left s.stop t.stop))

namespace Lexeme

theorem quoted_le (quote : Char) (rest : List Char) : (quoted quote rest).2 ≤ rest.length := by
  fun_induction quoted quote rest <;> simp_all

theorem numeral_error_le {first : Char} {rest : List Char} {cause : LexicalCause} {n : Nat}
    (h : numeral first rest = (.error cause, n)) : 0 < n ∧ n ≤ rest.length := by
  obtain ⟨post, hpost, -, -⟩ := numeralTail_append rest
  unfold numeral at h
  have hlength := congrArg List.length hpost
  rw [List.length_append] at hlength
  dsimp only at h
  split at h
  · cases h
  · next x more hdrop =>
    have hcons := congrArg List.length hdrop
    rw [List.length_drop, List.length_cons] at hcons
    have hn : n = (numeralTail rest).1.length + 1 := by
      split at h
      · cases h
        rfl
      · split at h <;> cases h
        rfl
    omega

variable {x : Char} {c : Cursor} {cause : LexicalCause}

structure Within (l : Lexeme) (c : Cursor) : Prop where
  ordered : l.first ≤ l.last
  last : l.last < c.column + c.rest.length

theorem ofQuoted_within (hc : 0 < c.column) : (ofQuoted x c).Within c := by
  have hle := quoted_le x c.rest
  have hcolumn := Cursor.forward_column hle
  unfold ofQuoted
  dsimp only
  split
  · refine ⟨?_, ?_⟩ <;> simp only [Cursor.position, hcolumn] <;> omega
  · refine ⟨?_, ?_⟩ <;> simp only [Cursor.position, hcolumn] <;> omega
  · refine ⟨Nat.le_refl _, ?_⟩
    simp only [Cursor.position]
    omega

theorem ofNumeral_within (h : (ofNumeral x c).outcome = .error cause) :
    (ofNumeral x c).Within c := by
  unfold ofNumeral at h ⊢
  split at h
  · cases h
  · next cause' n hn =>
    obtain ⟨hpos, hle⟩ := numeral_error_le hn
    have hcolumn := Cursor.forward_column hle
    refine ⟨Nat.le_refl _, ?_⟩
    simp only [Cursor.position, hcolumn]
    omega

theorem read_within (hc : 0 < c.column) (h : (read x c).outcome = .error cause) :
    (read x c).Within c := by
  revert h
  unfold read
  split
  · exact nofun
  split
  · exact nofun
  split
  · exact nofun
  split
  · exact fun _ ↦ ofQuoted_within hc
  split
  · exact ofNumeral_within
  split
  · exact nofun
  · refine fun _ ↦ ⟨Nat.le_refl _, ?_⟩
    simp only [Cursor.position]
    omega

end Lexeme

namespace Lexer

variable {s t : Lexer} {ls : List (List Char)}

theorem Inside.isSome_charAt? (h : Inside ls s) {i : Nat}
    (hi : i < s.cursor.column + s.cursor.rest.length) : (charAt? ls ⟨s.lineNumber, i⟩).isSome = true := by
  obtain ⟨front, w, hls, hline, hcolumn⟩ := h
  rw [charAt?, hls, hline, List.getElem?_append_right (Nat.le_refl _), Nat.sub_self,
    List.getElem?_cons_zero, Option.bind_some, List.getElem?_eq_getElem]
  · rfl
  · dsimp only
    rw [List.length_append]
    omega

theorem Inside.onLine (h : Inside ls s) {first last : Nat} (hle : first ≤ last)
    (hlast : last < s.cursor.column + s.cursor.rest.length) :
    (Span.onLine s.lineNumber first last).LiesIn ls :=
  ⟨h.isSome_charAt? (Nat.lt_of_le_of_lt hle hlast), h.isSome_charAt? hlast, .inr ⟨rfl, hle⟩⟩

theorem Inside.lexeme_error (h : Inside ls s) (hc : 0 < s.cursor.column) {x : Char} {e : LexicalError}
    (he : lexeme x s = .error e t) : e.span.LiesIn ls := by
  obtain ⟨hcause, -, hspan⟩ := read_of_lexeme_error he
  have hwithin := Lexeme.read_within hc hcause
  rw [hspan]
  exact h.onLine hwithin.ordered hwithin.last

theorem Inside.scan_error (h : Inside ls s) (hc : 0 < s.cursor.column) {x : Char} {e : LexicalError}
    (he : scan x s = .error e t) : e.span.LiesIn ls := by
  by_cases hstar : x = '/' ∧ s.cursor.rest.head? = some '*'
  · obtain ⟨rfl, hhead⟩ := hstar
    obtain ⟨rest, hr⟩ := List.head?_eq_some_iff.1 hhead
    obtain ⟨d, hd, hdr, hdc⟩ := Cursor.nextIs_of_cons hr
    rw [scan, if_pos rfl, hd] at he
    obtain ⟨-, -, rfl, -⟩ := eq_of_blockComment_error he
    refine h.onLine (Nat.le_succ _) ?_
    rw [hr, List.length_cons, Cursor.position]
    omega
  · obtain ⟨c, hscan, hcr, hcc⟩ := scan_of_ne_star (not_and.1 hstar)
    rw [hscan] at he
    refine Inside.lexeme_error (s := { s with cursor := c }) ?_ (by simpa only [hcc] using hc) he
    exact h.of_reaches (.sameLine [] (by simp [hcr]) rfl (by simp [hcc]) rfl)

theorem Inside.failure (h : Inside ls s) {e : LexicalError} (hf : s.find = .failure e t) :
    e.span.LiesIn ls := by
  obtain ⟨x, c, hc, hs⟩ := scan_of_failure hf
  obtain ⟨-, hcolumn⟩ := dropWhile_of_nextChar? hc
  obtain ⟨hrest, hcolumn'⟩ := rest_of_nextChar? hc
  refine Inside.scan_error (s := { s with cursor := c }) ?_ (by simp only [hcolumn]; omega) hs
  exact h.of_reaches (.sameLine _ hrest rfl hcolumn' rfl)

end Lexer

namespace Upcoming

def LiesIn (ls : List (List Char)) (i : Upcoming) : Prop :=
  match i.content with
  | .ok token => token.span.LiesIn ls
  | .error e => e.span.LiesIn ls

end Upcoming

theorem Lexer.Inside.liesIn_of_mem {s : Lexer} {ls : List (List Char)} {later : Bool} {i : Upcoming}
    (h : Inside ls s) (hi : i ∈ ahead later s) : i.LiesIn ls := by
  fun_induction ahead later s with
  | case1 later s t hf u ha ih => exact ih (h.of_reaches (reaches_of_advanceLine hf ha)) hi
  | case2 => cases hi
  | case3 later s e t hf =>
    obtain rfl := List.mem_singleton.1 hi
    exact h.failure hf
  | case4 later s t hf ih => exact ih (h.of_reaches (reaches_of_comment hf)) hi
  | case5 later s token t hf ih =>
    rcases List.mem_cons.1 hi with rfl | hi
    · exact (h.liesIn hf).span
    · exact ih (h.of_reaches (find_passes hf).reaches) hi

namespace Upcoming

variable {ls : List (List Char)} {b : Bool} {xs ys : List Upcoming} {t : Token}

def LieIn (ls : List (List Char)) (xs : List Upcoming) : Prop := ∀ i ∈ xs, i.LiesIn ls

theorem lieIn_ofText (source : List Char) (keepComments : Bool) :
    LieIn (lines source) (Lexer.ofText source keepComments).upcoming := by
  intro i hi
  rw [Lexer.upcoming_of_not_held rfl] at hi
  exact (Lexer.inside_ofText source keepComments).liesIn_of_mem hi

theorem Next.liesIn (h : Next b xs t ys) (hx : LieIn ls xs) : t.span.LiesIn ls ∧ LieIn ls ys := by
  obtain ⟨later, rfl, -⟩ := h
  exact ⟨hx _ List.mem_cons_self, fun i hi ↦ hx i (List.mem_cons_of_mem _ hi)⟩

theorem LieIn.looked (hx : LieIn ls xs) : LieIn ls (looked b xs) := by
  cases xs with
  | nil => exact hx
  | cons i xs =>
    intro j hj
    rcases List.mem_cons.1 hj with rfl | hj
    · exact hx i List.mem_cons_self
    · exact hx j (List.mem_cons_of_mem i hj)

end Upcoming

open Upcoming

variable {ls : List (List Char)}

theorem Expr.Joins.liesIn {left right e : Expr} {operator : Token} (h : left.Joins operator right e)
    (hl : left.span.LiesIn ls) (hr : right.span.LiesIn ls) : e.span.LiesIn ls := by
  cases h with
  | assignment | binary => exact hl.merge hr

/-- Every tree that is read runs from one character of the text to another. -/
theorem Reads.liesIn {b : Bool} {phrase : Phrase} {xs ys : List Upcoming} (h : Reads b phrase xs ys)
    (hx : LieIn ls xs) : LieIn ls ys ∧ match phrase with
      | .primary e | .operand e | .expression _ e => e.span.LiesIn ls
      | .suffix start e | .suffixes start e | .operators _ start e => start.span.LiesIn ls → e.span.LiesIn ls
      | .arguments _ closeToken => closeToken.span.LiesIn ls := by
  induction h with
  | literal hn | name hn =>
    obtain ⟨ht, hy⟩ := hn.liesIn hx
    exact ⟨hy, ht⟩
  | dereference hn _ hn' =>
    obtain ⟨hstar, hy⟩ := hn.liesIn hx
    obtain ⟨ht, hz⟩ := hn'.liesIn hy
    exact ⟨hz, hstar.merge ht⟩
  | group hn _ _ hc _ ih =>
    obtain ⟨ho, hy⟩ := hn.liesIn hx
    obtain ⟨ht, hw⟩ := hc.liesIn (ih hy).1
    exact ⟨hw, ho.merge ht⟩
  | emptyCall hn _ hc _ =>
    obtain ⟨-, hy⟩ := hn.liesIn hx
    obtain ⟨ht, hz⟩ := hc.liesIn hy
    exact ⟨hz, fun hs ↦ hs.merge ht⟩
  | call hn _ _ _ ih =>
    obtain ⟨-, hy⟩ := hn.liesIn hx
    obtain ⟨hz, ht⟩ := ih hy.looked
    exact ⟨hz, fun hs ↦ hs.merge ht⟩
  | index hn _ _ hc _ ih =>
    obtain ⟨-, hy⟩ := hn.liesIn hx
    obtain ⟨ht, hw⟩ := hc.liesIn (ih hy).1
    exact ⟨hw, fun hs ↦ hs.merge ht⟩
  | noSuffix | noOperator => exact ⟨hx.looked, id⟩
  | moreSuffixes _ _ ih₁ ih₂ =>
    obtain ⟨hy, h₁⟩ := ih₁ hx
    obtain ⟨hz, h₂⟩ := ih₂ hy
    exact ⟨hz, fun hs ↦ h₂ (h₁ hs)⟩
  | suffixed _ _ ih₁ ih₂ | expression _ _ ih₁ ih₂ =>
    obtain ⟨hy, h₁⟩ := ih₁ hx
    obtain ⟨hz, h₂⟩ := ih₂ hy
    exact ⟨hz, h₂ h₁⟩
  | unary hn _ _ ih =>
    obtain ⟨ho, hy⟩ := hn.liesIn hx
    exact ⟨(ih hy).1, ho.merge (ih hy).2⟩
  | lastArgument _ hc _ ih =>
    obtain ⟨ht, hz⟩ := hc.liesIn (ih hx).1
    exact ⟨hz, ht⟩
  | moreArguments _ hc _ _ ih₁ ih₂ => exact ih₂ (hc.liesIn (ih₁ hx).1).2
  | operator hn _ _ _ hj _ ih₁ ih₂ =>
    obtain ⟨-, hy⟩ := hn.liesIn hx
    obtain ⟨hz, hr⟩ := ih₁ hy
    obtain ⟨hw, he⟩ := ih₂ hz
    exact ⟨hw, fun hs ↦ he (hj.liesIn hs hr)⟩

theorem ReadsType.liesIn {mark : TokenKind} {type : Option Identifier} {xs ys : List Upcoming}
    (h : ReadsType mark type xs ys) (hx : LieIn ls xs) : LieIn ls ys := by
  cases h with
  | absent => exact hx.looked
  | given hn _ hn' => exact (hn'.liesIn (hn.liesIn hx).2).2

theorem ReadsParameters.liesIn {slot : Parser.Action.ParameterSlot} {params : List Parameter}
    {closeParen : Token} {xs ys : List Upcoming} (h : ReadsParameters slot params closeParen xs ys)
    (hx : LieIn ls xs) : LieIn ls ys := by
  induction h with
  | close hn => exact (hn.liesIn hx).2
  | comma hn _ _ ih => exact ih (hn.liesIn hx).2
  | parameter _ hn ht _ ih => exact ih (ht.liesIn (hn.liesIn hx).2)

theorem ReadsConstruct.liesIn {c : Construct} {xs ys : List Upcoming} (h : ReadsConstruct xs c ys)
    (hx : LieIn ls xs) : LieIn ls ys := by
  cases h with
  | openBrace hn | closeBrace hn | pass hn | «break» hn | returnNothing hn => exact (hn.liesIn hx).2
  | returnValue hn _ _ _ hr => exact (hr.liesIn (hn.liesIn hx).2).1
  | function hn _ hn₁ hn₂ _ hr ht hn₃ =>
    have hparams := hr.liesIn (hn₂.liesIn (hn₁.liesIn (hn.liesIn hx).2).2).2
    exact (hn₃.liesIn (ht.liesIn hparams)).2
  | expression hn _ hr =>
    obtain ⟨ht, hy⟩ := hn.liesIn hx
    refine (hr.liesIn (List.forall_mem_cons.2 ⟨ht, hy⟩)).1

/-- An error has no place exactly if the text ends inside a construct; and the place that it has lies on
the lines. -/
structure SyntaxError.Located (ls : List (List Char)) (e : SyntaxError) : Prop where
  unlocated : e.span? = none ↔ e.code = .P0002
  liesIn : ∀ span ∈ e.span?, span.LiesIn ls

namespace SyntaxError.Located

theorem lexical {e : LexicalError} (h : e.span.LiesIn ls) : Located ls (.lexical e) := by
  refine ⟨⟨nofun, fun hc ↦ absurd hc (e.cause.code_ne)⟩, fun span hs ↦ ?_⟩
  cases hs
  exact h

theorem grammar {cause : GrammarCause} {span : Span} (hc : cause.code ≠ .P0002) (h : span.LiesIn ls) :
    Located ls (.grammar ⟨cause, some span⟩) := by
  refine ⟨⟨nofun, fun he ↦ absurd he hc⟩, fun s hs ↦ ?_⟩
  cases hs
  exact h

theorem unterminated (construct : String) :
    Located ls (.grammar (.unterminated construct)) := ⟨⟨fun _ ↦ rfl, fun _ ↦ rfl⟩, nofun⟩

end SyntaxError.Located

/-- Whatever is wrong with a token is said of the place where it stands. It is neither that something is
unterminated nor that something is not assigned to. -/
def Token.Blames (wrong : Token → Option GrammarError) : Prop :=
  ∀ t, ∀ e ∈ wrong t, e.span = some t.span ∧ e.cause.code ≠ .P0002 ∧ e.cause.code ≠ .P0006

namespace Token

theorem blames_of_ite {c : Token → Prop} [DecidablePred c] {what : String} :
    Blames fun t ↦ if c t then none else some (.expected what t) := by
  intro t e he
  simp only [Option.mem_def, Option.ite_none_left_eq_some, Option.some.injEq] at he
  obtain ⟨-, rfl⟩ := he
  exact ⟨rfl, by simp [GrammarError.expected, GrammarCause.code]⟩

theorem blames_nothing : Blames fun _ ↦ none := fun _ _ he ↦ by cases he

theorem blames_require (kind : TokenKind) (what : String) : Blames (require kind what) := blames_of_ite

theorem blames_requireName (what : String) : Blames (requireName what) := blames_of_ite

theorem blames_requireOperand : Blames requireOperand := blames_of_ite

theorem blames_requireSeparator : Blames requireSeparator := blames_of_ite

theorem blames_requireFunctionName : Blames requireFunctionName := by
  intro t e he
  unfold requireFunctionName at he
  split at he <;> cases he <;> exact ⟨rfl, by simp [GrammarError.expected, GrammarCause.code]⟩

theorem blames_requireSlot (slot : Parser.Action.ParameterSlot) : Blames (requireSlot slot) := by
  intro t e he
  unfold requireSlot at he
  split at he <;> cases he <;> exact ⟨rfl, by simp [GrammarError.expected, GrammarCause.code]⟩

theorem blames_requireConstruct : Blames requireConstruct := by
  intro t e he
  unfold requireConstruct at he
  split at he
  · split at he <;> cases he
    exact ⟨rfl, by simp [GrammarCause.code]⟩
  · cases he
  · cases he
  · split at he <;> cases he
    exact ⟨rfl, by simp [GrammarCause.code]⟩

end Token

theorem Upcoming.Halts.located {b : Bool} {absence : Option GrammarError}
    {wrong : Token → Option GrammarError} {xs : List Upcoming} {e : SyntaxError}
    (h : Halts b absence wrong xs e) (hx : LieIn ls xs) (hwrong : Token.Blames wrong)
    (habsence : ∀ e ∈ absence, (∀ i ∈ xs.head?, ¬ i.InReach b) → SyntaxError.Located ls (.grammar e)) :
    e.Located ls := by
  cases h with
  | lexical => exact .lexical (hx _ List.mem_cons_self)
  | absent hn he => exact habsence _ he hn
  | @token t xs ys e hn he =>
    obtain ⟨hspan, hcode, -⟩ := hwrong t e he
    obtain ⟨cause, span⟩ := e
    obtain rfl : span = some t.span := hspan
    exact .grammar hcode (hn.liesIn hx).1

theorem Upcoming.HaltsIn.located {construct : String} {wrong : Token → Option GrammarError}
    {xs : List Upcoming} {e : SyntaxError} (h : HaltsIn construct wrong xs e) (hx : LieIn ls xs)
    (hwrong : Token.Blames wrong) : e.Located ls := by
  refine Halts.located h hx hwrong fun e he _ ↦ ?_
  cases he
  exact .unterminated construct

theorem Upcoming.HaltsLexically.located {b : Bool} {xs : List Upcoming} {e : SyntaxError}
    (h : HaltsLexically b xs e) (hx : LieIn ls xs) : e.Located ls :=
  Halts.located h hx Token.blames_nothing fun e he ↦ by cases he

/-- An error at the goal has something to point at: the last token before it, or else what comes next. -/
def Goal.Anchored (ls : List (List Char)) (room : Nat) (b : Bool) (xs : List Upcoming) : Goal → Prop
  | operand last =>
    (∀ t ∈ last, t.span.LiesIn ls) ∧ (last = none → ∃ i ∈ xs.head?, i.InReach b)
  | expression last _ =>
    (∀ t ∈ last, t.span.LiesIn ls) ∧ (last = none → 0 < room ∧ ∃ i ∈ xs.head?, i.InReach b)
  | arguments last => ∃ t ∈ last, t.span.LiesIn ls
  | suffixes start | operators _ start => start.span.LiesIn ls

theorem Goal.anchored_some {room least : Nat} {b : Bool} {xs : List Upcoming} {t : Token}
    (h : t.span.LiesIn ls) : (Goal.expression (some t) least).Anchored ls room b xs := by
  refine ⟨fun u hu ↦ ?_, nofun⟩
  cases hu
  exact h

theorem located_noOperand {b : Bool} {last : Option Token} {xs : List Upcoming}
    (hlast : ∀ t ∈ last, t.span.LiesIn ls) (hnone : last = none → ∃ i ∈ xs.head?, i.InReach b) :
    ∀ e ∈ some (GrammarError.noOperand b last), (∀ i ∈ xs.head?, ¬ i.InReach b) →
      SyntaxError.Located ls (.grammar e) := by
  intro e he hn
  cases he
  cases b with
  | true => exact .unterminated "expression"
  | false => cases last with
    | none =>
      obtain ⟨i, hi, reach⟩ := hnone rfl
      exact absurd reach (hn i hi)
    | some t => exact .grammar (by simp [GrammarCause.code]) (hlast t rfl)

/-- Every error inside an expression is located. -/
theorem Rejects.located {limit room : Nat} {b : Bool} {goal : Goal} {xs : List Upcoming}
    {e : SyntaxError} (h : Rejects limit room b goal xs e) (hx : LieIn ls xs)
    (hg : goal.Anchored ls room b xs) : e.Located ls := by
  induction h with
  | operand h => exact h.located hx Token.blames_requireOperand (located_noOperand hg.1 hg.2)
  | dereference hn _ h =>
    obtain ⟨ht, hy⟩ := hn.liesIn hx
    refine h.located hy (Token.blames_requireName _) (located_noOperand (fun u hu ↦ ?_) nofun)
    cases hu
    exact ht
  | group hn _ _ ih | unary hn _ _ ih =>
    obtain ⟨ht, hy⟩ := hn.liesIn hx
    exact ih hy (Goal.anchored_some ht)
  | groupEnd hn _ hr h | indexEnd hn _ hr h =>
    exact HaltsIn.located h (hr.1.liesIn (hn.liesIn hx).2).1 (Token.blames_require _ _)
  | suffixed hr _ ih =>
    obtain ⟨hy, hs⟩ := hr.1.liesIn hx
    exact ih hy hs
  | suffixes h | operators h => exact HaltsLexically.located h hx
  | call hn _ h => exact HaltsLexically.located h (hn.liesIn hx).2
  | callArguments hn _ _ _ ih =>
    obtain ⟨ht, hy⟩ := hn.liesIn hx
    exact ih hy.looked ⟨_, rfl, ht⟩
  | index hn _ _ ih =>
    obtain ⟨ht, hy⟩ := hn.liesIn hx
    exact ih hy (Goal.anchored_some ht)
  | moreSuffixes hr _ ih =>
    obtain ⟨hy, hs⟩ := hr.1.liesIn hx
    exact ih hy (hs hg)
  | argument _ ih =>
    obtain ⟨t, rfl, ht⟩ := hg
    exact ih hx (Goal.anchored_some ht)
  | argumentEnd hr h => exact HaltsIn.located h (hr.1.liesIn hx).1 Token.blames_requireSeparator
  | moreArguments hr hn _ _ ih =>
    obtain ⟨ht, hz⟩ := hn.liesIn (hr.1.liesIn hx).1
    exact ih hz ⟨_, rfl, ht⟩
  | rightOperand hn _ _ _ ih =>
    obtain ⟨ht, hy⟩ := hn.liesIn hx
    exact ih hy (Goal.anchored_some ht)
  | target => exact .grammar (by simp [GrammarCause.code]) hg
  | moreOperators hn _ _ hr hj _ ih =>
    obtain ⟨hz, hright⟩ := hr.1.liesIn (hn.liesIn hx).2
    exact ih hz (hj.liesIn hg hright)
  | @tooDeep b last least xs =>
    cases last with
    | none => exact absurd (hg.2 rfl).1 (Nat.lt_irrefl 0)
    | some t => exact .grammar (by simp [GrammarCause.code]) (hg.1 t rfl)
  | left _ ih => exact ih hx ⟨hg.1, fun h ↦ (hg.2 h).2⟩
  | expression hr _ ih =>
    obtain ⟨hy, hs⟩ := hr.1.liesIn hx
    exact ih hy hs

theorem RejectsStatement.located {limit : Nat} {last : Option Token} {xs : List Upcoming}
    {e : SyntaxError} (h : RejectsStatement limit last xs e) (hx : LieIn ls xs)
    (hg : (Goal.expression last 0).Anchored ls limit false xs) : e.Located ls := by
  cases h with
  | expression h => exact h.located hx hg
  | statementEnd hr h =>
    exact Halts.located h (hr.1.liesIn hx).1 (Token.blames_require _ _) fun e he ↦ by cases he

theorem RejectsType.located {mark : TokenKind} {construct what : String} {xs : List Upcoming}
    {e : SyntaxError} (h : RejectsType mark construct what xs e) (hx : LieIn ls xs) : e.Located ls := by
  cases h with
  | mark h => exact HaltsLexically.located h hx
  | name hn _ h => exact HaltsIn.located h (hn.liesIn hx).2 (Token.blames_requireName what)

theorem RejectsParameters.located {slot : Parser.Action.ParameterSlot} {xs : List Upcoming}
    {e : SyntaxError} (h : RejectsParameters slot xs e) (hx : LieIn ls xs) : e.Located ls := by
  induction h with
  | slot h => exact HaltsIn.located h hx (Token.blames_requireSlot _)
  | comma hn _ _ ih => exact ih (hn.liesIn hx).2
  | type _ hn h => exact h.located (hn.liesIn hx).2
  | parameter _ hn ht _ ih => exact ih (ht.liesIn (hn.liesIn hx).2)

theorem RejectsHeader.located {xs : List Upcoming} {e : SyntaxError} (h : RejectsHeader xs e)
    (hx : LieIn ls xs) : e.Located ls := by
  cases h with
  | name h => exact HaltsIn.located h hx Token.blames_requireFunctionName
  | openParen hn h => exact HaltsIn.located h (hn.liesIn hx).2 (Token.blames_require _ _)
  | parameters hn hn' _ h => exact h.located (hn'.liesIn (hn.liesIn hx).2).2
  | returnType hn hn' _ hr h => exact h.located (hr.liesIn (hn'.liesIn (hn.liesIn hx).2).2)
  | bodyOpen hn hn' _ hr ht h =>
    have hparams := hr.liesIn (hn'.liesIn (hn.liesIn hx).2).2
    exact HaltsIn.located h (ht.liesIn hparams) (Token.blames_require _ _)

theorem RejectsConstruct.located {limit : Nat} {xs : List Upcoming} {e : SyntaxError}
    (h : RejectsConstruct limit xs e) (hlimit : 0 < limit) (hx : LieIn ls xs) : e.Located ls := by
  cases h with
  | start h => exact Halts.located h hx Token.blames_requireConstruct fun e he ↦ by cases he
  | word hn _ h =>
    exact Halts.located h (hn.liesIn hx).2 (Token.blames_require _ _) fun e he ↦ by cases he
  | returned hn _ h => exact HaltsLexically.located h (hn.liesIn hx).2
  | returnValue hn _ _ _ h =>
    obtain ⟨ht, hy⟩ := hn.liesIn hx
    exact h.located hy (Goal.anchored_some ht)
  | function hn _ h => exact h.located (hn.liesIn hx).2
  | expression hn _ h =>
    obtain ⟨ht, hy⟩ := hn.liesIn hx
    refine h.located (List.forall_mem_cons.2 ⟨ht, hy⟩) ⟨nofun, fun _ ↦ ⟨hlimit, _, rfl, ?_⟩⟩
    exact inReach_givenBack false _

theorem RejectsProgram.located {limit : Nat} {xs : List Upcoming} {e : SyntaxError}
    (h : RejectsProgram limit xs e) (hlimit : 0 < limit) (hx : LieIn ls xs) : e.Located ls := by
  induction h with
  | here h => exact h.located hlimit hx
  | later hc _ _ ih => exact ih (hc.liesIn hx)

end Linewise
