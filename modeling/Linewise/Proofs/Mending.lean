import Linewise.Proofs.AssignmentTargets
import Linewise.Proofs.Endings

namespace Linewise

open Upcoming Parser.Action

section

variable (g : Span → Span) (n : Nat) (zs : List Upcoming)

def mend (xs : List Upcoming) : List Upcoming := replaceEnd n zs (xs.map (Upcoming.relocate g))

end

variable {g : Span → Span} {limit room n : Nat} {b : Bool} {xs ys zs ws : List Upcoming}

theorem mend_all : mend g xs.length zs xs = zs := replaceEnd_of_length_le (Nat.le_of_eq (List.length_map _))

theorem looked_mend (h : OnLine zs) (b : Bool) (xs : List Upcoming) :
    looked b (mend g n zs xs) = mend g n zs (looked b xs) := by
  rw [mend, mend, looked_replaceEnd h, looked_relocate]

theorem Upcoming.Next.mend {t : Token} (h : Next b xs t ys) (hn : n ≤ ys.length) :
    Next b (mend g n zs xs) (t.relocate g) (mend g n zs ys) :=
  h.relocate.replaceEnd (by rwa [List.length_map])

theorem Upcoming.Next.mend_all {t : Token} (h : Next b xs t ys) :
    Next b (Linewise.mend g ys.length zs xs) (t.relocate g) zs := by
  have hn : Next b _ (t.relocate g) (Linewise.mend g ys.length zs ys) := h.mend (Nat.le_refl _)
  rwa [Linewise.mend_all] at hn

theorem Expr.need_relocate (e : Expr) : (e.relocate g).need = e.need := by
  rw [← need_erase, e.erase_relocate, need_erase]

theorem Phrase.need_relocate (phrase : Phrase) : (phrase.relocate g).need = phrase.need := by
  cases phrase with
  | arguments args closeToken =>
    have h (args : List Expr) : Expr.argumentsNeed (args.map (Expr.relocate g)) = Expr.argumentsNeed args := by
      induction args with
      | nil => rfl
      | cons a args ih => rw [List.map_cons, Expr.argumentsNeed, Expr.argumentsNeed, a.need_relocate, ih]
    exact h args
  | _ => simp only [relocate, need, Expr.need_relocate]

theorem Phrase.endsOpen_relocate (phrase : Phrase) : (phrase.relocate g).EndsOpen ↔ phrase.EndsOpen := by
  cases phrase <;> exact Iff.rfl

theorem ReadsWithin.mend {phrase : Phrase} (h : ReadsWithin room b phrase xs ys) (hz : OnLine zs)
    (hn : n ≤ ys.length) (ho : phrase.EndsOpen → n < ys.length ∨ Closes zs) :
    ReadsWithin room b (phrase.relocate g) (mend g n zs xs) (mend g n zs ys) := by
  refine ⟨h.1.relocate.replaceEnd hz (by rwa [List.length_map]) fun hp ↦ ?_, by
    rw [phrase.need_relocate]
    exact h.2⟩
  rw [List.length_map]
  exact ho (phrase.endsOpen_relocate.1 hp)

theorem ReadsWithin.mend_all {phrase : Phrase} (h : ReadsWithin room b phrase xs ys) (hz : Closes zs) :
    ReadsWithin room b (phrase.relocate g) (Linewise.mend g ys.length zs xs) zs := by
  have hr := h.mend (g := g) hz.onLine (Nat.le_refl _) fun _ ↦ .inr hz
  rwa [Linewise.mend_all] at hr

theorem Upcoming.Closes.onLine_here (h : Closes zs) (ts : List Token) : OnLine (here ts zs) := by
  cases ts with
  | nil => exact h.onLine
  | cons t ts =>
    intro i hi
    cases hi
    rfl

namespace Goal

/-- The goal is to read an operand and not to go on with a tree. -/
def Begins : Goal → Prop
  | operand _ | expression _ _ | arguments _ => True
  | suffixes _ | operators _ _ => False

inductive Asks : Goal → Phrase → Prop
  | operand {last : Option Token} {e : Expr} : Asks (operand last) (.operand e)
  | suffixes {start e : Expr} : Asks (suffixes start) (.suffixes start e)
  | operators {least : Nat} {left e : Expr} : Asks (operators least left) (.operators least left e)
  | expression {last : Option Token} {least : Nat} {e : Expr} :
      Asks (expression last least) (.expression least e)
  | arguments {last : Option Token} {args : List Expr} {closeToken : Token} :
      Asks (arguments last) (.arguments args closeToken)

theorem Asks.begins {goal : Goal} {phrase : Phrase} (h : goal.Asks phrase) (hg : goal.Begins) :
    phrase.Begins := by
  cases h <;> exact hg

variable (g) in
def relocate : Goal → Goal
  | operand last => operand (last.map (Token.relocate g))
  | suffixes start => suffixes (start.relocate g)
  | operators least left => operators least (left.relocate g)
  | expression last least => expression (last.map (Token.relocate g)) least
  | arguments last => arguments (last.map (Token.relocate g))

end Goal

/-- The goal is met, or nothing is wrong but the target of an assignment. -/
inductive Passes (limit room : Nat) (b : Bool) (goal : Goal) (xs ys : List Upcoming) : Prop
  | reads {phrase : Phrase} : goal.Asks phrase → ReadsWithin room b phrase xs ys →
      Passes limit room b goal xs ys
  | target {span : Option Span} :
      Rejects limit room b goal xs (.grammar ⟨.invalidAssignmentTarget, span⟩) → Passes limit room b goal xs ys

theorem Rejects.starts {goal : Goal} {span : Option Span}
    (h : Rejects limit room b goal xs (.grammar ⟨.invalidAssignmentTarget, span⟩)) (hg : goal.Begins) :
    ∃ t ys, Next b xs t ys ∧ startsExpression t.kind = true := by
  generalize he : SyntaxError.grammar ⟨.invalidAssignmentTarget, span⟩ = e at h
  induction h with
  | operand h =>
    subst he
    exact absurd rfl (h.code_ne_target Token.blames_requireOperand (GrammarError.noOperand_code_ne _ _))
  | dereference hn hk => exact ⟨_, _, hn, by rw [hk]; rfl⟩
  | group hn hk | groupEnd hn hk => exact ⟨_, _, hn, by rw [hk]; rfl⟩
  | unary hn hk => exact ⟨_, _, hn, hk.startsExpression⟩
  | suffixed hr => exact hr.1.starts trivial
  | argument _ ih | left _ ih => exact ih trivial he
  | argumentEnd hr | moreArguments hr | expression hr => exact hr.1.starts trivial
  | tooDeep => cases he
  | _ => exact hg.elim

namespace Passes

variable {last : Option Token} {start left : Expr} {least : Nat} {t : Token}

theorem starts {goal : Goal} (h : Passes limit room b goal xs ys) (hg : goal.Begins) :
    ∃ t ws, Next b xs t ws ∧ startsExpression t.kind = true := by
  cases h with
  | reads ha hr => exact hr.1.starts (ha.begins hg)
  | target h => exact h.starts hg

theorem primary {e : Expr} (h : ReadsWithin room b (.primary e) xs ys) (hy : Closes ys) :
    Passes limit room b (.operand last) xs ys :=
  .reads .operand ⟨.suffixed h.1 (hy.reads_suffixes b e), h.2⟩

theorem suffix {e : Expr} (h : ReadsWithin room b (.suffix start e) xs ys) (hy : Closes ys) :
    Passes limit room b (.suffixes start) xs ys :=
  .reads .suffixes ⟨.moreSuffixes h.1 (hy.reads_suffixes b e), h.2⟩

theorem noSuffix (hf : start.need ≤ room + 1) (hx : Closes xs) : Passes limit room b (.suffixes start) xs xs :=
  .reads .suffixes ⟨hx.reads_suffixes b start, hf⟩

theorem noOperator (hf : left.need ≤ room + 1) (hx : Closes xs) :
    Passes limit room b (.operators least left) xs xs :=
  .reads .operators ⟨hx.reads_operators b least left, hf⟩

theorem name {n : Identifier} (hn : Next b xs n.token ys) (hy : Closes ys) :
    Passes limit room b (.operand last) xs ys :=
  primary ⟨.name hn, Nat.le_add_left 1 room⟩ hy

theorem dereference {star : Token} {n : Identifier} (hn : Next b xs star ys)
    (hk : star.kind = .operation .multiplication) (hn' : Next b ys n.token zs) (hz : Closes zs) :
    Passes limit room b (.operand last) xs zs :=
  primary ⟨.dereference hn hk hn', Nat.le_add_left 1 room⟩ hz

theorem group {openToken closeToken : Token} (hn : Next b xs openToken ys) (hk : openToken.kind = .openParen)
    (h : Passes limit room true (.expression openToken 0) ys (here [closeToken] zs))
    (hc : closeToken.kind = .closeParen) (hz : Closes zs) : Passes limit room b (.operand last) xs zs := by
  cases h with
  | reads ha hr =>
    cases ha
    exact primary ⟨.group hn hk hr.1 (next_here true closeToken [] zs) hc, hr.2⟩ hz
  | target h => exact .target (.group hn hk h)

theorem unary {operator : Token} (hn : Next b xs operator ys) (hk : operator.kind.IsUnary)
    (h : Passes limit room b (.expression operator BindingPower.unaryOperand) ys zs) :
    Passes limit room b (.operand last) xs zs := by
  cases h with
  | reads ha hr =>
    cases ha
    exact .reads .operand ⟨.unary hn hk hr.1, hr.2⟩
  | target h => exact .target (.unary hn hk h)

theorem suffixed (hr : ReadsWithin room b (.primary start) xs ys)
    (h : Passes limit room b (.suffixes start) ys zs) : Passes limit room b (.operand last) xs zs := by
  cases h with
  | reads ha hs =>
    cases ha
    exact .reads .operand ⟨.suffixed hr.1 hs.1, hs.2⟩
  | target h => exact .target (.suffixed hr h)

theorem call {openToken : Token} (hn : Next b xs openToken ys) (hk : openToken.kind = .openParen)
    (h : Passes limit room true (.arguments openToken) (looked true ys) zs) (hf : start.need ≤ room + 1)
    (hz : Closes zs) : Passes limit room b (.suffixes start) xs zs := by
  obtain ⟨t, ws, ht, hstarts⟩ := h.starts trivial
  have hstop : Stops true (· ≠ .closeParen) ys := by
    refine ht.of_looked.stops fun hclose ↦ ?_
    rw [hclose] at hstarts
    cases hstarts
  cases h with
  | reads ha hr =>
    cases ha
    exact suffix ⟨.call hn hk hstop hr.1, Nat.max_le.2 ⟨hf, hr.2⟩⟩ hz
  | target h => exact .target (.callArguments hn hk hstop h)

theorem index {openToken closeToken : Token} (hn : Next b xs openToken ys)
    (hk : openToken.kind = .openSquareBracket)
    (h : Passes limit room true (.expression openToken 0) ys (here [closeToken] zs))
    (hc : closeToken.kind = .closeSquareBracket) (hf : start.need ≤ room + 1) (hz : Closes zs) :
    Passes limit room b (.suffixes start) xs zs := by
  cases h with
  | reads ha hr =>
    cases ha
    exact suffix ⟨.index hn hk hr.1 (next_here true closeToken [] zs) hc, Nat.max_le.2 ⟨hf, hr.2⟩⟩ hz
  | target h => exact .target (.index hn hk h)

theorem moreSuffixes {middle : Expr} (hr : ReadsWithin room b (.suffix start middle) xs ys)
    (h : Passes limit room b (.suffixes middle) ys zs) : Passes limit room b (.suffixes start) xs zs := by
  cases h with
  | reads ha hs =>
    cases ha
    exact .reads .suffixes ⟨.moreSuffixes hr.1 hs.1, hs.2⟩
  | target h => exact .target (.moreSuffixes hr h)

theorem lastArgument {closeToken : Token}
    (h : Passes limit room true (.expression last 0) xs (here [closeToken] zs))
    (hc : closeToken.kind = .closeParen) : Passes limit room true (.arguments last) xs zs := by
  cases h with
  | reads ha hr =>
    cases ha
    refine .reads .arguments ⟨.lastArgument hr.1 (next_here true closeToken [] zs) hc, ?_⟩
    exact Nat.max_le.2 ⟨hr.2, Nat.zero_le _⟩
  | target h => exact .target (.argument h)

theorem moreArguments {argument : Expr} {comma : Token}
    (hr : ReadsWithin room true (.expression 0 argument) xs ys) (hn : Next true ys comma zs)
    (hk : comma.kind = .comma) (h : Passes limit room true (.arguments comma) zs ws) :
    Passes limit room true (.arguments last) xs ws := by
  cases h with
  | reads ha hs =>
    cases ha
    exact .reads .arguments ⟨.moreArguments hr.1 hn hk hs.1, Nat.max_le.2 ⟨hr.2, hs.2⟩⟩
  | target h => exact .target (.moreArguments hr hn hk h)

theorem rightOperand {operator : Token} {power : BindingPower} (hn : Next b xs operator ys)
    (hp : operator.kind.bindingPower? = some power) (hle : least ≤ power.left)
    (h : Passes limit room b (.expression operator power.right) ys zs) (hf : left.need ≤ room + 1)
    (hz : Closes zs) : Passes limit room b (.operators least left) xs zs := by
  cases h with
  | @reads phrase ha hr =>
    cases ha with
    | @expression _ _ right =>
      by_cases hj : ∃ joined, left.Joins operator right joined
      · obtain ⟨joined, hj⟩ := hj
        refine .reads .operators ⟨.operator hn hp hle hr.1 hj (hz.reads_operators b least joined), ?_⟩
        exact Nat.le_trans (Expr.need_of_joins hj) (Nat.max_le.2 ⟨hf, hr.2⟩)
      · have hassign : operator.kind.isAssignment = true :=
          Bool.of_not_eq_false fun hno ↦ hj ⟨_, .binary hno⟩
        refine .target (.target hn hp hle hr hassign fun v hv ↦ hj ?_)
        subst hv
        exact ⟨_, .assignment hassign⟩
  | target h => exact .target (.rightOperand hn hp hle h)

theorem moreOperators {right joined : Expr} {operator : Token} {power : BindingPower}
    (hn : Next b xs operator ys) (hp : operator.kind.bindingPower? = some power) (hle : least ≤ power.left)
    (hr : ReadsWithin room b (.expression power.right right) ys zs) (hj : left.Joins operator right joined)
    (h : Passes limit room b (.operators least joined) zs ws) :
    Passes limit room b (.operators least left) xs ws := by
  cases h with
  | reads ha hs =>
    cases ha
    exact .reads .operators ⟨.operator hn hp hle hr.1 hj hs.1, hs.2⟩
  | target h => exact .target (.moreOperators hn hp hle hr hj h)

theorem ofOperand (h : Passes limit room b (.operand last) xs ys) (hy : Closes ys) :
    Passes limit (room + 1) b (.expression last least) xs ys := by
  cases h with
  | @reads phrase ha hr =>
    cases ha with
    | @operand _ e =>
      refine .reads .expression ⟨.expression hr.1 (hy.reads_operators b least e), ?_⟩
      rw [Phrase.need, Nat.add_comm]
      exact Nat.succ_le_succ hr.2
  | target h => exact .target (.left h)

theorem expression (hr : ReadsWithin room b (.operand left) xs ys)
    (h : Passes limit room b (.operators least left) ys zs) :
    Passes limit (room + 1) b (.expression last least) xs zs := by
  cases h with
  | reads ha hs =>
    cases ha
    refine .reads .expression ⟨.expression hr.1 hs.1, ?_⟩
    rw [Phrase.need, Nat.add_comm]
    exact Nat.succ_le_succ hs.2
  | target h => exact .target (.expression hr h)

end Passes

/-- What lies ahead is some tokens and `n` more items, none of which begins before the error. -/
def GrammarError.Spares (e : GrammarError) (n : Nat) (xs : List Upcoming) : Prop :=
  ∃ (ts : List Token) (rest : List (Except LexicalError Token)), xs.map (·.content) = ts.map .ok ++ rest ∧
    rest.length = n ∧ ∀ span ∈ e.span, ∀ t : Token, .ok t ∈ rest → span.start ≤ t.span.start

variable {e : GrammarError}

namespace GrammarError

theorem spares_all (h : ∀ span ∈ e.span, From span.start xs) : e.Spares xs.length xs :=
  ⟨[], _, rfl, List.length_map _, h⟩

theorem spares_of_span {t : Token} (he : e.span = some t.span) (h : From t.span.start xs) :
    e.Spares xs.length xs := by
  refine spares_all fun span hs ↦ ?_
  rw [he] at hs
  cases hs
  exact h

theorem Spares.behind (h : e.Spares n ys) (hy : Behind ys xs) : e.Spares n xs := by
  obtain ⟨ts, rest, hts, hrest, hspares⟩ := h
  obtain ⟨us, hus⟩ := hy
  exact ⟨us ++ ts, rest, by rw [hus, hts, List.map_append, List.append_assoc], hrest, hspares⟩

theorem Spares.le (h : e.Spares n xs) : n ≤ xs.length := by
  obtain ⟨ts, rest, hts, rfl, -⟩ := h
  have hl := congrArg List.length hts
  rw [List.length_append, List.length_map, List.length_map] at hl
  omega

end GrammarError

theorem Upcoming.Halts.spares {absence : Option GrammarError} {wrong : Token → Option GrammarError}
    (h : Halts b absence wrong xs (.grammar e)) (hx : Sorted xs) (hwrong : Token.Blames wrong)
    (habsence : ∀ g ∈ absence, ∀ span ∈ g.span, From span.start xs) : e.Spares xs.length xs := by
  cases h with
  | absent _ ha => exact GrammarError.spares_all (habsence e ha)
  | token hn ht => exact GrammarError.spares_of_span (hwrong _ e ht).1 (hn.from_start hx)

theorem Upcoming.HaltsIn.spares {construct : String} {wrong : Token → Option GrammarError}
    (h : HaltsIn construct wrong xs (.grammar e)) (hx : Sorted xs) (hwrong : Token.Blames wrong) :
    e.Spares xs.length xs := by
  refine Halts.spares h hx hwrong fun g hg span hs ↦ ?_
  cases hg
  cases hs

/-- No operand is in reach, at the last token read if anywhere. -/
theorem from_noOperand {last : Option Token} (h : ∀ t ∈ last, From t.span.start xs) :
    ∀ g ∈ some (GrammarError.noOperand b last), ∀ span ∈ g.span, From span.start xs := by
  intro g hg span hs
  cases hg
  cases b with
  | true => cases hs
  | false =>
    obtain ⟨t, ht, rfl⟩ := Option.map_eq_some_iff.1 hs
    exact h t ht

namespace Goal

def Preceded (xs : List Upcoming) : Goal → Prop
  | operand last | expression last _ | arguments last => ∀ t ∈ last, From t.span.start xs
  | suffixes _ | operators _ _ => True

def Fits (room : Nat) : Goal → Prop
  | suffixes start | operators _ start => start.need ≤ room + 1
  | operand _ | expression _ _ | arguments _ => True

def Outlies (e : GrammarError) : Goal → Prop
  | expression last _ | arguments last => e.span = last.map (·.span)
  | operators _ left => ∀ span ∈ e.span, span.start ≤ left.span.start
  | operand _ | suffixes _ => False

end Goal

/-- The tokens that unfinished text is ended with: a name, and the brackets that it leaves open. -/
inductive Filler where
  | name
  | openParen
  | closeParen
  | closeSquareBracket
  | openCurlyBrace

def Filler.kind : Filler → TokenKind
  | name => .identifier "x"
  | openParen => .openParen
  | closeParen => .closeParen
  | closeSquareBracket => .closeSquareBracket
  | openCurlyBrace => .openCurlyBrace

/-- What lies ahead meets the goal if the fillers replace its last `n` items, which the error is not behind. -/
structure Mends (limit room : Nat) (b : Bool) (goal : Goal) (e : GrammarError) (xs : List Upcoming) (n : Nat)
    (fillers : List Filler) : Prop where
  spares : e.Spares n xs
  kept : goal.Begins ∨ n < xs.length ∨ fillers = []
  passes (g : Span → Span) (ts : List Token) (zs : List Upcoming) :
    ts.map (·.kind) = fillers.map Filler.kind → Closes zs →
    Passes limit room b (goal.relocate g) (mend g n (here ts zs) xs) zs

theorem Mends.le {goal : Goal} {fillers : List Filler} (h : Mends limit room b goal e xs n fillers) :
    n ≤ xs.length := h.spares.le

theorem exists_name {ts : List Token} (h : ts.map (·.kind) = [Filler.name].map Filler.kind) :
    ∃ n : Identifier, ts = [n.token] := by
  obtain ⟨⟨kind, span⟩, rfl, hk⟩ := List.map_eq_singleton_iff.1 h
  obtain rfl : kind = .identifier "x" := hk
  exact ⟨⟨"x", span⟩, rfl⟩

theorem exists_last {ts : List Token} {fillers : List Filler} {kind : Filler}
    (h : ts.map (·.kind) = (fillers ++ [kind]).map Filler.kind) :
    ∃ us t, ts = us ++ [t] ∧ us.map (·.kind) = fillers.map Filler.kind ∧ t.kind = kind.kind := by
  rw [List.map_append] at h
  obtain ⟨us, vs, rfl, hu, hv⟩ := List.map_eq_append_iff.1 h
  obtain ⟨t, rfl, ht⟩ := List.map_eq_singleton_iff.1 hv
  exact ⟨us, t, rfl, hu, ht⟩

namespace Mends

variable {last : Option Token} {start left : Expr} {least : Nat} {fillers : List Filler} {openToken : Token}

/-- Where tokens are put in after a tree, they stand behind others, or else there are none. -/
theorem lt_or_closes {goal : Goal} (h : Mends limit room b goal e xs n fillers) (hg : ¬ goal.Begins)
    {ts : List Token} (hts : ts.map (·.kind) = fillers.map Filler.kind) (hz : Closes zs) :
    n < xs.length ∨ Closes (here ts zs) := by
  refine (h.kept.resolve_left hg).imp_right ?_
  rintro rfl
  obtain rfl := List.map_eq_nil_iff.1 hts
  exact hz

theorem operand (hs : e.Spares xs.length xs) :
    Mends limit room b (.operand last) e xs xs.length [.name] := by
  refine ⟨hs, .inl trivial, fun g ts zs hts hz ↦ ?_⟩
  obtain ⟨n, rfl⟩ := exists_name hts
  rw [mend_all]
  exact .name (next_here b n.token [] zs) hz

theorem dereference {star : Token} (hn : Next b xs star ys) (hk : star.kind = .operation .multiplication)
    (hs : e.Spares ys.length ys) : Mends limit room b (.operand last) e xs ys.length [.name] := by
  refine ⟨hs.behind hn.behind, .inl trivial, fun g ts zs hts hz ↦ ?_⟩
  obtain ⟨n, rfl⟩ := exists_name hts
  exact .dereference hn.mend_all hk (next_here b n.token [] zs) hz

theorem group (hn : Next b xs openToken ys) (hk : openToken.kind = .openParen)
    (h : Mends limit room true (.expression openToken 0) e ys n fillers) :
    Mends limit room b (.operand last) e xs n (fillers ++ [.closeParen]) := by
  refine ⟨h.spares.behind hn.behind, .inl trivial,
    fun g ts zs hts hz ↦ ?_⟩
  obtain ⟨us, t, rfl, hus, ht⟩ := exists_last hts
  rw [here_append]
  exact .group (hn.mend h.le) hk (h.passes g us _ hus (closes_here (.inl ht))) ht hz

theorem groupEnd {inner : Expr} (hn : Next b xs openToken ys) (hk : openToken.kind = .openParen)
    (hr : ReadsWithin room true (.expression 0 inner) ys zs) (hs : e.Spares zs.length zs) :
    Mends limit room b (.operand last) e xs zs.length [.closeParen] := by
  have hbehind := hn.behind.trans hr.1.behind
  refine ⟨hs.behind hbehind, .inl trivial, fun g ts ws hts hw ↦ ?_⟩
  obtain ⟨t, rfl, ht⟩ := List.map_eq_singleton_iff.1 hts
  exact .group (hn.mend hr.1.behind.length_le) hk
    (.reads .expression (hr.mend_all (closes_here (.inl ht)))) ht hw

theorem unary {operator : Token} (hn : Next b xs operator ys) (hk : operator.kind.IsUnary)
    (h : Mends limit room b (.expression operator BindingPower.unaryOperand) e ys n fillers) :
    Mends limit room b (.operand last) e xs n fillers :=
  ⟨h.spares.behind hn.behind, .inl trivial,
    fun g ts zs hts hz ↦ .unary (hn.mend h.le) hk (h.passes g ts zs hts hz)⟩

theorem suffixed (hr : ReadsWithin room b (.primary start) xs ys)
    (h : Mends limit room b (.suffixes start) e ys n fillers) :
    Mends limit room b (.operand last) e xs n fillers := by
  refine ⟨h.spares.behind hr.1.behind, .inl trivial,
    fun g ts zs hts hz ↦ ?_⟩
  exact .suffixed (hr.mend (hz.onLine_here ts) h.le False.elim) (h.passes g ts zs hts hz)

theorem noSuffix (hs : e.Spares xs.length xs) (hf : start.need ≤ room + 1) :
    Mends limit room b (.suffixes start) e xs xs.length [] := by
  refine ⟨hs, .inr (.inr rfl), fun g ts zs hts hz ↦ ?_⟩
  obtain rfl := List.map_eq_nil_iff.1 hts
  rw [mend_all]
  exact .noSuffix (by rwa [Expr.need_relocate]) hz

theorem call (hn : Next b xs openToken ys) (hk : openToken.kind = .openParen)
    (h : Mends limit room true (.arguments openToken) e (looked true ys) n fillers)
    (hf : start.need ≤ room + 1) : Mends limit room b (.suffixes start) e xs n fillers := by
  have hle := h.le
  have hl := hn.length
  rw [length_looked] at hle
  refine ⟨(h.spares.behind (behind_looked true ys)).behind hn.behind, .inr (.inl (by omega)),
    fun g ts zs hts hz ↦ ?_⟩
  have hpasses := h.passes g ts zs hts hz
  rw [← looked_mend (hz.onLine_here ts)] at hpasses
  exact .call (hn.mend hle) hk hpasses (by rwa [Expr.need_relocate]) hz

theorem index (hn : Next b xs openToken ys) (hk : openToken.kind = .openSquareBracket)
    (h : Mends limit room true (.expression openToken 0) e ys n fillers) (hf : start.need ≤ room + 1) :
    Mends limit room b (.suffixes start) e xs n (fillers ++ [.closeSquareBracket]) := by
  have hle := h.le
  have hl := hn.length
  refine ⟨h.spares.behind hn.behind, .inr (.inl (by omega)), fun g ts zs hts hz ↦ ?_⟩
  obtain ⟨us, t, rfl, hus, ht⟩ := exists_last hts
  rw [here_append]
  exact .index (hn.mend hle) hk (h.passes g us _ hus (closes_here (.inr ht))) ht
    (by rwa [Expr.need_relocate]) hz

theorem indexEnd {i : Expr} (hn : Next b xs openToken ys) (hk : openToken.kind = .openSquareBracket)
    (hr : ReadsWithin room true (.expression 0 i) ys zs) (hs : e.Spares zs.length zs)
    (hf : start.need ≤ room + 1) :
    Mends limit room b (.suffixes start) e xs zs.length [.closeSquareBracket] := by
  have hl := hn.length
  have hl' := hr.1.behind.length_le
  refine ⟨hs.behind (hn.behind.trans hr.1.behind), .inr (.inl (by omega)),
    fun g ts ws hts hw ↦ ?_⟩
  obtain ⟨t, rfl, ht⟩ := List.map_eq_singleton_iff.1 hts
  exact .index (hn.mend hl') hk (.reads .expression (hr.mend_all (closes_here (.inr ht)))) ht
    (by rwa [Expr.need_relocate]) hw

theorem moreSuffixes {middle : Expr} (hr : ReadsWithin room b (.suffix start middle) xs ys)
    (h : Mends limit room b (.suffixes middle) e ys n fillers) :
    Mends limit room b (.suffixes start) e xs n fillers := by
  have hl := hr.1.length_le
  have hle := h.le
  rw [Phrase.size] at hl
  refine ⟨h.spares.behind hr.1.behind, .inr (.inl (by omega)), fun g ts zs hts hz ↦ ?_⟩
  exact .moreSuffixes (hr.mend (hz.onLine_here ts) hle False.elim) (h.passes g ts zs hts hz)

theorem argument (h : Mends limit room true (.expression last 0) e xs n fillers) :
    Mends limit room true (.arguments last) e xs n (fillers ++ [.closeParen]) := by
  refine ⟨h.spares, .inl trivial, fun g ts zs hts hz ↦ ?_⟩
  obtain ⟨us, t, rfl, hus, ht⟩ := exists_last hts
  rw [here_append]
  exact .lastArgument (h.passes g us _ hus (closes_here (.inl ht))) ht

theorem argumentEnd {arg : Expr} (hr : ReadsWithin room true (.expression 0 arg) xs ys)
    (hs : e.Spares ys.length ys) : Mends limit room true (.arguments last) e xs ys.length [.closeParen] := by
  refine ⟨hs.behind hr.1.behind, .inl trivial,
    fun g ts zs hts hz ↦ ?_⟩
  obtain ⟨t, rfl, ht⟩ := List.map_eq_singleton_iff.1 hts
  exact .lastArgument (.reads .expression (hr.mend_all (closes_here (.inl ht)))) ht

theorem moreArguments {arg : Expr} {comma : Token} (hr : ReadsWithin room true (.expression 0 arg) xs ys)
    (hn : Next true ys comma zs) (hk : comma.kind = .comma)
    (h : Mends limit room true (.arguments comma) e zs n fillers) :
    Mends limit room true (.arguments last) e xs n fillers := by
  have hle := h.le
  have hl := hn.length
  refine ⟨h.spares.behind (hr.1.behind.trans hn.behind), .inl trivial, fun g ts ws hts hw ↦ ?_⟩
  exact .moreArguments (hr.mend (hw.onLine_here ts) (by omega) fun _ ↦ .inl (by omega)) (hn.mend hle) hk
    (h.passes g ts ws hts hw)

theorem noOperator (hs : e.Spares xs.length xs) (hf : left.need ≤ room + 1) :
    Mends limit room b (.operators least left) e xs xs.length [] := by
  refine ⟨hs, .inr (.inr rfl), fun g ts zs hts hz ↦ ?_⟩
  obtain rfl := List.map_eq_nil_iff.1 hts
  rw [mend_all]
  exact .noOperator (by rwa [Expr.need_relocate]) hz

theorem rightOperand {operator : Token} {power : BindingPower} (hn : Next b xs operator ys)
    (hp : operator.kind.bindingPower? = some power) (hle : least ≤ power.left)
    (h : Mends limit room b (.expression operator power.right) e ys n fillers) (hf : left.need ≤ room + 1) :
    Mends limit room b (.operators least left) e xs n fillers := by
  have hl := hn.length
  have hn' := h.le
  refine ⟨h.spares.behind hn.behind, .inr (.inl (by omega)), fun g ts zs hts hz ↦ ?_⟩
  exact .rightOperand (hn.mend h.le) hp hle (h.passes g ts zs hts hz) (by rwa [Expr.need_relocate]) hz

theorem moreOperators {right joined : Expr} {operator : Token} {power : BindingPower}
    (hn : Next b xs operator ys) (hp : operator.kind.bindingPower? = some power) (hle : least ≤ power.left)
    (hr : ReadsWithin room b (.expression power.right right) ys zs) (hj : left.Joins operator right joined)
    (h : Mends limit room b (.operators least joined) e zs n fillers) :
    Mends limit room b (.operators least left) e xs n fillers := by
  have hl := hn.length
  have hl' := hr.1.behind.length_le
  have hn' := h.le
  refine ⟨h.spares.behind (hn.behind.trans hr.1.behind), .inr (.inl (by omega)),
    fun g ts ws hts hw ↦ ?_⟩
  have hr := hr.mend (g := g) (hw.onLine_here ts) h.le fun _ ↦ h.lt_or_closes not_false hts hw
  exact .moreOperators (hn.mend (by omega)) hp hle hr hj.relocate (h.passes g ts ws hts hw)

theorem ofOperand (h : Mends limit room b (.operand last) e xs n fillers) :
    Mends limit (room + 1) b (.expression last least) e xs n fillers :=
  ⟨h.spares, .inl trivial, fun g ts zs hts hz ↦ .ofOperand (h.passes g ts zs hts hz) hz⟩

theorem expression (hr : ReadsWithin room b (.operand left) xs ys)
    (h : Mends limit room b (.operators least left) e ys n fillers) :
    Mends limit (room + 1) b (.expression last least) e xs n fillers := by
  refine ⟨h.spares.behind hr.1.behind, .inl trivial,
    fun g ts zs hts hz ↦ ?_⟩
  have hr := hr.mend (g := g) (hz.onLine_here ts) h.le fun _ ↦ h.lt_or_closes not_false hts hz
  exact .expression hr (h.passes g ts zs hts hz)

end Mends

theorem Upcoming.Next.preceded {t : Token} (h : Next b xs t ys) (hx : Sorted xs) :
    ∀ u ∈ some t, From u.span.start ys := by
  rintro u ⟨⟩
  exact (h.from_start hx).behind h.behind

theorem Upcoming.Next.spares {t : Token} (h : Next b xs t ys) (hx : Sorted xs)
    (he : e.span = (some t).map (·.span)) : e.Spares xs.length xs :=
  GrammarError.spares_of_span he (h.from_start hx)

/-- Where an expression is not read, other tokens in place of some of the last ones are; unless the error is
about what stands before. -/
theorem Rejects.mends {goal : Goal} (h : Rejects limit room b goal xs (.grammar e)) (hx : Sorted xs)
    (hg : goal.Preceded xs) (hf : goal.Fits room) :
    (∃ n fillers, Mends limit room b goal e xs n fillers) ∨ goal.Outlies e := by
  -- The error is one of the grammar, so the cases of lexical errors fall away. The induction mends what the
  -- reading leaves open; where the error points in front of the goal itself, the goal is mended as a whole,
  -- from its first token on.
  generalize he : SyntaxError.grammar e = err at h
  induction h with
  | operand h =>
    subst he
    exact .inl ⟨_, _, .operand (h.spares hx Token.blames_requireOperand (from_noOperand hg))⟩
  | dereference hn hk h =>
    subst he
    have hs := h.spares (hx.behind hn.behind) (Token.blames_requireName _) (from_noOperand (hn.preceded hx))
    exact .inl ⟨_, _, .dereference hn hk hs⟩
  | group hn hk _ ih =>
    rcases ih (hx.behind hn.behind) (hn.preceded hx) trivial he with ⟨n, fillers, h⟩ | hout
    · exact .inl ⟨_, _, h.group hn hk⟩
    · exact .inl ⟨_, _, .operand (hn.spares hx hout)⟩
  | groupEnd hn hk hr h =>
    subst he
    have hs := HaltsIn.spares h (hx.behind (hn.behind.trans hr.1.behind)) (Token.blames_require _ _)
    exact .inl ⟨_, _, .groupEnd hn hk hr hs⟩
  | unary hn hk _ ih =>
    rcases ih (hx.behind hn.behind) (hn.preceded hx) trivial he with ⟨n, fillers, h⟩ | hout
    · exact .inl ⟨_, _, h.unary hn hk⟩
    · exact .inl ⟨_, _, .operand (hn.spares hx hout)⟩
  | suffixed hr _ ih =>
    obtain ⟨n, fillers, h⟩ := (ih (hx.behind hr.1.behind) trivial hr.2 he).resolve_right id
    exact .inl ⟨_, _, h.suffixed hr⟩
  | suffixes h | operators h | call _ _ h =>
    subst he
    cases h with
    | absent _ ha => cases ha
    | token _ ht => cases ht
  | callArguments hn hk _ _ ih =>
    have hbehind := hn.behind.trans (behind_looked true _)
    have hlast := fun u hu ↦ (hn.preceded hx u hu).behind (behind_looked true _)
    rcases ih (hx.behind hbehind) hlast trivial he with ⟨n, fillers, h⟩ | hout
    · exact .inl ⟨_, _, h.call hn hk hf⟩
    · exact .inl ⟨_, _, .noSuffix (hn.spares hx hout) hf⟩
  | index hn hk _ ih =>
    rcases ih (hx.behind hn.behind) (hn.preceded hx) trivial he with ⟨n, fillers, h⟩ | hout
    · exact .inl ⟨_, _, h.index hn hk hf⟩
    · exact .inl ⟨_, _, .noSuffix (hn.spares hx hout) hf⟩
  | indexEnd hn hk hr h =>
    subst he
    have hs := HaltsIn.spares h (hx.behind (hn.behind.trans hr.1.behind)) (Token.blames_require _ _)
    exact .inl ⟨_, _, .indexEnd hn hk hr hs hf⟩
  | moreSuffixes hr _ ih =>
    obtain ⟨n, fillers, h⟩ := (ih (hx.behind hr.1.behind) trivial hr.2 he).resolve_right id
    exact .inl ⟨_, _, h.moreSuffixes hr⟩
  | argument _ ih =>
    rcases ih hx hg trivial he with ⟨n, fillers, h⟩ | hout
    · exact .inl ⟨_, _, h.argument⟩
    · exact .inr hout
  | argumentEnd hr h =>
    subst he
    have hs := HaltsIn.spares h (hx.behind hr.1.behind) Token.blames_requireSeparator
    exact .inl ⟨_, _, .argumentEnd hr hs⟩
  | moreArguments hr hn hk _ ih =>
    have hy := hx.behind hr.1.behind
    rcases ih (hy.behind hn.behind) (hn.preceded hy) trivial he with ⟨n, fillers, h⟩ | hout
    · exact .inl ⟨_, _, h.moreArguments hr hn hk⟩
    · exact .inl ⟨_, _, .argumentEnd hr (hn.spares hy hout)⟩
  | rightOperand hn hp hle _ ih =>
    rcases ih (hx.behind hn.behind) (hn.preceded hx) trivial he with ⟨n, fillers, h⟩ | hout
    · exact .inl ⟨_, _, h.rightOperand hn hp hle hf⟩
    · exact .inl ⟨_, _, .noOperator (hn.spares hx hout) hf⟩
  | target =>
    cases he
    refine .inr fun span hs ↦ ?_
    cases hs
    exact Position.le_refl _
  | moreOperators hn hp hle hr hj _ ih =>
    have hy := hx.behind (hn.behind.trans hr.1.behind)
    have hfits := Nat.le_trans (Expr.need_of_joins hj) (Nat.max_le.2 ⟨hf, hr.2⟩)
    rcases ih hy trivial hfits he with ⟨n, fillers, h⟩ | hout
    · exact .inl ⟨_, _, h.moreOperators hn hp hle hr hj⟩
    · exact .inr fun span hs ↦ Position.le_trans (hout span hs) hj.start_le
  | tooDeep =>
    cases he
    exact .inr rfl
  | left _ ih =>
    obtain ⟨n, fillers, h⟩ := (ih hx hg trivial he).resolve_right id
    exact .inl ⟨_, _, h.ofOperand⟩
  | expression hr _ ih =>
    rcases ih (hx.behind hr.1.behind) trivial hr.2 he with ⟨n, fillers, h⟩ | hout
    · exact .inl ⟨_, _, h.expression hr⟩
    · have hs := GrammarError.spares_all fun span hs ↦ (hr.1.beginsAt hx).mono (hout span hs)
      exact .inl ⟨_, _, .ofOperand (.operand hs)⟩

end Linewise
