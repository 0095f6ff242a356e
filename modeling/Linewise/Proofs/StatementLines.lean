import Linewise.Proofs.Layout
import Linewise.Proofs.Locality

namespace Linewise

open Upcoming

def EnclosedAt (pieces : List Piece) (d : Token × Token) (j : Nat) : Prop :=
  ∃ a b : Nat, pieces[a]? = some (Piece.kept d.1) ∧ pieces[b]? = some (Piece.kept d.2) ∧ a < j ∧ j ≤ b

namespace EnclosedAt

variable {ps qs : List Piece} {d : Token × Token} {j : Nat}

theorem append_left (h : EnclosedAt ps d j) (qs : List Piece) : EnclosedAt (ps ++ qs) d j := by
  obtain ⟨a, b, ha, hb, hlt, hle⟩ := h
  have get {i : Nat} {p : Piece} (h : ps[i]? = some p) : (ps ++ qs)[i]? = some p := by
    rw [List.getElem?_append_left (List.getElem?_eq_some_iff.1 h).1, h]
  exact ⟨a, b, get ha, get hb, hlt, hle⟩

theorem append_right (h : EnclosedAt qs d j) (ps : List Piece) : EnclosedAt (ps ++ qs) d (ps.length + j) := by
  obtain ⟨a, b, ha, hb, hlt, hle⟩ := h
  have get {i : Nat} {p : Piece} (h : qs[i]? = some p) : (ps ++ qs)[ps.length + i]? = some p := by
    rw [List.getElem?_append_right (Nat.le_add_right _ _), Nat.add_sub_cancel_left, h]
  exact ⟨ps.length + a, ps.length + b, get ha, get hb, by omega, by omega⟩

theorem cons (h : EnclosedAt ps d j) (p : Piece) : EnclosedAt (p :: ps) d (j + 1) := by
  rw [Nat.add_comm]
  exact h.append_right [p]

theorem brackets (openToken closeToken : Token) (ps : List Piece) (hj : j ≤ ps.length) :
    EnclosedAt (.kept openToken :: (ps ++ [.kept closeToken])) (openToken, closeToken) (j + 1) := by
  refine ⟨0, ps.length + 1, rfl, ?_, Nat.succ_pos j, Nat.succ_le_succ hj⟩
  rw [List.getElem?_cons_succ, List.getElem?_concat_length]

end EnclosedAt

theorem getElem?_append_true {flags more : List Bool} {j : Nat} (h : (flags ++ more)[j]? = some true) :
    flags[j]? = some true ∨ ∃ i, j = flags.length + i ∧ more[i]? = some true := by
  rcases Nat.lt_or_ge j flags.length with hj | hj
  · rw [List.getElem?_append_left hj] at h
    exact .inl h
  · rw [List.getElem?_append_right hj] at h
    exact .inr ⟨j - flags.length, by omega, h⟩

theorem getElem?_false_cons_true {flags : List Bool} {j : Nat} (h : (false :: flags)[j]? = some true) :
    ∃ i, j = i + 1 ∧ flags[i]? = some true := by
  cases j with
  | zero => cases h
  | succ i => exact ⟨i, rfl, h⟩

/-- After brackets and what stands in front of them, a line may end only between the brackets. -/
theorem EnclosedAt.suffix {openToken closeToken : Token} {ps qs : List Piece} {gs : List Bool} {j : Nat}
    {ds es : List (Token × Token)} (hl : qs.length = gs.length)
    (h : (gs ++ false :: List.replicate (ps.length + 1) true)[j]? = some true)
    (hq : gs[j]? = some true → ∃ d ∈ ds, EnclosedAt qs d j) :
    ∃ d ∈ ds ++ (openToken, closeToken) :: es,
      EnclosedAt (qs ++ .kept openToken :: (ps ++ [.kept closeToken])) d j := by
  rcases getElem?_append_true h with hj | ⟨i, rfl, hi⟩
  · obtain ⟨d, hd, henc⟩ := hq hj
    exact ⟨d, List.mem_append_left _ hd, henc.append_left _⟩
  · obtain ⟨i, rfl, hflag⟩ := getElem?_false_cons_true hi
    have hi := (List.getElem?_eq_some_iff.1 hflag).1
    rw [List.length_replicate] at hi
    rw [← hl]
    exact ⟨_, List.mem_append_right _ List.mem_cons_self,
      (brackets openToken closeToken ps (Nat.le_of_lt_succ hi)).append_right qs⟩

theorem EnclosedAt.operands {operator : Token} {ps qs : List Piece} {fs gs : List Bool} {j : Nat}
    {ds es : List (Token × Token)} (hl : ps.length = fs.length)
    (h : (fs ++ false :: gs)[j]? = some true)
    (hp : fs[j]? = some true → ∃ d ∈ ds, EnclosedAt ps d j)
    (hq : ∀ i : Nat, gs[i]? = some true → ∃ d ∈ es, EnclosedAt qs d i) :
    ∃ d ∈ ds ++ es, EnclosedAt (ps ++ .kept operator :: qs) d j := by
  rcases getElem?_append_true h with hj | ⟨i, rfl, hi⟩
  · obtain ⟨d, hd, henc⟩ := hp hj
    exact ⟨d, List.mem_append_left _ hd, henc.append_left _⟩
  · obtain ⟨i, rfl, hi⟩ := getElem?_false_cons_true hi
    obtain ⟨d, hd, henc⟩ := hq i hi
    rw [← hl]
    exact ⟨d, List.mem_append_right _ hd, (henc.cons _).append_right ps⟩

/-- Where a line may end inside an expression, two brackets of it stand around that place. -/
theorem Expr.exists_enclosedAt {e : Expr} {j : Nat} (h : e.mayBreak[j]? = some true) :
    ∃ d ∈ e.delimiters, EnclosedAt e.pieces d j := by
  induction e generalizing j with
  | literal l =>
    obtain ⟨i, -, hi⟩ := getElem?_false_cons_true h
    cases hi
  | var v =>
    rw [mayBreak, List.getElem?_map] at h
    obtain ⟨p, -, hp⟩ := Option.map_eq_some_iff.1 h
    cases hp
  | assignment operator target value ih =>
    rw [mayBreak] at h
    rw [pieces, delimiters]
    refine @EnclosedAt.operands operator _ _ _ _ _ [] _ (List.length_map _).symm h (fun hj ↦ ?_)
      fun i hi ↦ ih hi
    rw [List.getElem?_map] at hj
    obtain ⟨p, -, hp⟩ := Option.map_eq_some_iff.1 hj
    cases hp
  | binary operator left right ihl ihr =>
    rw [mayBreak] at h
    rw [pieces, delimiters]
    exact EnclosedAt.operands left.length_mayBreak.symm h ihl fun i hi ↦ ihr hi
  | unary operator operand ih =>
    rw [mayBreak] at h
    rw [pieces, delimiters]
    obtain ⟨i, rfl, hi⟩ := getElem?_false_cons_true h
    obtain ⟨d, hd, henc⟩ := ih hi
    exact ⟨d, hd, henc.cons _⟩
  | call callee openToken arguments closeToken ih _ =>
    rw [mayBreak] at h
    rw [pieces, delimiters]
    exact EnclosedAt.suffix callee.length_mayBreak.symm h ih
  | index target openToken i closeToken ih _ =>
    rw [mayBreak] at h
    rw [pieces, delimiters]
    exact EnclosedAt.suffix target.length_mayBreak.symm h ih
  | group openToken inner closeToken _ =>
    rw [mayBreak] at h
    rw [pieces, delimiters]
    exact @EnclosedAt.suffix _ _ _ [] [] _ [] _ rfl h fun hj ↦ absurd hj (by simp)

theorem Construct.exists_enclosedAt {c : Construct} {j : Nat} (h : c.mayBreak[j]? = some true) :
    ∃ d ∈ c.delimiters, EnclosedAt c.pieces d j := by
  cases c with
  | expression e => exact e.exists_enclosedAt h
  | function f => exact @EnclosedAt.suffix _ _ _ [] [] _ [] [] rfl h fun hj ↦ absurd hj (by simp)
  | returnStatement keyword value =>
    cases value with
    | none =>
      obtain ⟨i, -, hi⟩ := getElem?_false_cons_true h
      cases hi
    | some e =>
      obtain ⟨i, rfl, hi⟩ := getElem?_false_cons_true h
      obtain ⟨d, hd, henc⟩ := e.exists_enclosedAt hi
      exact ⟨d, hd, henc.cons _⟩
  | openBrace t | closeBrace t | passStatement t | breakStatement t =>
    obtain ⟨i, -, hi⟩ := getElem?_false_cons_true h
    cases hi

/-- There is one item for each flag before the second list, and a line ends only in front of items whose
flag is set. -/
def BreaksWithin (flags : List Bool) (xs ys : List Upcoming) : Prop :=
  ∃ taken, xs = taken ++ ys ∧ List.Forall₂ (fun may i ↦ i.onLaterLine = true → may = true) flags taken

namespace BreaksWithin

variable {flags more : List Bool} {xs ys zs : List Upcoming}

theorem nil (xs : List Upcoming) : BreaksWithin [] xs xs := ⟨[], rfl, .nil⟩

theorem append (h : BreaksWithin flags xs ys) (h' : BreaksWithin more ys zs) :
    BreaksWithin (flags ++ more) xs zs := by
  obtain ⟨taken, rfl, hflags⟩ := h
  obtain ⟨taken', rfl, hmore⟩ := h'
  exact ⟨taken ++ taken', (List.append_assoc _ _ _).symm, List.rel_append hflags hmore⟩

theorem next {t : Token} (h : Next false xs t ys) : BreaksWithin [false] xs ys := by
  obtain ⟨later, rfl, hacross | hlater⟩ := h
  · cases hacross
  · exact ⟨[⟨later, .ok t⟩], rfl, .cons (fun hl ↦ hlater.symm.trans hl) .nil⟩

theorem brackets {ps : List Piece} {closeToken : Token} (hs : Spells xs ps ys)
    (hn : Next true ys closeToken zs) : BreaksWithin (List.replicate (ps.length + 1) true) xs zs := by
  have hlength := hs.length
  obtain ⟨tokens, hleads, -⟩ := hs
  obtain ⟨taken, rfl⟩ := hleads.suffix hn
  rw [hn.length, List.length_append] at hlength
  have htaken : taken.length = ps.length + 1 := by omega
  refine ⟨taken, rfl, ?_⟩
  rw [← htaken, ← List.map_const', List.forall₂_map_left_iff]
  exact List.forall₂_same.2 fun _ _ _ ↦ rfl

end BreaksWithin

theorem Reads.breaksWithin {phrase : Phrase} {xs ys : List Upcoming} (h : Reads false phrase xs ys) :
    ∃ flags, phrase.MayBreak flags ∧ BreaksWithin flags xs ys := by
  generalize hb : false = b at h
  induction h with
  | literal hn | name hn =>
    subst hb
    exact ⟨_, rfl, .next hn⟩
  | dereference hn _ hn' =>
    subst hb
    exact ⟨_, rfl, (BreaksWithin.next hn).append (.next hn')⟩
  | group hn _ hi hc _ =>
    subst hb
    refine ⟨_, rfl, ?_⟩
    rw [Expr.mayBreak]
    exact (BreaksWithin.next hn).append (.brackets hi.spells_expression hc)
  | emptyCall hn _ hc _ =>
    subst hb
    exact ⟨_, rfl, (BreaksWithin.next hn).append (.brackets ⟨[], .here rfl, .nil⟩ hc)⟩
  | call hn _ _ ha =>
    subst hb
    obtain ⟨_, hs, hc⟩ := ha.spells_arguments
    exact ⟨_, rfl, (BreaksWithin.next hn).append (.brackets hs.of_looked hc)⟩
  | index hn _ hi hc _ =>
    subst hb
    exact ⟨_, rfl, (BreaksWithin.next hn).append (.brackets hi.spells_expression hc)⟩
  | noSuffix | noOperator =>
    subst hb
    rw [looked_false]
    exact ⟨[], (List.append_nil _).symm, .nil _⟩
  | moreSuffixes _ _ ih₁ ih₂ =>
    obtain ⟨flags₁, hm₁, hb₁⟩ := ih₁ hb
    obtain ⟨flags₂, hm₂, hb₂⟩ := ih₂ hb
    refine ⟨flags₁ ++ flags₂, ?_, hb₁.append hb₂⟩
    simp only [Phrase.MayBreak] at hm₁ hm₂ ⊢
    rw [hm₂, hm₁, List.append_assoc]
  | suffixed _ _ ih₁ ih₂ | expression _ _ ih₁ ih₂ =>
    obtain ⟨flags₁, hm₁, hb₁⟩ := ih₁ hb
    obtain ⟨flags₂, hm₂, hb₂⟩ := ih₂ hb
    refine ⟨flags₁ ++ flags₂, ?_, hb₁.append hb₂⟩
    simp only [Phrase.MayBreak] at hm₁ hm₂ ⊢
    rw [hm₂, hm₁]
  | unary hn _ _ ih =>
    obtain ⟨flags, hm, hbreaks⟩ := ih hb
    subst hb
    exact ⟨false :: flags, congrArg _ hm, (BreaksWithin.next hn).append hbreaks⟩
  | lastArgument | moreArguments => cases hb
  | operator hn _ _ _ hj _ ih₁ ih₂ =>
    obtain ⟨flags₁, hm₁, hb₁⟩ := ih₁ hb
    obtain ⟨flags₂, hm₂, hb₂⟩ := ih₂ hb
    subst hb
    refine ⟨false :: (flags₁ ++ flags₂), ?_, (BreaksWithin.next hn).append (hb₁.append hb₂)⟩
    simp only [Phrase.MayBreak] at hm₁ hm₂ ⊢
    rw [hm₂, Expr.mayBreak_of_joins hj, hm₁, List.append_assoc, List.cons_append]

theorem Reads.breaksWithin_expression {least : Nat} {e : Expr} {xs ys : List Upcoming}
    (h : Reads false (.expression least e) xs ys) : BreaksWithin e.mayBreak xs ys := by
  obtain ⟨_, rfl, hbreaks⟩ := h.breaksWithin
  exact hbreaks

namespace Construct

def isStatement : Construct → Bool
  | expression _ | returnStatement _ _ | passStatement _ | breakStatement _ => true
  | openBrace _ | closeBrace _ | function _ => false

end Construct

section

variable {xs ys : List Upcoming} {c : Construct}

/-- From its first token on a construct goes past the end of a line only inside its delimiters. -/
theorem ReadsConstruct.breaksWithin (h : ReadsConstruct xs c ys) : BreaksWithin c.mayBreak (looked true xs) ys := by
  cases h with
  | openBrace hn _ | closeBrace hn _ | pass hn _ _ | «break» hn _ _ | returnNothing hn _ _ =>
    exact .next hn.looked
  | returnValue hn _ _ _ he _ => exact (BreaksWithin.next hn.looked).append he.breaksWithin_expression
  | function hn _ hname hopen _ hp ht hbody _ =>
    exact (BreaksWithin.next hn.looked).append (.brackets (between_spells hname hopen hp ht) hbody)
  | expression hn _ he _ =>
    rw [hn.looked_eq]
    exact he.breaksWithin_expression

/-- A statement ends where the line does or in front of a closing brace. -/
theorem ReadsConstruct.stops (h : ReadsConstruct xs c ys) (hc : c.isStatement = true) :
    Stops false (· = .closeCurlyBrace) ys := by
  cases h with
  | openBrace | closeBrace | function => cases hc
  | pass _ _ hstop | «break» _ _ hstop | returnNothing _ _ hstop | returnValue _ _ _ _ _ hstop
  | expression _ _ _ hstop => exact hstop

theorem ReadsConstruct.exists_next (h : ReadsConstruct xs c ys) :
    ∃ t zs, Next true xs t zs ∧ (t.kind = .closeCurlyBrace → c = .closeBrace t) := by
  cases h with
  | closeBrace hn _ => exact ⟨_, _, hn, fun _ ↦ rfl⟩
  | openBrace hn hk | pass hn hk _ | «break» hn hk _ | returnNothing hn hk _ | returnValue hn hk _ _ _ _
  | function hn hk _ _ _ _ _ _ _ => exact ⟨_, _, hn, fun hclose ↦ nomatch hk.symm.trans hclose⟩
  | expression hn hk _ _ =>
    refine ⟨_, _, hn, fun hclose ↦ ?_⟩
    rw [hclose] at hk
    cases hk

theorem ReadsProgram.exists_split {before cs : List Construct} (h : ReadsProgram xs (before ++ cs)) :
    ∃ ys, Spells xs (before.flatMap (·.pieces)) ys ∧ ReadsProgram ys cs := by
  induction before generalizing xs with
  | nil => exact ⟨xs, ⟨[], .here rfl, .nil⟩, h⟩
  | cons b before ih =>
    cases h with
    | construct hb hmore =>
      obtain ⟨ys, hs, hcs⟩ := ih hmore
      exact ⟨ys, hb.spells.append hs, hcs⟩

end

def CommentsOnLine (source : String) : Prop :=
  ∀ tokens, (Lexer.ofSource source true).readAll = .ok tokens →
    ∀ t ∈ tokens, t.kind = .blockComment → t.span.isMultiLine = false

/-- Among comments that stand on one line each, every end of a line is seen. -/
theorem openBreaks_eq_lineBreaks {passed : Bool} {line line' : Nat} {tokens : List Token}
    (h : InOrder line tokens)
    (hone : ∀ t ∈ tokens, t.kind.isComment = true → t.span.start.line = t.span.stop.line)
    (hline : line' ≤ line) (hpassed : passed = decide (line' < line)) :
    openBreaks passed line tokens = lineBreaks line' (withoutComments tokens) := by
  induction tokens generalizing passed line line' with
  | nil => rfl
  | cons t ts ih =>
    obtain ⟨hstart, hstop, hmore⟩ := h
    obtain ⟨ht, hone⟩ := List.forall_mem_cons.1 hone
    have hflag : (passed || decide (line < t.span.start.line)) = decide (line' < t.span.start.line) := by
      rw [hpassed, Bool.eq_iff_iff, Bool.or_eq_true, decide_eq_true_eq, decide_eq_true_eq, decide_eq_true_eq]
      omega
    rw [openBreaks, withoutComments, List.filter_cons, hflag]
    cases hk : t.kind.isComment with
    | true => exact ih hmore hone (by omega) (by rw [ht hk])
    | false =>
      exact congrArg (_ :: ·) (ih hmore hone (Nat.le_refl _) (decide_eq_false (Nat.lt_irrefl _)).symm)

theorem CommentsOnLine.sameLine {source : String} {tokens : Array Token} (h : CommentsOnLine source)
    (hall : (Lexer.ofSource source true).readAll = .ok tokens) {t : Token} (ht : t ∈ tokens.toList) :
    t.span.start.line = t.span.stop.line := by
  have hcontents := Lexer.readAll_eq_ok.1 hall
  rw [Lexer.upcoming_of_not_held rfl] at hcontents
  have hliesIn := Lexer.liesIn_of_mem_ahead (Lexer.inside_ofText source.toList true) hcontents ht
  by_contra hne
  have hm : t.span.isMultiLine = true := bne_iff_ne.2 hne
  rw [h tokens hall t (Array.mem_toList_iff.1 ht) (hliesIn.oneLine hm)] at hm
  cases hm

/-- No two tokens are on different lines for the sake of comments alone. -/
def ShowsLineEnds (source : String) : Prop :=
  ∀ kept, (Lexer.ofSource source true).readAll = .ok kept →
    openBreaks false 0 kept.toList = lineBreaks 0 (withoutComments kept.toList)

theorem CommentsOnLine.showsLineEnds {source : String} (h : CommentsOnLine source) : ShowsLineEnds source := by
  intro kept hkept
  obtain ⟨-, horder⟩ := Lexer.ahead_of_readAll hkept
  exact openBreaks_eq_lineBreaks horder (fun t ht _ ↦ h.sameLine hkept ht) (Nat.le_refl 0) rfl

theorem exists_getElem?_of_forall₂ {α β : Type} {R : α → β → Prop} {as : List α} {bs : List β}
    (h : List.Forall₂ R as bs) {i : Nat} {b : β} (hb : bs[i]? = some b) : ∃ a, as[i]? = some a ∧ R a b := by
  obtain ⟨hi, rfl⟩ := List.getElem?_eq_some_iff.1 hb
  have hi' : i < as.length := h.length_eq ▸ hi
  exact ⟨as[i], List.getElem?_eq_getElem hi', h.get hi' hi⟩

/-- What a reader is told of the end of a line between two tokens is true, and it is told of every such end
where no comment hides one. -/
theorem exists_upcoming_of_tokenize {source : String} {tokens : List Token}
    (h : tokenize source = .ok tokens.toArray) {i : Nat} {t u : Token} (ht : tokens[i]? = some t)
    (hu : tokens[i + 1]? = some u) :
    ∃ later, (Parser.ofSource source).upcoming[i + 1]? = some ⟨later, .ok u⟩ ∧
      (later = true → t.span.stop.line < u.span.start.line) ∧
      (ShowsLineEnds source → later = false → u.span.start.line ≤ t.span.stop.line) := by
  obtain ⟨all, hall, rfl⟩ := exists_readAll_of_tokenize h
  obtain ⟨-, horder⟩ := Lexer.ahead_of_readAll hall
  have hbreaks : (lineBreaks 0 (withoutComments all.toList))[i + 1]? =
      some (decide (t.span.stop.line < u.span.start.line)) := getElem?_lineBreaks ht hu
  have hseen : List.Forall₂ (fun a b ↦ a = true → b = true) (openBreaks false 0 all.toList)
      (lineBreaks 0 (withoutComments all.toList)) := openBreaks_le horder (Nat.le_refl 0) nofun
  obtain ⟨later, hlater, hle⟩ := exists_getElem?_of_forall₂ hseen hbreaks
  refine ⟨later, ?_, fun hl ↦ of_decide_eq_true (hle hl), fun hshows hl ↦ ?_⟩
  · have hupcoming : (Parser.ofSource source).upcoming = _ := Lexer.upcoming_of_readAll hall
    rw [hupcoming, marked]
    exact List.getElem?_zipWith_eq_some.2 ⟨later, u, hlater, hu, rfl⟩
  · rw [hshows all hall, hbreaks, hl] at hlater
    exact Nat.le_of_not_lt (of_decide_eq_false (Option.some.inj hlater))

/-- Both tokens stand between the brackets of one group, call or index of the construct. -/
def Construct.Encloses (c : Construct) (t u : Token) : Prop :=
  ∃ d ∈ c.delimiters, t.LiesBetween d ∧ u.LiesBetween d

theorem Construct.encloses_of_mayBreak {c : Construct} {ts : List Token} (hc : Covers c.pieces ts)
    (ho : Successive ts) {i : Nat} {t u : Token} (ht : ts[i]? = some t) (hu : ts[i + 1]? = some u)
    (h : c.mayBreak[i + 1]? = some true) : c.Encloses t u := by
  obtain ⟨d, hd, a, b, ha, hb, hlt, hle⟩ := c.exists_enclosedAt h
  have ha := hc.getElem?_kept ha
  have hb := hc.getElem?_kept hb
  exact ⟨d, hd, ⟨ho.start_le ha ht (Nat.le_of_lt_succ hlt), ho.stop_le ht hb (Nat.le_of_succ_le hle)⟩,
    ho.start_le ha hu (Nat.le_of_lt hlt), ho.stop_le hu hb hle⟩

theorem getElem?_succ_looked (b : Bool) (xs : List Upcoming) (i : Nat) :
    (looked b xs)[i + 1]? = xs[i + 1]? := by
  cases xs <;> rfl

/-- What a program is read from, cut into the tokens before a construct, its own and those after it. -/
theorem exists_split_of_parse {source : String} {program : Program} (h : parse source = .ok program)
    {before after : List Construct} {c : Construct} (hp : program.constructs = before ++ c :: after) :
    ∃ pre ts post xs ys, tokenize source = .ok (pre ++ (ts ++ post)).toArray ∧
      Covers (before.flatMap (·.pieces)) pre ∧ Covers c.pieces ts ∧ Covers (after.flatMap (·.pieces)) post ∧
      looked true ((Parser.ofSource source).upcoming.drop pre.length) = looked true xs ∧
      ReadsConstruct xs c ys ∧ ReadsProgram ys after ∧ ys.map (·.content) = post.map .ok := by
  obtain ⟨hprogram, -⟩ := readsProgram_of_parse h
  rw [hp] at hprogram
  obtain ⟨xs, ⟨pre, hpre, hbefore⟩, hmore⟩ := hprogram.exists_split
  cases hmore with
  | @construct _ _ _ ys hreads hafter =>
    obtain ⟨ts, hts, hcovers⟩ := hreads.spells
    obtain ⟨post, hpost, hcovers'⟩ := hafter.spells
    have hcontents := hpost.contents
    rw [List.map_nil, List.append_nil] at hcontents
    refine ⟨pre, ts, post, xs, ys, ?_, hbefore, hcovers, hcovers', hpre.drop, hreads, hafter, hcontents⟩
    rw [tokenize_eq_ok]
    have hall := (hpre.trans (hts.trans hpost)).contents
    rwa [List.map_nil, List.append_nil] at hall

/-- A statement ends on its line or in front of a closing brace. -/
theorem ReadsProgram.endsLine_or {d : Construct} {ds : List Construct} {xs : List Upcoming}
    (h : ReadsProgram xs (d :: ds)) (hstop : Stops false (· = .closeCurlyBrace) xs) :
    (∃ brace, d = .closeBrace brace) ∨ ∃ u, xs.head? = some ⟨true, .ok u⟩ := by
  cases h with
  | construct hreads _ =>
    obtain ⟨u, zs, ⟨later, rfl, -⟩, hbrace⟩ := hreads.exists_next
    cases later with
    | true => exact .inr ⟨u, rfl⟩
    | false =>
      obtain ⟨t, ht, hclose⟩ := hstop _ rfl (.inr rfl)
      cases ht
      exact .inl ⟨u, hbrace hclose⟩

/-- The tokens of a text from some token on, with what a reader is told who starts there. -/
theorem exists_item_of_tokenize {source : String} {pre ts : List Token} {items : List Upcoming}
    (h : tokenize source = .ok (pre ++ ts).toArray)
    (hitems : looked true ((Parser.ofSource source).upcoming.drop pre.length) = items) {i : Nat} {t u : Token}
    (ht : ts[i]? = some t) (hu : ts[i + 1]? = some u) :
    ∃ later, items[i + 1]? = some ⟨later, .ok u⟩ ∧ (later = true → t.span.stop.line < u.span.start.line) ∧
      (ShowsLineEnds source → later = false → u.span.start.line ≤ t.span.stop.line) := by
  have hbehind (j : Nat) : (pre ++ ts)[pre.length + j]? = ts[j]? := by
    rw [List.getElem?_append_right (Nat.le_add_right _ _), Nat.add_sub_cancel_left]
  obtain ⟨later, hlater, hlines⟩ := exists_upcoming_of_tokenize h ((hbehind i).trans ht)
    ((hbehind (i + 1)).trans hu)
  refine ⟨later, ?_, hlines⟩
  rw [← hitems, getElem?_succ_looked, List.getElem?_drop]
  exact hlater

/-- A line ends behind a statement that another one follows. -/
theorem line_lt_of_head? {source : String} {pre ts post : List Token} {taken ys : List Upcoming} {u : Token}
    (h : tokenize source = .ok (pre ++ (ts ++ post)).toArray)
    (hitems : looked true ((Parser.ofSource source).upcoming.drop pre.length) = taken ++ ys)
    (hlength : taken.length = ts.length) (hts : ts ≠ []) (hys : ys.map (·.content) = post.map .ok)
    (hu : ys.head? = some ⟨true, .ok u⟩) :
    ∃ t ∈ ts.getLast?, ∃ u ∈ post.head?, t.span.stop.line < u.span.start.line := by
  obtain ⟨front, t, rfl⟩ := (List.eq_nil_or_concat' ts).resolve_left hts
  obtain ⟨ys, rfl⟩ := List.head?_eq_some_iff.1 hu
  obtain ⟨u', post, rfl, hu', -⟩ := List.map_eq_cons_iff.1 hys.symm
  cases hu'
  have ht : (front ++ [t] ++ u :: post)[front.length]? = some t := by simp
  have hnext : (front ++ [t] ++ u :: post)[front.length + 1]? = some u := by simp
  obtain ⟨later, hlater, hbreak, -⟩ := exists_item_of_tokenize h hitems ht hnext
  rw [List.length_append, List.length_singleton] at hlength
  rw [← hlength, List.getElem?_append_right (Nat.le_refl _), Nat.sub_self] at hlater
  cases hlater
  exact ⟨t, List.getLast?_concat, u, rfl, hbreak rfl⟩

/-- Where no comment hides the end of a line, a construct goes past it only inside its delimiters. -/
theorem sameLine_of_not_encloses {source : String} {pre ts post : List Token} {xs ys : List Upcoming}
    {c : Construct} (h : tokenize source = .ok (pre ++ (ts ++ post)).toArray) (hcovers : Covers c.pieces ts)
    (hlooked : looked true ((Parser.ofSource source).upcoming.drop pre.length) = looked true xs)
    (hreads : ReadsConstruct xs c ys) (hshows : ShowsLineEnds source) {i : Nat} {t u : Token}
    (ht : ts[i]? = some t) (hu : ts[i + 1]? = some u) (hnot : ¬ c.Encloses t u) : t.SameLine u := by
  obtain ⟨taken, htaken, hflags⟩ := hreads.breaksWithin
  have hlength : taken.length = ts.length := by
    rw [← hflags.length_eq, c.length_mayBreak, hcovers.length_eq]
  have hlt := (List.getElem?_eq_some_iff.1 hu).1
  obtain ⟨later, hlater, -, hsame⟩ := exists_item_of_tokenize h (hlooked.trans htaken)
    (List.getElem?_append_left (Nat.lt_of_succ_lt hlt) ▸ ht) (List.getElem?_append_left hlt ▸ hu)
  rw [List.getElem?_append_left (hlength ▸ hlt)] at hlater
  obtain ⟨may, hmay, hle⟩ := exists_getElem?_of_forall₂ hflags hlater
  have ho := (successive_of_tokenize h).right.left
  have hkept : later = false := Bool.eq_false_iff.2 fun hl ↦
    hnot (Construct.encloses_of_mayBreak hcovers ho ht hu (hmay.trans (congrArg some (hle hl))))
  have hordered := ho.before_of_lt ht hu (Nat.lt_succ_self i)
  rw [Position.Before] at hordered
  have hline := hsame hshows hkept
  rw [Token.SameLine]
  omega

/-- One statement per line. Where a statement is followed by anything but a closing brace, a line ends in
between; and if no comment goes past the end of a line, a statement does so only inside the brackets of a
group, a call or an index. -/
theorem one_statement_per_line {source : String} {program : Program} (h : parse source = .ok program)
    {before after : List Construct} {c : Construct} (hp : program.constructs = before ++ c :: after)
    (hc : c.isStatement = true) :
    ∃ pre ts post, tokenize source = .ok (pre ++ (ts ++ post)).toArray ∧
      Covers (before.flatMap (·.pieces)) pre ∧ Covers c.pieces ts ∧ Covers (after.flatMap (·.pieces)) post ∧
      (∀ d ∈ after.head?, (∃ brace, d = .closeBrace brace) ∨
        ∃ t ∈ ts.getLast?, ∃ u ∈ post.head?, t.span.stop.line < u.span.start.line) ∧
      (CommentsOnLine source → ∀ (i : Nat) (t u : Token), ts[i]? = some t → ts[i + 1]? = some u →
        ¬ c.Encloses t u → t.SameLine u) := by
  obtain ⟨pre, ts, post, xs, ys, htokens, hbefore, hcovers, hafter, hlooked, hreads, hprogram, hys⟩ :=
    exists_split_of_parse h hp
  obtain ⟨taken, htaken, hflags⟩ := hreads.breaksWithin
  have hitems := hlooked.trans htaken
  have hlength : taken.length = ts.length := by
    rw [← hflags.length_eq, c.length_mayBreak, hcovers.length_eq]
  refine ⟨pre, ts, post, htokens, hbefore, hcovers, hafter, fun d hd ↦ ?_, fun hone i t u ht hu hnot ↦
    sameLine_of_not_encloses htokens hcovers hlooked hreads hone.showsLineEnds ht hu hnot⟩
  obtain ⟨ds, rfl⟩ := List.head?_eq_some_iff.1 hd
  have hts : ts ≠ [] := by
    rintro rfl
    exact c.pieces_ne_nil (List.forall₂_nil_right_iff.1 hcovers)
  exact (hprogram.endsLine_or (hreads.stops hc)).imp_right fun ⟨u, hu⟩ ↦
    line_lt_of_head? htokens hitems hlength hts hys hu

theorem one_statement_per_line_call : ∃ program c d,
    parse "x = f(a,\n  b)\ny" = .ok program ∧ program.constructs = [c, d] ∧ c.isStatement = true ∧
      ∃ ts post, tokenize "x = f(a,\n  b)\ny" = .ok (ts ++ post).toArray ∧ Covers c.pieces ts ∧
        (∃ t ∈ ts.getLast?, ∃ u ∈ post.head?, t.span.stop.line < u.span.start.line) ∧
        ∀ (i : Nat) (t u : Token), ts[i]? = some t → ts[i + 1]? = some u → ¬ c.Encloses t u → t.SameLine u := by
  have hstatements : (parse "x = f(a,\n  b)\ny").toOption.map (·.constructs.map Construct.isStatement) =
      some [true, true] := by decide +kernel
  have hone : CommentsOnLine "x = f(a,\n  b)\ny" := by
    intro tokens htokens
    have hcomments : ((Lexer.ofSource "x = f(a,\n  b)\ny" true).readAll.toOption.map fun tokens ↦
        tokens.all (·.kind ≠ .blockComment)) = some true := by decide +kernel
    rw [htokens] at hcomments
    intro t ht hk
    have hall := Array.all_eq_true_iff_forall_mem.1 (Option.some.inj hcomments) t ht
    exact absurd hk (of_decide_eq_true hall)
  cases hparse : parse "x = f(a,\n  b)\ny" with
  | error e => simp [hparse, Except.toOption] at hstatements
  | ok program =>
    rw [hparse] at hstatements
    obtain ⟨c, cs, hp, hc, hcs⟩ := List.map_eq_cons_iff.1 (Option.some.inj hstatements)
    obtain ⟨d, cs, rfl, hd, hcs⟩ := List.map_eq_cons_iff.1 hcs
    obtain rfl := List.map_eq_nil_iff.1 hcs
    obtain ⟨pre, ts, post, htokens, hpre, hcovers, -, hlines, hsame⟩ :=
      @one_statement_per_line _ program hparse [] [d] c hp hc
    cases hpre
    refine ⟨program, c, d, rfl, hp, hc, ts, post, htokens, hcovers, ?_, hsame hone⟩
    refine (hlines d rfl).resolve_left ?_
    rintro ⟨brace, rfl⟩
    cases hd

end Linewise
