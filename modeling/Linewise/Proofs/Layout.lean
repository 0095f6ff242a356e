import Linewise.Proofs.Delimiters
import Linewise.Proofs.FurtherLines
import Linewise.Proofs.Lossless
import Linewise.Proofs.RelocatedReading
import Linewise.Proofs.Rereading
import Linewise.Proofs.RoundTrip
import Linewise.Proofs.Successive

namespace Linewise

open Upcoming

/-- `Relaid flags xs ys`: the same tokens and the same error lie ahead in both, one for each flag. In front
of what has no flag set a line ends in both or in neither. -/
inductive Relaid : List Bool → List Upcoming → List Upcoming → Prop
  | nil : Relaid [] [] []
  | cons {may later later' : Bool} {content : Except LexicalError Token} {flags : List Bool}
      {xs ys : List Upcoming} : (may = false → later' = later) → Relaid flags xs ys →
      Relaid (may :: flags) (⟨later, content⟩ :: xs) (⟨later', content⟩ :: ys)

def Fixed (flags : List Bool) : Prop := flags.head? ≠ some true

theorem Fixed.nil : Fixed [] := nofun

theorem Fixed.cons (flags : List Bool) : Fixed (false :: flags) := by simp [Fixed]

theorem Fixed.append {flags more : List Bool} (h : Fixed flags) (h' : Fixed more) :
    Fixed (flags ++ more) := by
  cases flags with
  | nil => exact h'
  | cons may flags => exact h

variable {flags flags' : List Bool} {xs ys zs xs' ys' zs' : List Upcoming}

namespace Relaid

theorem sameContents (h : Relaid flags xs ys) : SameContents xs ys := by
  induction h with
  | nil => rfl
  | cons _ _ ih => exact congrArg (_ :: ·) ih

theorem drop (h : Relaid flags xs ys) (n : Nat) : Relaid (flags.drop n) (xs.drop n) (ys.drop n) := by
  induction h generalizing n with
  | nil =>
    rw [List.drop_nil, List.drop_nil]
    exact .nil
  | cons hmay h ih =>
    cases n with
    | zero => exact .cons hmay h
    | succ n => exact ih n

theorem of_suffix (h : Relaid (flags ++ flags') xs xs') (hz : zs <:+ xs) (hz' : zs' <:+ xs')
    (hl : xs.length = flags.length + zs.length) (hl' : xs'.length = flags.length + zs'.length) :
    Relaid flags' zs zs' := by
  have hdrop := h.drop flags.length
  rw [List.suffix_iff_eq_drop.1 hz, List.suffix_iff_eq_drop.1 hz', hl, hl', Nat.add_sub_cancel,
    Nat.add_sub_cancel]
  rwa [List.drop_left] at hdrop

theorem after_close {ps : List Piece} {closeToken : Token} {ws ws' : List Upcoming}
    (h : Relaid (List.replicate (ps.length + 1) true ++ flags) xs xs') (hs : Spells xs ps zs)
    (hn : Next true zs closeToken ws) (hs' : Spells xs' ps zs') (hn' : Next true zs' closeToken ws') :
    Relaid flags ws ws' := by
  have hsuffix {xs zs ws : List Upcoming} (hs : Spells xs ps zs) (hn : Next true zs closeToken ws) :
      ws <:+ xs := by
    obtain ⟨tokens, hleads, -⟩ := hs
    exact hleads.suffix hn
  refine h.of_suffix (hsuffix hs hn) (hsuffix hs' hn') ?_ ?_
  · rw [hs.length, hn.length, List.length_replicate]
    omega
  · rw [hs'.length, hn'.length, List.length_replicate]
    omega

end Relaid

namespace Upcoming

theorem Next.relaid {b : Bool} {token : Token} (h : Next b xs token ys) (hr : Relaid flags xs xs')
    (hf : Fixed flags) : ∃ ys', Next b xs' token ys' ∧ Relaid flags.tail ys ys' := by
  obtain ⟨later, rfl, reach⟩ := h
  cases hr with
  | @cons may _ later' _ _ _ ys' hmay hr =>
    obtain rfl := hmay (by simpa [Fixed] using hf)
    exact ⟨ys', ⟨later', rfl, reach⟩, hr⟩

theorem Next.relaid_givenBack {b : Bool} {token : Token} (h : Next b xs token ys)
    (hr : Relaid flags xs xs') (hf : Fixed flags) :
    ∃ ys', Next b xs' token ys' ∧ Relaid flags (givenBack token :: ys) (givenBack token :: ys') := by
  obtain ⟨later, rfl, reach⟩ := h
  cases hr with
  | @cons may _ later' _ _ _ ys' hmay hr =>
    obtain rfl := hmay (by simpa [Fixed] using hf)
    exact ⟨ys', ⟨later', rfl, reach⟩, .cons (fun _ ↦ rfl) hr⟩

theorem Stops.relaid {ends : TokenKind → Prop} (h : Stops false ends xs) (hr : Relaid flags xs xs')
    (hf : Fixed flags) : Stops false ends xs' := by
  cases hr with
  | nil => exact h
  | cons hmay hr =>
    obtain rfl := hmay (by simpa [Fixed] using hf)
    exact h

end Upcoming

/-- The flags that a phrase brings with it. -/
def Phrase.MayBreak : Phrase → List Bool → Prop
  | primary e, flags | operand e, flags | expression _ e, flags => flags = e.mayBreak
  | suffix start e, flags | suffixes start e, flags | operators _ start e, flags =>
    e.mayBreak = start.mayBreak ++ flags
  | arguments _ _, _ => True

theorem Reads.spells_arguments {b : Bool} {args : List Expr} {closeToken : Token}
    (h : Reads b (.arguments args closeToken) xs ys) :
    ∃ zs, Spells xs (Expr.argumentPieces args) zs ∧ Next true zs closeToken ys := by
  generalize hp : Phrase.arguments args closeToken = phrase at h
  induction h generalizing args with
  | lastArgument hr hc _ =>
    cases hp
    rw [Expr.argumentPieces]
    exact ⟨_, hr.spells_expression, hc⟩
  | moreArguments hr hc hk hmore _ ih =>
    cases hp
    obtain ⟨zs, hs, hclose⟩ := ih rfl
    obtain ⟨_, ⟨hne, -⟩, -⟩ := hmore.spells
    rw [Expr.argumentPieces_cons hne]
    exact ⟨zs, hr.spells_expression.append (.cons hc hk hs), hclose⟩
  | _ => cases hp

def ReadsRelaid (flags : List Bool) (phrase : Phrase) (xs ys : List Upcoming) : Prop :=
  ∀ more xs', Fixed more → Relaid (flags ++ more) xs xs' →
    ∃ ys', Reads false phrase xs' ys' ∧ Relaid more ys ys'

theorem ReadsRelaid.append {first second phrase : Phrase} (h : ReadsRelaid flags first xs ys)
    (h' : ReadsRelaid flags' second ys zs) (hf' : Fixed flags')
    (join : ∀ {xs ys zs : List Upcoming}, Reads false first xs ys → Reads false second ys zs →
      Reads false phrase xs zs) : ReadsRelaid (flags ++ flags') phrase xs zs := by
  intro more xs' hf hr
  rw [List.append_assoc] at hr
  obtain ⟨ys', hfirst, hr⟩ := h _ _ (hf'.append hf) hr
  obtain ⟨zs', hsecond, hr⟩ := h' _ _ hf hr
  exact ⟨zs', join hfirst hsecond, hr⟩

/-- Outside brackets a phrase is read again when lines end elsewhere in its brackets. -/
theorem Reads.relaid {phrase : Phrase} (h : Reads false phrase xs ys) :
    ∃ flags, phrase.MayBreak flags ∧ Fixed flags ∧ ReadsRelaid flags phrase xs ys := by
  generalize hb : false = b at h
  -- What stands between brackets is reread as a whole, wherever lines end there, and its flags are used up at
  -- once.
  induction h with
  | literal hn =>
    subst hb
    refine ⟨[false], rfl, .cons [], fun more xs' _ hr ↦ ?_⟩
    obtain ⟨ys', hn, hr⟩ := hn.relaid hr (.cons _)
    exact ⟨ys', .literal hn, hr⟩
  | name hn =>
    subst hb
    refine ⟨[false], rfl, .cons [], fun more xs' _ hr ↦ ?_⟩
    obtain ⟨ys', hn, hr⟩ := hn.relaid hr (.cons _)
    exact ⟨ys', .name hn, hr⟩
  | dereference hn hk hn' =>
    subst hb
    refine ⟨[false, false], rfl, .cons _, fun more xs' _ hr ↦ ?_⟩
    obtain ⟨_, hn, hr⟩ := hn.relaid hr (.cons _)
    obtain ⟨ys', hn', hr⟩ := hn'.relaid hr (.cons _)
    exact ⟨ys', .dereference hn hk hn', hr⟩
  | group hn hk hi hc hkc =>
    subst hb
    refine ⟨_, rfl, .cons _, fun more xs' _ hr ↦ ?_⟩
    rw [Expr.mayBreak] at hr
    obtain ⟨_, hn, hr⟩ := hn.relaid hr (.cons _)
    obtain ⟨_, hi', hs⟩ := hi.reread hr.sameContents
    obtain ⟨ws', hc', -⟩ := hc.reread hs
    exact ⟨ws', .group hn hk hi' hc' hkc,
      hr.after_close hi.spells_expression hc hi'.spells_expression hc'⟩
  | emptyCall hn hk hc hkc =>
    subst hb
    refine ⟨false :: [true], rfl, .cons _, fun more xs' _ hr ↦ ?_⟩
    obtain ⟨_, hn, hr⟩ := hn.relaid hr (.cons _)
    obtain ⟨zs', hc', -⟩ := hc.reread hr.sameContents
    have hs (xs : List Upcoming) : Spells xs [] xs := ⟨[], .here rfl, .nil⟩
    exact ⟨zs', .emptyCall hn hk hc' hkc, hr.after_close (hs _) hc (hs _) hc'⟩
  | call hn hk hstop ha =>
    subst hb
    refine ⟨false :: List.replicate _ true, rfl, .cons _, fun more xs' _ hr ↦ ?_⟩
    obtain ⟨_, hn, hr⟩ := hn.relaid hr (.cons _)
    obtain ⟨zs', ha', -⟩ := ha.reread (hr.sameContents.looked true)
    obtain ⟨_, hs, hc⟩ := ha.spells_arguments
    obtain ⟨_, hs', hc'⟩ := ha'.spells_arguments
    exact ⟨zs', .call hn hk (hstop.reread hr.sameContents) ha',
      hr.after_close hs.of_looked hc hs'.of_looked hc'⟩
  | index hn hk hi hc hkc =>
    subst hb
    refine ⟨false :: List.replicate _ true, rfl, .cons _, fun more xs' _ hr ↦ ?_⟩
    obtain ⟨_, hn, hr⟩ := hn.relaid hr (.cons _)
    obtain ⟨_, hi', hs⟩ := hi.reread hr.sameContents
    obtain ⟨ws', hc', -⟩ := hc.reread hs
    exact ⟨ws', .index hn hk hi' hc' hkc,
      hr.after_close hi.spells_expression hc hi'.spells_expression hc'⟩
  | @noSuffix b e _ hstop =>
    subst hb
    refine ⟨[], (List.append_nil _).symm, .nil, fun more xs' hf hr ↦ ?_⟩
    have hread : Reads false (.suffixes e e) xs' _ := .noSuffix (hstop.relaid hr hf)
    rw [looked_false] at hread ⊢
    exact ⟨xs', hread, hr⟩
  | moreSuffixes _ _ ih₁ ih₂ =>
    obtain ⟨flags₁, hm₁, hf₁, hr₁⟩ := ih₁ hb
    obtain ⟨flags₂, hm₂, hf₂, hr₂⟩ := ih₂ hb
    subst hb
    refine ⟨flags₁ ++ flags₂, ?_, hf₁.append hf₂, hr₁.append hr₂ hf₂ .moreSuffixes⟩
    simp only [Phrase.MayBreak] at hm₁ hm₂ ⊢
    rw [hm₂, hm₁, List.append_assoc]
  | suffixed _ _ ih₁ ih₂ =>
    obtain ⟨flags₁, hm₁, hf₁, hr₁⟩ := ih₁ hb
    obtain ⟨flags₂, hm₂, hf₂, hr₂⟩ := ih₂ hb
    subst hb
    refine ⟨flags₁ ++ flags₂, ?_, hf₁.append hf₂, hr₁.append hr₂ hf₂ .suffixed⟩
    simp only [Phrase.MayBreak] at hm₁ hm₂ ⊢
    rw [hm₂, hm₁]
  | unary hn hk _ ih =>
    obtain ⟨flags, hm, -, hr⟩ := ih hb
    subst hb
    refine ⟨false :: flags, congrArg _ hm, .cons _, fun more xs' hf hr' ↦ ?_⟩
    obtain ⟨_, hn, hr'⟩ := hn.relaid hr' (.cons _)
    obtain ⟨zs', he, hr'⟩ := hr _ _ hf hr'
    exact ⟨zs', .unary hn hk he, hr'⟩
  | lastArgument | moreArguments => cases hb
  | @noOperator b least e _ hstop =>
    subst hb
    refine ⟨[], (List.append_nil _).symm, .nil, fun more xs' hf hr ↦ ?_⟩
    have hread : Reads false (.operators least e e) xs' _ := .noOperator (hstop.relaid hr hf)
    rw [looked_false] at hread ⊢
    exact ⟨xs', hread, hr⟩
  | operator hn hp hle _ hj _ ih₁ ih₂ =>
    obtain ⟨flags₁, hm₁, hf₁, hr₁⟩ := ih₁ hb
    obtain ⟨flags₂, hm₂, hf₂, hr₂⟩ := ih₂ hb
    subst hb
    refine ⟨false :: (flags₁ ++ flags₂), ?_, .cons _, fun more xs' hf hr ↦ ?_⟩
    · simp only [Phrase.MayBreak] at hm₁ hm₂ ⊢
      rw [hm₂, Expr.mayBreak_of_joins hj, hm₁, List.append_assoc, List.cons_append]
    · rw [List.cons_append, List.append_assoc] at hr
      obtain ⟨_, hn, hr⟩ := hn.relaid hr (.cons _)
      obtain ⟨_, he, hr⟩ := hr₁ _ _ (hf₂.append hf) hr
      obtain ⟨ws', hm, hr⟩ := hr₂ _ _ hf hr
      exact ⟨ws', .operator hn hp hle he hj hm, hr⟩
  | expression _ _ ih₁ ih₂ =>
    obtain ⟨flags₁, hm₁, hf₁, hr₁⟩ := ih₁ hb
    obtain ⟨flags₂, hm₂, hf₂, hr₂⟩ := ih₂ hb
    subst hb
    refine ⟨flags₁ ++ flags₂, ?_, hf₁.append hf₂, hr₁.append hr₂ hf₂ .expression⟩
    simp only [Phrase.MayBreak] at hm₁ hm₂ ⊢
    rw [hm₂, hm₁]

theorem Reads.relaid_expression {least : Nat} {e : Expr} (h : Reads false (.expression least e) xs ys) :
    Fixed e.mayBreak ∧ ReadsRelaid e.mayBreak (.expression least e) xs ys := by
  obtain ⟨_, rfl, hf, hr⟩ := h.relaid
  exact ⟨hf, hr⟩

theorem ReadsConstruct.fixed {c : Construct} (h : ReadsConstruct xs c ys) : Fixed c.mayBreak := by
  cases h with
  | expression _ _ he _ => exact he.relaid_expression.1
  | _ => exact .cons _

theorem between_spells {f : FunctionHeader} {ws : List Upcoming} (hn : Next true xs f.name.token ys)
    (ho : Next true ys f.openParen zs) (hp : ReadsParameters .nameOrClose f.parameters f.closeParen zs ws)
    (ht : ReadsType .arrow f.returnType ws zs') : Spells xs f.between zs' :=
  .cons hn rfl (.cons ho rfl (hp.spells.append ht.spells))

/-- A construct is read again when lines end elsewhere in its brackets, or anywhere in the header of a
function. -/
theorem ReadsConstruct.relaid {c : Construct} (h : ReadsConstruct xs c ys)
    (hr : Relaid (c.mayBreak ++ flags) xs xs') (hf : Fixed flags) :
    ∃ ys', ReadsConstruct xs' c ys' ∧ Relaid flags ys ys' := by
  cases h with
  | openBrace hn hk =>
    obtain ⟨ys', hn, hr⟩ := hn.relaid hr (.cons _)
    exact ⟨ys', .openBrace hn hk, hr⟩
  | closeBrace hn hk =>
    obtain ⟨ys', hn, hr⟩ := hn.relaid hr (.cons _)
    exact ⟨ys', .closeBrace hn hk, hr⟩
  | pass hn hk hstop =>
    obtain ⟨ys', hn, hr⟩ := hn.relaid hr (.cons _)
    exact ⟨ys', .pass hn hk (hstop.relaid hr hf), hr⟩
  | «break» hn hk hstop =>
    obtain ⟨ys', hn, hr⟩ := hn.relaid hr (.cons _)
    exact ⟨ys', .break hn hk (hstop.relaid hr hf), hr⟩
  | returnNothing hn hk hstop =>
    obtain ⟨ys', hn, hr⟩ := hn.relaid hr (.cons _)
    exact ⟨ys', .returnNothing hn hk (hstop.relaid hr hf), hr⟩
  | returnValue hn hk hn' hk' he hstop =>
    obtain ⟨hfixed, hrelaid⟩ := he.relaid_expression
    obtain ⟨_, hn, hr⟩ := hn.relaid hr (.cons _)
    obtain ⟨_, hn', -⟩ := hn'.relaid hr (hfixed.append hf)
    obtain ⟨ys', he, hr⟩ := hrelaid _ _ hf hr
    exact ⟨ys', .returnValue hn hk hn' hk' he (hstop.relaid hr hf), hr⟩
  | function hn hk hn₁ hn₂ hk₂ hp ht hn₃ hk₃ =>
    obtain ⟨_, hn, hr⟩ := hn.relaid hr (.cons _)
    obtain ⟨_, hn₁', hs⟩ := hn₁.reread hr.sameContents
    obtain ⟨_, hn₂', hs⟩ := hn₂.reread hs
    obtain ⟨_, hp', hs⟩ := hp.reread hs
    obtain ⟨_, ht', hs⟩ := ht.reread hs
    obtain ⟨ys', hn₃', -⟩ := hn₃.reread hs
    exact ⟨ys', .function hn hk hn₁' hn₂' hk₂ hp' ht' hn₃' hk₃,
      hr.after_close (between_spells hn₁ hn₂ hp ht) hn₃ (between_spells hn₁' hn₂' hp' ht') hn₃'⟩
  | expression hn hk he hstop =>
    obtain ⟨hfixed, hrelaid⟩ := he.relaid_expression
    obtain ⟨_, hn, hr⟩ := hn.relaid_givenBack hr (hfixed.append hf)
    obtain ⟨ys', he, hr⟩ := hrelaid _ _ hf hr
    exact ⟨ys', .expression hn hk he (hstop.relaid hr hf), hr⟩

theorem ReadsProgram.fixed {cs : List Construct} (h : ReadsProgram xs cs) :
    Fixed (cs.flatMap (·.mayBreak)) := by
  induction h with
  | done => exact .nil
  | construct hc _ ih => exact hc.fixed.append ih

/-- Constructs are read again when lines end elsewhere, as far as the flags allow it. -/
theorem ReadsProgram.relaid {cs : List Construct} (h : ReadsProgram xs cs)
    (hr : Relaid (cs.flatMap (·.mayBreak)) xs xs') : ReadsProgram xs' cs := by
  induction h generalizing xs' with
  | done =>
    cases hr
    exact .done
  | @construct c cs xs ys hc hcs ih =>
    rw [List.flatMap_cons] at hr
    obtain ⟨ys', hc', hr⟩ := hc.relaid hr hcs.fixed
    exact .construct hc' (ih hr)

theorem relaid_marked {marks marks' : List Bool} {tokens : List Token} (hm : marks.length = tokens.length)
    (hm' : marks'.length = tokens.length) (hf : flags.length = tokens.length)
    (h : ∀ j : Nat, flags[j]? = some false → marks'[j]? = marks[j]?) :
    Relaid flags (marked marks tokens) (marked marks' tokens) := by
  induction tokens generalizing flags marks marks' with
  | nil =>
    obtain rfl := List.length_eq_zero_iff.1 hf
    obtain rfl := List.length_eq_zero_iff.1 hm
    obtain rfl := List.length_eq_zero_iff.1 hm'
    exact .nil
  | cons t ts ih =>
    obtain ⟨may, flags, rfl⟩ := List.exists_cons_of_length_eq_add_one hf
    obtain ⟨mark, marks, rfl⟩ := List.exists_cons_of_length_eq_add_one hm
    obtain ⟨mark', marks', rfl⟩ := List.exists_cons_of_length_eq_add_one hm'
    refine .cons (fun hmay ↦ ?_) (ih (Nat.succ.inj hm) (Nat.succ.inj hm') (Nat.succ.inj hf) fun j ↦ h (j + 1))
    subst hmay
    exact Option.some.inj (h 0 rfl)

/-- Whatever places tokens have, others of the same kinds are like them but for their places. -/
theorem exists_relocation {ts us : List Token} (hk : ts.map Token.kind = us.map Token.kind)
    (hn : (ts.map Token.span).Nodup) : ∃ g : Span → Span, ts.map (Token.relocate g) = us := by
  induction ts generalizing us with
  | nil => exact ⟨id, (List.map_eq_nil_iff.1 hk.symm).symm⟩
  | cons t ts ih =>
    obtain ⟨u, us, rfl, hu, hk⟩ := List.map_eq_cons_iff.1 hk.symm
    obtain ⟨hnot, hn⟩ := List.nodup_cons.1 hn
    obtain ⟨g, rfl⟩ := ih hk.symm hn
    refine ⟨Function.update g t.span u.span, ?_⟩
    rw [List.map_cons]
    refine congrArg₂ _ ?_ (List.map_congr_left fun t' ht' ↦ ?_)
    · rw [Token.relocate, Function.update_self, ← hu]
    · rw [Token.relocate, Token.relocate, Function.update_of_ne]
      exact fun heq ↦ hnot (heq ▸ List.mem_map_of_mem ht')

/-- The text consists of the given tokens, and has no comments. -/
def CommentFree (source : String) (tokens : Array Token) : Prop :=
  (Lexer.ofSource source true).readAll = .ok tokens ∧ ∀ t ∈ tokens, t.kind.isComment = false

def Token.SameLine (t u : Token) : Prop := t.span.stop.line = u.span.start.line
deriving Decidable

def Token.LiesBetween (t : Token) (d : Token × Token) : Prop :=
  d.1.span.start ≤ t.span.start ∧ t.span.stop ≤ d.2.span.stop
deriving Decidable

/-- Both tokens stand between the delimiters of one group, call or index, or of one function header. -/
def Program.Encloses (p : Program) (t u : Token) : Prop :=
  ∃ d ∈ p.delimiters, t.LiesBetween d ∧ u.LiesBetween d

theorem getElem?_lineBreaks {line i : Nat} {tokens : List Token} {t u : Token} (ht : tokens[i]? = some t)
    (hu : tokens[i + 1]? = some u) :
    (lineBreaks line tokens)[i + 1]? = some (decide (t.span.stop.line < u.span.start.line)) := by
  induction tokens generalizing line i with
  | nil => cases ht
  | cons first tokens ih =>
    rw [lineBreaks, List.getElem?_cons_succ]
    cases i with
    | zero =>
      cases ht
      obtain ⟨tokens, rfl⟩ := List.head?_eq_some_iff.1 (List.head?_eq_getElem? ▸ hu)
      rfl
    | succ i => exact ih ht hu

theorem map_relocate_marked (g : Span → Span) (marks : List Bool) (tokens : List Token) :
    (marked marks tokens).map (Upcoming.relocate g) = marked marks (tokens.map (Token.relocate g)) := by
  rw [marked, marked, List.map_zipWith, List.zipWith_map_right]
  rfl

namespace CommentFree

variable {source : String} {tokens : Array Token} {t u : Token} {i j : Nat}

theorem upcoming (h : CommentFree source tokens) :
    (Parser.ofSource source).upcoming = marked (lineBreaks 0 tokens.toList) tokens.toList := by
  have hnone : withoutComments tokens.toList = tokens.toList :=
    List.filter_eq_self.2 fun t ht ↦ by rw [h.2 t (Array.mem_toList_iff.1 ht)]; rfl
  have hbreaks := openBreaks_withoutComments 0 tokens.toList
  rw [hnone] at hbreaks
  have hread : (Lexer.ofText source.toList true).readAll = .ok tokens := h.1
  have hupcoming := Lexer.upcoming_of_readAll hread
  rwa [hbreaks, hnone] at hupcoming

theorem tokenize_eq (h : CommentFree source tokens) : tokenize source = .ok tokens := by
  have hupcoming : (Lexer.ofSource source false).upcoming = _ := h.upcoming
  rw [tokenize_eq_ok, hupcoming, map_content_marked (length_lineBreaks 0 _)]

theorem successive (h : CommentFree source tokens) : Successive tokens.toList := Lexer.successive_of_readAll h.1

theorem sameLine_iff (h : CommentFree source tokens) (ht : tokens[i]? = some t)
    (hu : tokens[i + 1]? = some u) : t.SameLine u ↔ ¬ t.span.stop.line < u.span.start.line := by
  rw [← Array.getElem?_toList] at ht hu
  have hbefore := h.successive.before_of_lt ht hu (Nat.lt_succ_self i)
  rw [Position.Before] at hbefore
  rw [Token.SameLine]
  omega

theorem lineBreaks_zero (h : CommentFree source tokens) (ht : tokens[0]? = some t) :
    (lineBreaks 0 tokens.toList)[0]? = some true := by
  have hends := Lexer.endsLine_ofText source.toList false
  have hupcoming : (Lexer.ofText source.toList false).upcoming = _ := h.upcoming
  rw [hupcoming] at hends
  rw [← Array.getElem?_toList] at ht
  obtain ⟨ts, hts⟩ := List.head?_eq_some_iff.1 (List.head?_eq_getElem? ▸ ht)
  rw [hts] at hends ⊢
  exact congrArg some (hends _ rfl)

end CommentFree

theorem Covers.getElem?_kept {ps : List Piece} {ts : List Token} {token : Token} {i : Nat}
    (h : Covers ps ts) (hp : ps[i]? = some (.kept token)) : ts[i]? = some token := by
  induction h generalizing i with
  | nil => cases hp
  | cons hpiece _ ih =>
    cases i with
    | zero =>
      cases hp
      exact congrArg some hpiece
    | succ i => exact ih hp

/-- Between two delimiters a line may end in front of every token but the first. -/
theorem Delimits.getElem?_of_between {ps : List Piece} {d : Token × Token} {ts : List Token} {t u : Token}
    {i : Nat} (h : Delimits ps flags d) (hc : Covers ps ts) (ho : Successive ts) (ht : ts[i]? = some t)
    (hu : ts[i + 1]? = some u) (hopen : t.LiesBetween d) (hclose : u.LiesBetween d) :
    flags[i + 1]? = some true := by
  obtain ⟨a, b, ha, hb, hbetween⟩ := h
  exact hbetween _ (Nat.lt_succ_of_le (ho.le_of_start_le (hc.getElem?_kept ha) ht hopen.1))
    (ho.le_of_stop_le hu (hc.getElem?_kept hb) hclose.2)

section

variable {s₁ s₂ : String} {ts₁ ts₂ : Array Token}

/-- In front of a token a line ends in both texts or in neither, if that is so after the token before. -/
theorem lineBreaks_eq_of_sameLine {j : Nat} (h₁ : CommentFree s₁ ts₁) (h₂ : CommentFree s₂ ts₂)
    (hj₁ : j < ts₁.size) (hj₂ : j < ts₂.size)
    (hsame : ∀ (i : Nat) (t₁ u₁ t₂ u₂ : Token), i + 1 = j → ts₁[i]? = some t₁ → ts₁[i + 1]? = some u₁ →
      ts₂[i]? = some t₂ → ts₂[i + 1]? = some u₂ → (t₁.SameLine u₁ ↔ t₂.SameLine u₂)) :
    (lineBreaks 0 ts₂.toList)[j]? = (lineBreaks 0 ts₁.toList)[j]? := by
  have hu₁ := Array.getElem?_eq_getElem hj₁
  have hu₂ := Array.getElem?_eq_getElem hj₂
  cases j with
  | zero => rw [h₂.lineBreaks_zero hu₂, h₁.lineBreaks_zero hu₁]
  | succ i =>
    have ht₁ := Array.getElem?_eq_getElem (Nat.lt_of_succ_lt hj₁)
    have ht₂ := Array.getElem?_eq_getElem (Nat.lt_of_succ_lt hj₂)
    have hlines := hsame i _ _ _ _ rfl ht₁ hu₁ ht₂ hu₂
    rw [h₁.sameLine_iff ht₁ hu₁, h₂.sameLine_iff ht₂ hu₂, not_iff_not] at hlines
    rw [← Array.getElem?_toList] at ht₁ ht₂ hu₁ hu₂
    rw [getElem?_lineBreaks ht₁ hu₁, getElem?_lineBreaks ht₂ hu₂]
    exact congrArg some (decide_eq_decide.2 hlines.symm)

/-- Layout between delimiters and in function headers does not matter. Where a text without comments is
accepted, and another one has the same tokens, with the same of them on one line except between such
delimiters, the other one is accepted too, with the same outcome up to places. -/
theorem parse_of_sameLayout {m₁ : Program} (h₁ : CommentFree s₁ ts₁) (h₂ : CommentFree s₂ ts₂)
    (hkinds : ts₁.toList.map Token.kind = ts₂.toList.map Token.kind) (hparse : parse s₁ = .ok m₁)
    (hlines : ∀ (i : Nat) (t₁ u₁ t₂ u₂ : Token), ts₁[i]? = some t₁ → ts₁[i + 1]? = some u₁ →
      ts₂[i]? = some t₂ → ts₂[i + 1]? = some u₂ → ¬ m₁.Encloses t₁ u₁ →
      (t₁.SameLine u₁ ↔ t₂.SameLine u₂)) :
    ∃ m₂, parse s₂ = .ok m₂ ∧ m₂.erase = m₁.erase := by
  have hcovers := covers_of_parse hparse h₁.tokenize_eq
  have hsize : ts₁.size = ts₂.size := by
    simpa using congrArg List.length hkinds
  have hrelaid : Relaid m₁.mayBreak (marked (lineBreaks 0 ts₁.toList) ts₁.toList)
      (marked (lineBreaks 0 ts₂.toList) ts₁.toList) := by
    refine relaid_marked (length_lineBreaks 0 _) ((length_lineBreaks 0 _).trans hsize.symm)
      (m₁.length_mayBreak.trans hcovers.length_eq) fun j hj ↦ ?_
    have hj₁ : j < ts₁.size := by
      have hlt := (List.getElem?_eq_some_iff.1 hj).1
      rwa [m₁.length_mayBreak, hcovers.length_eq] at hlt
    refine lineBreaks_eq_of_sameLine h₁ h₂ hj₁ (hsize ▸ hj₁) fun i t₁ u₁ t₂ u₂ hi ht₁ hu₁ ht₂ hu₂ ↦ ?_
    subst hi
    refine hlines i t₁ u₁ t₂ u₂ ht₁ hu₁ ht₂ hu₂ fun ⟨d, hd, hopen, hclose⟩ ↦ ?_
    rw [← Array.getElem?_toList] at ht₁ hu₁
    rw [(m₁.delimits d hd).getElem?_of_between hcovers h₁.successive ht₁ hu₁ hopen hclose] at hj
    cases hj
  -- The program is read again with the line ends of the second text, and then from its tokens.
  obtain ⟨g, hg⟩ := exists_relocation hkinds h₁.successive.nodup_spans
  have hreads := (readsProgram_of_parse hparse).1
  rw [h₁.upcoming] at hreads
  have hreads₂ := (hreads.relaid hrelaid).relocate (g := g)
  rw [map_relocate_marked, hg, ← h₂.upcoming] at hreads₂
  have herase : m₁.erase = Program.erase ⟨m₁.constructs.map (Construct.relocate g)⟩ := by
    rw [Program.erase, Program.erase, List.map_map]
    exact congrArg _ (List.map_congr_left fun c _ ↦ c.erase_relocate.symm)
  exact ⟨_, parse_of_readsProgram hreads₂ (need_le_of_parse hparse herase), herase.symm⟩

end

theorem parse_of_sameLayout_group : ∃ m₁ m₂, parse "x = (a\n)\ny" = .ok m₁ ∧
    parse "x = (\na)\n\ny" = .ok m₂ ∧ m₂.erase = m₁.erase := by
  let ts₁ : Array Token := #[⟨.identifier "x", .onLine 1 0 0⟩, ⟨.assignment, .onLine 1 2 2⟩,
    ⟨.openParen, .onLine 1 4 4⟩, ⟨.identifier "a", .onLine 1 5 5⟩, ⟨.closeParen, .onLine 2 0 0⟩,
    ⟨.identifier "y", .onLine 3 0 0⟩]
  let ts₂ : Array Token := #[⟨.identifier "x", .onLine 1 0 0⟩, ⟨.assignment, .onLine 1 2 2⟩,
    ⟨.openParen, .onLine 1 4 4⟩, ⟨.identifier "a", .onLine 2 0 0⟩, ⟨.closeParen, .onLine 2 1 1⟩,
    ⟨.identifier "y", .onLine 4 0 0⟩]
  have hdelimiters : (parse "x = (a\n)\ny").toOption.map Program.delimiters =
      some [(⟨.openParen, .onLine 1 4 4⟩, ⟨.closeParen, .onLine 2 0 0⟩)] := by decide +kernel
  cases hp : parse "x = (a\n)\ny" with
  | error e => simp [hp, Except.toOption] at hdelimiters
  | ok m₁ =>
    have h₁ : CommentFree "x = (a\n)\ny" ts₁ := ⟨by decide +kernel, by decide⟩
    have h₂ : CommentFree "x = (\na)\n\ny" ts₂ := ⟨by decide +kernel, by decide⟩
    simp only [hp, Except.toOption, Option.map_some, Option.some.injEq] at hdelimiters
    obtain ⟨m₂, hm₂, herase⟩ := parse_of_sameLayout h₁ h₂ (by decide) hp (by
      intro i t₁ u₁ t₂ u₂ ht₁ hu₁ ht₂ hu₂ hnot
      rw [Program.Encloses, hdelimiters] at hnot
      rcases i with _ | _ | _ | _ | _ | i <;> cases hu₁ <;> cases ht₁ <;> cases ht₂ <;> cases hu₂
      · decide
      · decide
      · exact absurd (by decide) hnot
      · exact absurd (by decide) hnot
      · decide)
    exact ⟨m₁, m₂, rfl, hm₂, herase⟩

end Linewise
