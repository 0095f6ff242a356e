import Linewise.Proofs.BlankedLexing
import Linewise.Proofs.Parser.ProgramCompleteness
import Linewise.Proofs.ProgramReading

namespace Linewise

open Upcoming

/-- The end of the phrase shows in what comes after it. -/
def Phrase.EndsOpen : Phrase → Prop
  | primary _ | suffix _ _ | arguments _ _ => False
  | suffixes _ _ | operand _ | operators _ _ _ | expression _ _ => True

/-- The first thing in a text is found on a line of its own, after the end of nothing. -/
theorem Lexer.endsLine_ofText (source : List Char) (keepComments : Bool) :
    EndsLine (ofText source keepComments).upcoming := by
  rw [upcoming_of_not_held rfl, ahead_of_blank false rfl, ← ahead_of_blank true rfl]
  exact fun i ↦ onLaterLine_of_head_ahead rfl

namespace Upcoming

/-- `Extends rest xs ys`: more lines follow a text in which `xs` lies ahead, and now `ys` does. What they
hold, `rest`, comes after the last token, unless the text ends in an error. Only the error of a comment
that is still open at its end may come to something else. -/
inductive Extends (rest : List Upcoming) : List Upcoming → List Upcoming → Prop
  | ended : Extends rest [] rest
  | failed {later : Bool} {e : LexicalError} {ys : List Upcoming} :
      (later = true → EndsLine ys) → (e.cause ≠ .unterminatedComment → ys = [⟨later, .error e⟩]) →
      Extends rest [⟨later, .error e⟩] ys
  | token {later : Bool} {t : Token} {xs ys : List Upcoming} :
      Extends rest xs ys → Extends rest (⟨later, .ok t⟩ :: xs) (⟨later, .ok t⟩ :: ys)

end Upcoming

variable {b : Bool} {rest xs ys zs : List Upcoming}

namespace Upcoming

theorem Extends.append {tokens : List Token} (h : xs.map (·.content) = tokens.map .ok) :
    Extends rest xs (xs ++ rest) := by
  induction xs generalizing tokens with
  | nil => exact .ended
  | cons i xs ih =>
    obtain ⟨later, content⟩ := i
    cases tokens with
    | nil => cases h
    | cons t tokens =>
      obtain ⟨rfl, hmore⟩ := List.cons.inj h
      exact .token (ih hmore)

theorem Next.ne_nil {token : Token} (h : Next b xs token ys) : xs ≠ [] := by
  obtain ⟨later, rfl, -⟩ := h
  exact List.cons_ne_nil _ _

theorem Next.extend {token : Token} (h : Next b xs token ys) (hx : Extends rest xs zs) :
    ∃ ws, Next b zs token ws ∧ Extends rest ys ws := by
  obtain ⟨later, rfl, reach⟩ := h
  cases hx with
  | token hx => exact ⟨_, ⟨later, rfl, reach⟩, hx⟩

theorem Extends.not_inReach (h : Extends rest xs ys) (hr : EndsLine rest)
    (hx : ∀ i ∈ xs.head?, ¬ i.InReach b) (hne : b = true → xs ≠ []) : ∀ i ∈ ys.head?, ¬ i.InReach b := by
  have hends : b = false → EndsLine ys → ∀ i ∈ ys.head?, ¬ i.InReach b := by
    rintro rfl hy i hi (hb | hl)
    · cases hb
    · exact absurd hl (by rw [hy i hi]; decide)
  cases h with
  | ended =>
    cases b with
    | true => exact absurd rfl (hne rfl)
    | false => exact hends rfl hr
  | @failed later e _ hlater =>
    obtain ⟨hb, hl⟩ := not_or.1 (hx _ rfl)
    exact hends (Bool.eq_false_iff.2 hb) (hlater (by simpa using hl))
  | token => exact hx

theorem Stops.extend {ends : TokenKind → Prop} (h : Stops b ends xs) (hx : Extends rest xs ys)
    (hr : EndsLine rest) (hne : b = true → xs ≠ []) : Stops b ends ys := by
  rcases h.nothing_or_next with hnone | ⟨token, zs, hn, hk⟩
  · exact fun i hi hreach ↦ absurd hreach (hx.not_inReach hr hnone hne i hi)
  · obtain ⟨ws, hn', -⟩ := hn.extend hx
    exact hn'.stops hk

theorem endsLine_looked (h : EndsLine xs) (hb : b = false) : EndsLine (looked b xs) := by
  subst hb
  rwa [looked_false]

theorem Extends.looked (h : Extends rest xs ys) (hne : b = true → xs ≠ []) :
    Extends rest (looked b xs) (looked b ys) := by
  cases h with
  | ended =>
    cases b with
    | true => exact absurd rfl (hne rfl)
    | false =>
      rw [looked_false, looked_false]
      exact .ended
  | @failed later e _ hlater hsame =>
    refine .failed (fun hl ↦ ?_) fun he ↦ by rw [hsame he]; rfl
    obtain ⟨hl, hb⟩ := Bool.and_eq_true_iff.1 hl
    exact endsLine_looked (hlater hl) (by simpa using hb)
  | token h => exact .token h

end Upcoming

theorem Reads.ne_nil {phrase : Phrase} (h : Reads b phrase xs ys) (hy : ys ≠ []) : xs ≠ [] := by
  have hl := h.length_le
  rw [← List.length_pos_iff] at *
  omega

/-- A phrase is read again in front of more lines; between brackets something has to follow it. -/
theorem Reads.extend {phrase : Phrase} (h : Reads b phrase xs ys) (hx : Extends rest xs zs)
    (hr : EndsLine rest) (hy : b = true → phrase.EndsOpen → ys ≠ []) :
    ∃ ws, Reads b phrase zs ws ∧ Extends rest ys ws := by
  -- A phrase that ends open between brackets would go on with what is put after the text: there a later line is
  -- in reach, so something of the text itself has to follow.
  induction h generalizing zs with
  | literal hn =>
    obtain ⟨ws, hn, hx⟩ := hn.extend hx
    exact ⟨ws, .literal hn, hx⟩
  | name hn =>
    obtain ⟨ws, hn, hx⟩ := hn.extend hx
    exact ⟨ws, .name hn, hx⟩
  | dereference hn hk hn' =>
    obtain ⟨_, hn, hx⟩ := hn.extend hx
    obtain ⟨ws, hn', hx⟩ := hn'.extend hx
    exact ⟨ws, .dereference hn hk hn', hx⟩
  | group hn hk _ hc hkc ih =>
    obtain ⟨_, hn, hx⟩ := hn.extend hx
    obtain ⟨_, hi, hx⟩ := ih hx fun _ _ ↦ hc.ne_nil
    obtain ⟨ws, hc, hx⟩ := hc.extend hx
    exact ⟨ws, .group hn hk hi hc hkc, hx⟩
  | emptyCall hn hk hc hkc =>
    obtain ⟨_, hn, hx⟩ := hn.extend hx
    obtain ⟨ws, hc, hx⟩ := hc.extend hx
    exact ⟨ws, .emptyCall hn hk hc hkc, hx⟩
  | @call _ _ _ _ _ _ ys _ hn hk hstop ha ih =>
    have hne : ys ≠ [] := by
      have hl := ha.length_le
      rw [length_looked, Phrase.size] at hl
      rw [← List.length_pos_iff]
      omega
    obtain ⟨_, hn, hx⟩ := hn.extend hx
    obtain ⟨ws, ha, hx'⟩ := ih (hx.looked fun _ ↦ hne) fun _ ↦ False.elim
    exact ⟨ws, .call hn hk (hstop.extend hx hr fun _ ↦ hne) ha, hx'⟩
  | index hn hk _ hc hkc ih =>
    obtain ⟨_, hn, hx⟩ := hn.extend hx
    obtain ⟨_, hi, hx⟩ := ih hx fun _ _ ↦ hc.ne_nil
    obtain ⟨ws, hc, hx⟩ := hc.extend hx
    exact ⟨ws, .index hn hk hi hc hkc, hx⟩
  | @noSuffix b _ xs hstop =>
    have hne : b = true → xs ≠ [] := fun hb h ↦ hy hb trivial (by rw [h]; rfl)
    exact ⟨_, .noSuffix (hstop.extend hx hr hne), hx.looked hne⟩
  | moreSuffixes _ _ ih₁ ih₂ =>
    obtain ⟨_, hs, hx⟩ := ih₁ hx fun _ ↦ False.elim
    obtain ⟨ws, hm, hx⟩ := ih₂ hx fun hb _ ↦ hy hb trivial
    exact ⟨ws, .moreSuffixes hs hm, hx⟩
  | suffixed _ _ ih₁ ih₂ =>
    obtain ⟨_, hp, hx⟩ := ih₁ hx fun _ ↦ False.elim
    obtain ⟨ws, hs, hx⟩ := ih₂ hx fun hb _ ↦ hy hb trivial
    exact ⟨ws, .suffixed hp hs, hx⟩
  | unary hn hk _ ih =>
    obtain ⟨_, hn, hx⟩ := hn.extend hx
    obtain ⟨ws, he, hx⟩ := ih hx fun hb _ ↦ hy hb trivial
    exact ⟨ws, .unary hn hk he, hx⟩
  | lastArgument _ hc hkc ih =>
    obtain ⟨_, ha, hx⟩ := ih hx fun _ _ ↦ hc.ne_nil
    obtain ⟨ws, hc, hx⟩ := hc.extend hx
    exact ⟨ws, .lastArgument ha hc hkc, hx⟩
  | moreArguments _ hc hkc _ ih₁ ih₂ =>
    obtain ⟨_, ha, hx⟩ := ih₁ hx fun _ _ ↦ hc.ne_nil
    obtain ⟨_, hc, hx⟩ := hc.extend hx
    obtain ⟨ws, hm, hx⟩ := ih₂ hx fun _ ↦ False.elim
    exact ⟨ws, .moreArguments ha hc hkc hm, hx⟩
  | @noOperator b _ _ xs hstop =>
    have hne : b = true → xs ≠ [] := fun hb h ↦ hy hb trivial (by rw [h]; rfl)
    exact ⟨_, .noOperator (hstop.extend hx hr hne), hx.looked hne⟩
  | operator hn hp hle _ hj hm ih₁ ih₂ =>
    obtain ⟨_, hn, hx⟩ := hn.extend hx
    obtain ⟨_, he, hx⟩ := ih₁ hx fun hb _ ↦ hm.ne_nil (hy hb trivial)
    obtain ⟨ws, hm, hx⟩ := ih₂ hx fun hb _ ↦ hy hb trivial
    exact ⟨ws, .operator hn hp hle he hj hm, hx⟩
  | expression _ hm ih₁ ih₂ =>
    obtain ⟨_, ho, hx⟩ := ih₁ hx fun hb _ ↦ hm.ne_nil (hy hb trivial)
    obtain ⟨ws, hm, hx⟩ := ih₂ hx fun hb _ ↦ hy hb trivial
    exact ⟨ws, .expression ho hm, hx⟩

theorem ReadsType.extend {mark : TokenKind} {type : Option Identifier} (h : ReadsType mark type xs ys)
    (hx : Extends rest xs zs) (hr : EndsLine rest) (hy : ys ≠ []) :
    ∃ ws, ReadsType mark type zs ws ∧ Extends rest ys ws := by
  cases h with
  | absent hstop =>
    have hne : true = true → xs ≠ [] := fun _ h ↦ hy (by rw [h]; rfl)
    exact ⟨_, .absent (hstop.extend hx hr hne), hx.looked hne⟩
  | given hn hk hn' =>
    obtain ⟨_, hn, hx⟩ := hn.extend hx
    obtain ⟨ws, hn', hx⟩ := hn'.extend hx
    exact ⟨ws, .given hn hk hn', hx⟩

theorem ReadsParameters.extend {slot : Parser.Action.ParameterSlot} {params : List Parameter}
    {closeParen : Token} (h : ReadsParameters slot params closeParen xs ys) (hx : Extends rest xs zs)
    (hr : EndsLine rest) :
    ∃ ws, ReadsParameters slot params closeParen zs ws ∧ Extends rest ys ws := by
  induction h generalizing zs with
  | close hn hk hslot =>
    obtain ⟨ws, hn, hx⟩ := hn.extend hx
    exact ⟨ws, .close hn hk hslot, hx⟩
  | comma hn hk _ ih =>
    obtain ⟨_, hn, hx⟩ := hn.extend hx
    obtain ⟨ws, hp, hx⟩ := ih hx
    exact ⟨ws, .comma hn hk hp, hx⟩
  | parameter hslot hn ht hp ih =>
    obtain ⟨_, hn, hx⟩ := hn.extend hx
    have hne := List.ne_nil_of_length_pos (Nat.zero_lt_of_lt hp.length_lt)
    obtain ⟨_, ht, hx⟩ := ht.extend hx hr hne
    obtain ⟨ws, hp, hx⟩ := ih hx
    exact ⟨ws, .parameter hslot hn ht hp, hx⟩

theorem ReadsConstruct.extend {c : Construct} (h : ReadsConstruct xs c ys) (hx : Extends rest xs zs)
    (hr : EndsLine rest) : ∃ ws, ReadsConstruct zs c ws ∧ Extends rest ys ws := by
  cases h with
  | openBrace hn hk =>
    obtain ⟨ws, hn, hx⟩ := hn.extend hx
    exact ⟨ws, .openBrace hn hk, hx⟩
  | closeBrace hn hk =>
    obtain ⟨ws, hn, hx⟩ := hn.extend hx
    exact ⟨ws, .closeBrace hn hk, hx⟩
  | pass hn hk hstop =>
    obtain ⟨ws, hn, hx⟩ := hn.extend hx
    exact ⟨ws, .pass hn hk (hstop.extend hx hr nofun), hx⟩
  | «break» hn hk hstop =>
    obtain ⟨ws, hn, hx⟩ := hn.extend hx
    exact ⟨ws, .break hn hk (hstop.extend hx hr nofun), hx⟩
  | returnNothing hn hk hstop =>
    obtain ⟨ws, hn, hx⟩ := hn.extend hx
    exact ⟨ws, .returnNothing hn hk (hstop.extend hx hr nofun), hx⟩
  | returnValue hn hk hn' hk' he hstop =>
    obtain ⟨_, hn, hx⟩ := hn.extend hx
    obtain ⟨_, hn', -⟩ := hn'.extend hx
    obtain ⟨ws, he, hx⟩ := he.extend hx hr nofun
    exact ⟨ws, .returnValue hn hk hn' hk' he (hstop.extend hx hr nofun), hx⟩
  | function hn hk hn₁ hn₂ hk₂ hp ht hn₃ hk₃ =>
    obtain ⟨_, hn, hx⟩ := hn.extend hx
    obtain ⟨_, hn₁, hx⟩ := hn₁.extend hx
    obtain ⟨_, hn₂, hx⟩ := hn₂.extend hx
    obtain ⟨_, hp, hx⟩ := hp.extend hx hr
    obtain ⟨_, ht, hx⟩ := ht.extend hx hr hn₃.ne_nil
    obtain ⟨ws, hn₃, hx⟩ := hn₃.extend hx
    exact ⟨ws, .function hn hk hn₁ hn₂ hk₂ hp ht hn₃ hk₃, hx⟩
  | expression hn hk he hstop =>
    obtain ⟨_, hn, hx⟩ := hn.extend hx
    obtain ⟨ws, he, hx⟩ := he.extend (.token hx) hr nofun
    exact ⟨ws, .expression hn hk he (hstop.extend hx hr nofun), hx⟩

end Linewise
