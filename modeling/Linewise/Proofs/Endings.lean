import Linewise.Proofs.FurtherLines
import Linewise.Proofs.RelocatedReading

namespace Linewise

open Upcoming

/-- What lies ahead, with `zs` in place of its last `n` items. -/
def replaceEnd (n : Nat) (zs xs : List Upcoming) : List Upcoming := xs.take (xs.length - n) ++ zs

variable {n : Nat} {b : Bool} {xs ys zs : List Upcoming}

theorem replaceEnd_cons (i : Upcoming) (h : n ≤ xs.length) :
    replaceEnd n zs (i :: xs) = i :: replaceEnd n zs xs := by
  rw [replaceEnd, replaceEnd, List.length_cons, Nat.succ_sub h, List.take_succ_cons, List.cons_append]

theorem replaceEnd_of_length_le (h : xs.length ≤ n) : replaceEnd n zs xs = zs := by
  rw [replaceEnd, Nat.sub_eq_zero_of_le h, List.take_zero, List.nil_append]

namespace Upcoming

def OnLine (zs : List Upcoming) : Prop := ∀ i ∈ zs.head?, i.onLaterLine = false

theorem OnLine.looked (h : OnLine zs) (b : Bool) : looked b zs = zs := by
  cases zs with
  | nil => rfl
  | cons i zs =>
    obtain ⟨later, content⟩ := i
    obtain rfl : later = false := h _ rfl
    rfl

theorem looked_replaceEnd (h : OnLine zs) (b : Bool) (xs : List Upcoming) :
    looked b (replaceEnd n zs xs) = replaceEnd n zs (looked b xs) := by
  cases xs with
  | nil =>
    rw [replaceEnd_of_length_le (Nat.zero_le n), h.looked]
    exact (replaceEnd_of_length_le (Nat.zero_le n)).symm
  | cons i xs =>
    by_cases hn : n ≤ xs.length
    · rw [replaceEnd_cons _ hn, looked, looked, replaceEnd_cons _ hn]
    · have hle : (i :: xs).length ≤ n := by simp only [List.length_cons]; omega
      rw [replaceEnd_of_length_le hle, replaceEnd_of_length_le (by rwa [length_looked]), h.looked]

theorem Next.replaceEnd {t : Token} (h : Next b xs t ys) (hn : n ≤ ys.length) :
    Next b (replaceEnd n zs xs) t (replaceEnd n zs ys) := by
  obtain ⟨later, rfl, reach⟩ := h
  exact ⟨later, replaceEnd_cons _ hn, reach⟩

theorem Stops.replaceEnd {ends : TokenKind → Prop} (h : Stops b ends xs)
    (hz : n < xs.length ∨ Stops b ends zs) : Stops b ends (replaceEnd n zs xs) := by
  by_cases hn : n < xs.length
  · cases xs with
    | nil => cases hn
    | cons i xs =>
      rw [replaceEnd_cons i (Nat.le_of_lt_succ hn)]
      exact h
  · rw [replaceEnd_of_length_le (Nat.le_of_not_lt hn)]
    exact hz.resolve_left hn

/-- What comes ends an expression: it is nothing, or a closing bracket on the current line. -/
def Closes (zs : List Upcoming) : Prop :=
  ∀ i ∈ zs.head?, ∃ t : Token, i = .givenBack t ∧ (t.kind = .closeParen ∨ t.kind = .closeSquareBracket)

theorem closes_nil : Closes [] := nofun

theorem closes_here {t : Token} {ts : List Token} (h : t.kind = .closeParen ∨ t.kind = .closeSquareBracket) :
    Closes (here (t :: ts) zs) := by
  intro i hi
  cases hi
  exact ⟨t, rfl, h⟩

namespace Closes

theorem onLine (h : Closes zs) : OnLine zs := by
  intro i hi
  obtain ⟨t, rfl, -⟩ := h i hi
  rfl

theorem stops {ends : TokenKind → Prop} (h : Closes zs) (hp : ends .closeParen)
    (hs : ends .closeSquareBracket) : Stops b ends zs := by
  rintro i hi -
  obtain ⟨t, rfl, ht⟩ := h i hi
  refine ⟨t, rfl, ?_⟩
  rcases ht with ht | ht
  · rwa [ht]
  · rwa [ht]

theorem noSuffix (h : Closes zs) : Stops b (fun k ↦ k ≠ .openParen ∧ k ≠ .openSquareBracket) zs :=
  h.stops ⟨by decide, by decide⟩ ⟨by decide, by decide⟩

theorem noOperator {least : Nat} (h : Closes zs) :
    Stops b (fun k ↦ ∀ power ∈ k.bindingPower?, power.left < least) zs :=
  h.stops (fun power hp ↦ by cases hp) fun power hp ↦ by cases hp

theorem reads_suffixes (h : Closes zs) (b : Bool) (e : Expr) : Reads b (.suffixes e e) zs zs := by
  have hr : Reads b (.suffixes e e) zs (looked b zs) := .noSuffix h.noSuffix
  rwa [h.onLine.looked b] at hr

theorem reads_operators (h : Closes zs) (b : Bool) (least : Nat) (e : Expr) :
    Reads b (.operators least e e) zs zs := by
  have hr : Reads b (.operators least e e) zs (looked b zs) := .noOperator h.noOperator
  rwa [h.onLine.looked b] at hr

end Closes

end Upcoming

/-- A phrase is read again in front of another ending. Where its end shows in what comes after it, that
has to be as it was, or has to end an expression. -/
theorem Reads.replaceEnd {phrase : Phrase} (h : Reads b phrase xs ys) (hz : OnLine zs)
    (hn : n ≤ ys.length) (ho : phrase.EndsOpen → n < ys.length ∨ Closes zs) :
    Reads b phrase (replaceEnd n zs xs) (replaceEnd n zs ys) := by
  induction h with
  | literal h => exact .literal (h.replaceEnd hn)
  | name h => exact .name (h.replaceEnd hn)
  | dereference h hk h' =>
    have hl := h'.length
    exact .dereference (h.replaceEnd (by omega)) hk (h'.replaceEnd hn)
  | group h hk hr hc hkc ih =>
    have hl := hr.length_le
    have hl' := hc.length
    exact .group (h.replaceEnd (by omega)) hk (ih (by omega) fun _ ↦ .inl (by omega)) (hc.replaceEnd hn) hkc
  | emptyCall h hk hc hkc =>
    have hl := hc.length
    exact .emptyCall (h.replaceEnd (by omega)) hk (hc.replaceEnd hn) hkc
  | call h hk hstop ha ih =>
    have hl := ha.length_le
    rw [length_looked, Phrase.size] at hl
    have hargs := ih hn False.elim
    rw [← looked_replaceEnd hz] at hargs
    exact .call (h.replaceEnd (by omega)) hk (hstop.replaceEnd (.inl (by omega))) hargs
  | index h hk hr hc hkc ih =>
    have hl := hr.length_le
    have hl' := hc.length
    exact .index (h.replaceEnd (by omega)) hk (ih (by omega) fun _ ↦ .inl (by omega)) (hc.replaceEnd hn) hkc
  | noSuffix hstop =>
    rw [length_looked] at ho
    rw [← looked_replaceEnd hz]
    exact .noSuffix (hstop.replaceEnd ((ho trivial).imp_right Closes.noSuffix))
  | moreSuffixes hs hm ih₁ ih₂ =>
    have hl := hm.length_le
    exact .moreSuffixes (ih₁ (by simp only [Phrase.size] at hl; omega) False.elim) (ih₂ hn ho)
  | suffixed hp hs ih₁ ih₂ =>
    have hl := hs.length_le
    exact .suffixed (ih₁ (by simp only [Phrase.size] at hl; omega) False.elim) (ih₂ hn ho)
  | unary h hk hr ih =>
    have hl := hr.length_le
    exact .unary (h.replaceEnd (by simp only [Phrase.size] at hl; omega)) hk (ih hn ho)
  | lastArgument hr hc hkc ih =>
    have hl := hc.length
    exact .lastArgument (ih (by omega) fun _ ↦ .inl (by omega)) (hc.replaceEnd hn) hkc
  | moreArguments hr hc hkc hm ih₁ ih₂ =>
    have hl := hc.length
    have hl' := hm.length_le
    exact .moreArguments (ih₁ (by omega) fun _ ↦ .inl (by omega)) (hc.replaceEnd (by omega)) hkc
      (ih₂ hn False.elim)
  | noOperator hstop =>
    rw [length_looked] at ho
    rw [← looked_replaceEnd hz]
    exact .noOperator (hstop.replaceEnd ((ho trivial).imp_right Closes.noOperator))
  | operator h hp hle hr hj hm ih₁ ih₂ =>
    have hl := hr.length_le
    have hl' := hm.length_le
    simp only [Phrase.size] at hl hl'
    exact .operator (h.replaceEnd (by omega)) hp hle
      (ih₁ (by omega) fun _ ↦ (ho trivial).imp_left fun hlt ↦ by omega) hj (ih₂ hn ho)
  | expression hr hm ih₁ ih₂ =>
    have hl := hm.length_le
    simp only [Phrase.size] at hl
    exact .expression (ih₁ (by omega) fun _ ↦ (ho trivial).imp_left fun hlt ↦ by omega) (ih₂ hn ho)

theorem ReadsType.replaceEnd {mark : TokenKind} {type : Option Identifier} (h : ReadsType mark type xs ys)
    (hz : OnLine zs) (hn : n ≤ ys.length) (ho : n < ys.length ∨ Stops true (· ≠ mark) zs) :
    ReadsType mark type (replaceEnd n zs xs) (replaceEnd n zs ys) := by
  cases h with
  | absent hstop =>
    rw [length_looked] at ho
    rw [← looked_replaceEnd hz]
    exact .absent (hstop.replaceEnd ho)
  | given h hk h' =>
    have hl := h'.length
    exact .given (h.replaceEnd (by omega)) hk (h'.replaceEnd hn)

theorem ReadsParameters.replaceEnd {slot : Parser.Action.ParameterSlot} {params : List Parameter}
    {closeParen : Token} (h : ReadsParameters slot params closeParen xs ys) (hz : OnLine zs)
    (hn : n ≤ ys.length) :
    ReadsParameters slot params closeParen (replaceEnd n zs xs) (replaceEnd n zs ys) := by
  induction h with
  | close h hk hslot => exact .close (h.replaceEnd hn) hk hslot
  | comma h hk hp ih =>
    have hl := hp.length_lt
    exact .comma (h.replaceEnd (by omega)) hk (ih hn)
  | parameter hslot h ht hp ih =>
    have hl := hp.length_lt
    have hl' := ht.length_le
    exact .parameter hslot (h.replaceEnd (by omega)) (ht.replaceEnd hz (by omega) (.inl (by omega))) (ih hn)

/-- A construct is read again in front of another ending, unless what comes right after it changes; but
the text may end there. -/
theorem ReadsConstruct.replaceEnd {c : Construct} (h : ReadsConstruct xs c ys) (hz : OnLine zs)
    (hn : n ≤ ys.length) (ho : n < ys.length ∨ zs = []) :
    ReadsConstruct (replaceEnd n zs xs) c (replaceEnd n zs ys) := by
  have hstops {ws : List Upcoming} (hs : Stops false (· = .closeCurlyBrace) ws) (hw : ws.length = ys.length) :
      Stops false (· = .closeCurlyBrace) (Linewise.replaceEnd n zs ws) := by
    refine hs.replaceEnd (ho.imp (fun hlt ↦ by omega) ?_)
    rintro rfl
    exact nofun
  have hcloses : n < ys.length ∨ Closes zs := by
    refine ho.imp_right ?_
    rintro rfl
    exact closes_nil
  cases h with
  | openBrace h hk => exact .openBrace (h.replaceEnd hn) hk
  | closeBrace h hk => exact .closeBrace (h.replaceEnd hn) hk
  | pass h hk hs => exact .pass (h.replaceEnd hn) hk (hstops hs rfl)
  | «break» h hk hs => exact .break (h.replaceEnd hn) hk (hstops hs rfl)
  | returnNothing h hk hs => exact .returnNothing (h.replaceEnd hn) hk (hstops hs rfl)
  | returnValue h hk h' hk' hr hs =>
    have hl := hr.length_le
    have hl' := h'.length
    simp only [Phrase.size] at hl
    exact .returnValue (h.replaceEnd (by omega)) hk (h'.replaceEnd (by omega)) hk'
      (hr.replaceEnd hz hn fun _ ↦ hcloses) (hstops hs rfl)
  | function h hk h₁ h₂ hk₂ hp ht h₃ hk₃ =>
    have hl₁ := h₁.length
    have hl₂ := h₂.length
    have hlp := hp.length_lt
    have hlt := ht.length_le
    have hl₃ := h₃.length
    exact .function (h.replaceEnd (by omega)) hk (h₁.replaceEnd (by omega)) (h₂.replaceEnd (by omega)) hk₂
      (hp.replaceEnd hz (by omega)) (ht.replaceEnd hz (by omega) (.inl (by omega))) (h₃.replaceEnd hn) hk₃
  | @expression token _ _ ws _ h hk hr hs =>
    have hl := hr.length_le
    simp only [Phrase.size, List.length_cons] at hl
    have hr := hr.replaceEnd hz hn fun _ ↦ hcloses
    rw [replaceEnd_cons _ (by omega)] at hr
    exact .expression (h.replaceEnd (by omega)) hk hr (hstops hs rfl)

end Linewise
