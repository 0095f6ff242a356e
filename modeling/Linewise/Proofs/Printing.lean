import Linewise.Proofs.Lines
import Linewise.Proofs.ProgramReading
import Linewise.Proofs.Refit
import Linewise.Proofs.Spelled

namespace Linewise

open Text

/-- The text is a single token of the given kind, which is no comment, and nothing else. -/
def TokenKind.WrittenAs (kind : TokenKind) (word : List Char) : Prop :=
  kind.isComment = false ∧
    (Lexer.ofText word true).readAll = .ok #[⟨kind, .onLine 1 0 (word.length - 1)⟩]

instance (kind : TokenKind) (word : List Char) : Decidable (kind.WrittenAs word) :=
  inferInstanceAs (Decidable (_ ∧ _))

def spaced (words : List (List Char)) : List Char := [' '].intercalate words

def layOut (lines : List (List (List Char))) : List Char := lines.flatMap fun words ↦ spaced words ++ ['\n']

def Construct.WrittenAs (c : Construct) (words : List (List Char)) : Prop :=
  List.Forall₂ (fun p w ↦ p.kind.WrittenAs w) c.pieces words

@[simp]
theorem spaced_cons (word : List Char) (words : List (List Char)) :
    spaced (word :: words) = word ++ words.flatMap (' ' :: ·) := by
  induction words generalizing word with
  | nil => simp [spaced]
  | cons w words ih =>
    have h := ih w
    simp only [spaced] at h ⊢
    rw [List.intercalate_cons_cons, h]
    simp

namespace Lexer

theorem exists_advanceLine {s : Lexer} {line : List Char} {pending : List (List Char)}
    (hr : s.cursor.rest = []) (hp : s.pending.dropWhile (·.all isBlank) = line :: pending) :
    ∃ t, (∀ later, ahead later s = ahead true t) ∧ t.At
      (s.lineNumber + (s.pending.length - pending.length)) 0 line pending ∧
      SameTokens s t := by
  have hf : s.find = .lineEnd s := by simp [find, nextChar?, hr, Cursor.forward, Cursor.next?]
  refine ⟨⟨pending, .ofLine line, s.lineNumber + (s.pending.length - pending.length), s.tokens,
    s.held, s.keepComments⟩, fun later ↦ ?_, ⟨rfl, rfl, rfl, rfl⟩, ⟨rfl, rfl, rfl⟩⟩
  rw [ahead_eq, hf]
  simp [advanceLine, hr, hp]

theorem ahead_of_blank_lines {s : Lexer} {later : Bool} (hr : s.cursor.rest = [])
    (hp : s.pending.dropWhile (·.all isBlank) = []) : ahead later s = [] := by
  have hf : s.find = .lineEnd s := by simp [find, nextChar?, hr, Cursor.forward, Cursor.next?]
  rw [ahead_eq, hf]
  simp [advanceLine, hr, hp]

theorem find_of_ahead {s : Lexer} {later later' : Bool} {token : Token} {xs : List Upcoming}
    (hs : s.keepComments = true) (hr : s.cursor.rest.all isBlank = false)
    (h : ahead later s = ⟨later', .ok token⟩ :: xs) : ∃ t, s.find = .token token t := by
  rw [ahead_eq] at h
  cases hf : s.find with
  | lineEnd t =>
    obtain ⟨c, hc, -⟩ := lineEnd_of_find hf
    cases hd : s.cursor.rest.dropWhile isBlank with
    | nil =>
      rw [List.dropWhile_eq_nil_iff, ← List.all_eq_true, hr] at hd
      cases hd
    | cons x rest =>
      obtain ⟨d, hd, -⟩ := nextChar?_of_dropWhile hd
      rw [hc] at hd
      cases hd
  | failure e t =>
    simp only [hf] at h
    cases h
  | comment t =>
    rw [keepComments_of_comment hf] at hs
    cases hs
  | token token' t =>
    simp only [hf] at h
    cases h
    exact ⟨t, rfl⟩

end Lexer

theorem TokenKind.WrittenAs.spelled {kind : TokenKind} {word : List Char}
    (h : kind.WrittenAs word) : ∃ x w, word = x :: w ∧ '\n' ∉ word ∧
      word.getLast? ≠ some '\r' ∧ Lexer.Spelled kind x w [] := by
  obtain ⟨hk, h⟩ := h
  obtain ⟨later, ha⟩ : ∃ later, (Lexer.ofText word true).ahead false =
      [⟨later, .ok ⟨kind, .onLine 1 0 (word.length - 1)⟩⟩] := by
    obtain ⟨i, xs, hx, hi, hxs⟩ := List.map_eq_cons_iff.1 (Lexer.readAll_eq_ok.1 h)
    obtain rfl := List.map_eq_nil_iff.1 hxs
    obtain ⟨later, content⟩ := i
    cases hi
    exact ⟨later, hx⟩
  have hpending : (Lexer.ofText word true).pending = lines word := rfl
  have hblank := List.head?_dropWhile_not (·.all isBlank) (lines word)
  cases hp : (lines word).dropWhile (·.all isBlank) with
  | nil =>
    rw [Lexer.ahead_of_blank_lines rfl hp] at ha
    cases ha
  | cons line pending =>
    obtain ⟨s, hs, hat, hsame⟩ := Lexer.exists_advanceLine (s := Lexer.ofText word true) rfl hp
    rw [hp] at hblank
    rw [hs] at ha
    obtain ⟨t, ht⟩ := Lexer.find_of_ahead hsame.keepComments (hat.rest ▸ hblank) ha
    obtain ⟨blanks, x, w, post, hrest, hblanks, hspelled⟩ := Lexer.spelled_of_find ht hk
    obtain ⟨t', ht', -⟩ := hspelled.find hrest hblanks (.refl post)
    simp only [ht, Lexer.Finding.token.injEq, Token.mk.injEq, Span.onLine, Span.mk.injEq,
      Position.mk.injEq, hat.column] at ht'
    have hmem : line ∈ lines word := List.dropWhile_subset _ (hp ▸ List.mem_cons_self)
    rw [hat.rest] at hrest
    have hlen := congrArg List.length hrest
    simp only [List.length_append, List.length_cons] at hlen
    obtain ⟨hword, hnewline⟩ := eq_of_mem_lines hmem (by omega)
    obtain rfl : blanks = [] := List.eq_nil_of_length_eq_zero (by omega)
    obtain rfl : post = [] := List.eq_nil_of_length_eq_zero (by rw [hword] at hlen; simp at hlen; omega)
    rw [hrest] at hword
    simp only [List.nil_append, List.append_nil] at hword
    refine ⟨x, w, hword.symm, hnewline, ?_, hspelled⟩
    rw [← hword]
    intro hlast
    cases w with
    | nil =>
      obtain rfl : x = '\r' := Option.some.inj hlast
      exact absurd hspelled.blank (by decide)
    | cons y w => exact hspelled.finds.1 (by rwa [List.getLast?_cons_cons] at hlast)

namespace Lexer

theorem ahead_word {kind : TokenKind} {word : List Char} {words : List (List Char)} {s : Lexer}
    (later : Bool) (blanks : List Char) (hb : blanks.all isBlank = true) (hw : kind.WrittenAs word)
    (hs : s.cursor.rest = blanks ++ (word ++ words.flatMap (' ' :: ·))) :
    ∃ (token : Token) (t : Lexer), token.kind = kind ∧
      s.ahead later = ⟨later, .ok token⟩ :: t.ahead false ∧
      t.cursor.rest = words.flatMap (' ' :: ·) ∧ t.pending = s.pending := by
  obtain ⟨x, w, rfl, -, -, hspelled⟩ := hw.spelled
  have hcut : Cut [] (words.flatMap (' ' :: ·)) := by
    cases words with
    | nil => exact .refl []
    | cons _ _ => exact .inr (.inr rfl)
  obtain ⟨t, ht, hat, -⟩ := hspelled.find hs hb hcut
  have ha := ahead_eq later s
  rw [ht] at ha
  exact ⟨_, t, rfl, ha, hat.rest, hat.pending⟩

theorem ahead_words {ps : List Piece} {words : List (List Char)}
    (h : List.Forall₂ (fun p w ↦ p.kind.WrittenAs w) ps words) {s : Lexer}
    (hs : s.cursor.rest = words.flatMap (' ' :: ·)) : ∃ (ts : List Token) (t : Lexer), Fit ps ts ∧
      s.ahead false = here ts (t.ahead false) ∧ t.cursor.rest = [] ∧ t.pending = s.pending := by
  induction h generalizing s with
  | nil => exact ⟨[], s, rfl, rfl, hs, rfl⟩
  | @cons p word ps words hw _ ih =>
    obtain ⟨token, t, hk, ht, hr, hp⟩ := ahead_word false [' '] (by decide) hw hs
    obtain ⟨ts, u, hts, hu, hrest, hpending⟩ := ih hr
    refine ⟨token :: ts, u, congrArg₂ _ hk hts, ?_, hrest, hpending.trans hp⟩
    rw [ht, hu]
    rfl

theorem ahead_line {ps : List Piece} {words : List (List Char)}
    (h : List.Forall₂ (fun p w ↦ p.kind.WrittenAs w) ps words) (hne : ps ≠ []) {s : Lexer}
    (hs : s.cursor.rest = spaced words) : ∃ (ts : List Token) (t : Lexer), Fit ps ts ∧
      s.ahead true = onNextLine ts (t.ahead false) ∧ t.cursor.rest = [] ∧ t.pending = s.pending := by
  cases h with
  | nil => exact absurd rfl hne
  | @cons p word ps words hw hws =>
    rw [spaced_cons] at hs
    obtain ⟨token, t, hk, ht, hr, hp⟩ := ahead_word true [] rfl hw hs
    obtain ⟨ts, u, hts, hu, hrest, hpending⟩ := ahead_words hws hr
    refine ⟨token :: ts, u, congrArg₂ _ hk hts, ?_, hrest, hpending.trans hp⟩
    rw [ht, hu]
    rfl

end Lexer

section

variable {ps : List Piece} {words : List (List Char)}

theorem newline_not_mem_spaced (h : ∀ w ∈ words, '\n' ∉ w) : '\n' ∉ spaced words := by
  cases words with
  | nil => simp [spaced]
  | cons word words => simpa using h

theorem getLast?_spaced (h : ∀ w ∈ words, w ≠ [] ∧ w.getLast? ≠ some '\r') :
    (spaced words).getLast? ≠ some '\r' := by
  induction words with
  | nil => simp [spaced]
  | cons word words ih =>
    obtain ⟨⟨-, hword⟩, hwords⟩ := List.forall_mem_cons.1 h
    cases words with
    | nil => simpa using hword
    | cons w words =>
      have hne : w ++ words.flatMap (' ' :: ·) ≠ [] := by simp [(hwords w List.mem_cons_self).1]
      have hlast := ih hwords
      rw [spaced_cons] at hlast ⊢
      rwa [List.flatMap_cons, List.cons_append, List.getLast?_append_cons,
        List.getLast?_cons_of_ne_nil hne]

variable (h : List.Forall₂ (fun p w ↦ p.kind.WrittenAs w) ps words)
include h

theorem exists_writtenAs : ∀ w ∈ words, ∃ kind, TokenKind.WrittenAs kind w := by
  induction h with
  | nil => simp
  | cons hw _ ih => exact List.forall_mem_cons.2 ⟨⟨_, hw⟩, ih⟩

theorem lines_spaced (text : List Char) :
    lines (spaced words ++ '\n' :: text) = spaced words :: lines text := by
  refine lines_append_newline (newline_not_mem_spaced fun w hw ↦ ?_)
    (getLast?_spaced fun w hw ↦ ?_) text
  · obtain ⟨kind, hk⟩ := exists_writtenAs h w hw
    obtain ⟨x, w', -, hn, -⟩ := hk.spelled
    exact hn
  · obtain ⟨kind, hk⟩ := exists_writtenAs h w hw
    obtain ⟨x, w', rfl, -, hr, -⟩ := hk.spelled
    exact ⟨by simp, hr⟩

theorem all_isBlank_spaced (hne : ps ≠ []) : (spaced words).all isBlank = false := by
  cases h with
  | nil => exact absurd rfl hne
  | cons hw _ =>
    obtain ⟨x, w, rfl, -, -, hspelled⟩ := hw.spelled
    rw [spaced_cons, List.cons_append, List.all_cons, hspelled.blank, Bool.false_and]

end

theorem Expr.pieces_ne_nil (e : Expr) : e.pieces ≠ [] := by
  cases e <;> simp [pieces, Variable.pieces]

theorem Construct.pieces_ne_nil (c : Construct) : c.pieces ≠ [] := by
  cases c with
  | expression e => exact e.pieces_ne_nil
  | function f => exact List.cons_ne_nil _ _
  | returnStatement keyword value => cases value <;> exact List.cons_ne_nil _ _
  | _ => exact List.cons_ne_nil _ _

/-- Constructs on lines of their own lie ahead on lines of their own. -/
theorem Lexer.ahead_lines {cs : List Construct} {lines : List (List (List Char))}
    (h : List.Forall₂ Construct.WrittenAs cs lines) {s : Lexer} (later : Bool)
    (hr : s.cursor.rest = []) (hp : s.pending = lines.map spaced) :
    ∃ tss, List.Forall₂ (fun c ts ↦ Fit c.pieces ts) cs tss ∧ s.ahead later = inLines tss := by
  induction h generalizing s later with
  | nil => exact ⟨[], .nil, ahead_of_blank_lines hr (by simp [hp])⟩
  | @cons c words cs lines hc _ ih =>
    have hblank := all_isBlank_spaced hc c.pieces_ne_nil
    have hdrop : s.pending.dropWhile (·.all isBlank) = spaced words :: lines.map spaced := by
      simp [hp, hblank]
    obtain ⟨t, ht, hat, -⟩ := exists_advanceLine hr hdrop
    obtain ⟨ts, u, hts, hu, hur, hup⟩ := ahead_line hc c.pieces_ne_nil hat.rest
    obtain ⟨tss, htss, hahead⟩ := ih false hur (hup.trans hat.pending)
    refine ⟨ts :: tss, .cons hts htss, ?_⟩
    rw [ht, hu, hahead]
    rfl

theorem lines_layOut {cs : List Construct} {lines : List (List (List Char))}
    (h : List.Forall₂ Construct.WrittenAs cs lines) : Text.lines (layOut lines) = lines.map spaced := by
  induction h with
  | nil => rfl
  | cons hc _ ih =>
    rw [layOut, List.flatMap_cons, List.append_assoc, List.singleton_append, lines_spaced hc,
      List.map_cons, ← ih, layOut]

/-- Words that make up constructs give back constructs with the same tokens, up to their places. -/
theorem exists_refits {cs : List Construct} {tss : List (List Token)}
    (h : List.Forall₂ (fun c ts ↦ Fit c.pieces ts) cs tss) : ∃ ds : List Construct,
      ds.map Construct.erase = cs.map Construct.erase ∧
        List.Forall₂ (fun d ts ↦ Covers d.pieces ts) ds tss := by
  induction h with
  | nil => exact ⟨[], rfl, .nil⟩
  | cons hc _ ih =>
    obtain ⟨d, hd, hcd⟩ := Construct.exists_refit hc
    obtain ⟨ds, hds, hcds⟩ := ih
    exact ⟨d :: ds, by rw [List.map_cons, List.map_cons, hd, hds], .cons hcd hcds⟩

end Linewise
