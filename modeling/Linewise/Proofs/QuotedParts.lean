import Linewise.Proofs.ErrorPlaces
import Linewise.Proofs.Recognition
import Linewise.Proofs.TokenStart

namespace Linewise

open Text

inductive QuotedPart where
  | single (c : Char)
  /-- A backslash and the character after it. -/
  | pair (c : Char)
deriving DecidableEq, Repr

/-- The parts of some characters. A backslash takes the next character with it, if there is one. -/
def quotedParts : List Char → List QuotedPart
  | [] => []
  | c :: rest =>
    if c = '\\' then
      match rest with
      | [] => [.single c]
      | e :: rest => .pair e :: quotedParts rest
    else .single c :: quotedParts rest

namespace QuotedPart

def escapes : List Char := ['b', 'f', 'n', 't', 'v', '\'', '"', '\\']

def Inner (quote : Char) : QuotedPart → Prop
  | single c => c ≠ quote
  | pair c => c ∈ escapes

instance (quote : Char) : DecidablePred (Inner quote)
  | single _ => inferInstanceAs (Decidable (_ ≠ _))
  | pair _ => inferInstanceAs (Decidable (_ ∈ _))

def chars : QuotedPart → List Char
  | single c => [c]
  | pair c => ['\\', c]

def value : QuotedPart → Char
  | single c => c
  | pair c => (Lexeme.unescape? c).getD c

def width (parts : List QuotedPart) : Nat := (parts.flatMap chars).length

def values (parts : List QuotedPart) : List Char := parts.map value

/-- The parts up to the first that cannot stand inside the literal, and those from there on. -/
structure Divides (quote : Char) (parts front rest : List QuotedPart) : Prop where
  parts : parts = front ++ rest
  front : ∀ part ∈ front, part.Inner quote
  rest : ∀ part ∈ rest.head?, ¬ part.Inner quote

theorem exists_divides (quote : Char) (parts : List QuotedPart) :
    ∃ front rest, Divides quote parts front rest := by
  induction parts with
  | nil => exact ⟨[], [], rfl, nofun, nofun⟩
  | cons part parts ih =>
    by_cases hpart : part.Inner quote
    · obtain ⟨front, rest, rfl, hfront, hrest⟩ := ih
      exact ⟨part :: front, rest, rfl, List.forall_mem_cons.2 ⟨hpart, hfront⟩, hrest⟩
    · refine ⟨[], part :: parts, rfl, nofun, fun first hfirst ↦ ?_⟩
      cases hfirst
      exact hpart

end QuotedPart

namespace Lexeme

open QuotedPart

variable {quote c e : Char} {w : List Char} {part : QuotedPart} {parts front more : List QuotedPart}

theorem unescape?_eq_none_iff : unescape? c = none ↔ c ∉ escapes := by
  by_cases hself : c = '\'' ∨ c = '"' ∨ c = '\\'
  · rcases hself with rfl | rfl | rfl <;> decide
  · simp only [unescape?, escapes, List.mem_cons, List.not_mem_nil, or_false, Bool.or_eq_true, or_assoc,
      decide_eq_true_eq, hself]
    grind

theorem unescape?_of_mem (h : c ∈ escapes) : unescape? c = some (value (.pair c)) := by
  cases hc : unescape? c with
  | none => exact absurd h (unescape?_eq_none_iff.1 hc)
  | some v => rw [value, hc, Option.getD_some]

theorem quotedParts_pair (e : Char) (w : List Char) :
    quotedParts ('\\' :: e :: w) = .pair e :: quotedParts w := by
  rw [quotedParts, if_pos rfl]

theorem quotedParts_single (h : c ≠ '\\') : quotedParts (c :: w) = .single c :: quotedParts w := by
  conv => lhs; unfold quotedParts
  rw [if_neg h]

theorem eq_nil_of_quotedParts (h : quotedParts w = []) : w = [] := by
  unfold quotedParts at h
  split at h
  · rfl
  · split at h
    · split at h <;> cases h
    · cases h

theorem eq_of_quotedParts (h : quotedParts w = part :: parts) :
    (∃ e v, part = .pair e ∧ w = '\\' :: e :: v ∧ quotedParts v = parts) ∨
    (∃ c v, part = .single c ∧ w = c :: v ∧ quotedParts v = parts ∧ (c = '\\' → v = [])) := by
  cases w with
  | nil => cases h
  | cons c w =>
    by_cases hc : c = '\\'
    · subst hc
      cases w with
      | nil =>
        cases h
        exact .inr ⟨_, _, rfl, rfl, rfl, fun _ ↦ rfl⟩
      | cons e w =>
        rw [quotedParts_pair] at h
        cases h
        exact .inl ⟨_, _, rfl, rfl, rfl⟩
    · rw [quotedParts_single hc] at h
      cases h
      exact .inr ⟨_, _, rfl, rfl, rfl, fun hv ↦ absurd hv hc⟩

theorem quoted_of_inner (hq : quote ≠ '\\') (h : quotedParts w = part :: parts)
    (hpart : part.Inner quote) : ∃ v, quotedParts v = parts ∧
      quoted quote w = ((quoted quote v).1.push part.value, (quoted quote v).2 + part.chars.length) := by
  rcases eq_of_quotedParts h with ⟨e, v, rfl, rfl, hv⟩ | ⟨c, v, rfl, rfl, hv, hlast⟩
  · exact ⟨v, hv, quoted_escape (Ne.symm hq) (unescape?_of_mem hpart)⟩
  · refine ⟨v, hv, ?_⟩
    by_cases hc : c = '\\'
    -- a backslash at the end of the line has nothing to take with it
    · obtain rfl := hlast hc
      subst hc
      conv => lhs; unfold quoted
      rw [if_neg (Ne.symm hq), if_pos rfl]
      rfl
    · exact quoted_plain hpart hc

theorem quoted_of_front (hq : quote ≠ '\\') (h : quotedParts w = front ++ more)
    (hfront : ∀ part ∈ front, part.Inner quote) : ∃ v, quotedParts v = more ∧
      quoted quote w =
        ((values front).foldr Quoted.push (quoted quote v).1, (quoted quote v).2 + width front) := by
  induction front generalizing w with
  | nil => exact ⟨w, h, rfl⟩
  | cons part front ih =>
    obtain ⟨hpart, hfront⟩ := List.forall_mem_cons.1 hfront
    obtain ⟨u, hu, hquoted⟩ := quoted_of_inner hq h hpart
    obtain ⟨v, hv, hrest⟩ := ih hu hfront
    refine ⟨v, hv, ?_⟩
    rw [hquoted, hrest]
    simp only [values, width, List.map_cons, List.foldr_cons, List.flatMap_cons, List.length_append,
      Nat.add_assoc, Nat.add_comm part.chars.length]

theorem push_closed (v : List Char) : v.foldr Quoted.push (.closed []) = .closed v := by
  induction v with
  | nil => rfl
  | cons c v ih => rw [List.foldr_cons, ih, Quoted.push]

section

variable (hq : quote ≠ '\\') (hfront : ∀ part ∈ front, part.Inner quote)
include hq hfront

theorem quoted_eq_closed (h : quotedParts w = front ++ .single quote :: more) :
    quoted quote w = (.closed (values front), width front + 1) := by
  obtain ⟨v, hv, hquoted⟩ := quoted_of_front hq h hfront
  rcases eq_of_quotedParts hv with ⟨e, u, hpart, -⟩ | ⟨c, u, hpart, rfl, -⟩
  · cases hpart
  cases hpart
  rw [hquoted, quoted_quote, push_closed, Nat.add_comm]

theorem quoted_eq_badEscape (h : quotedParts w = front ++ .pair e :: more) (he : e ∉ escapes) :
    quoted quote w = (.badEscape e, width front + 2) := by
  obtain ⟨v, hv, hquoted⟩ := quoted_of_front hq h hfront
  rcases eq_of_quotedParts hv with ⟨e', u, hpart, rfl, -⟩ | ⟨c, u, hpart, -⟩
  · cases hpart
    have hescape : quoted quote ('\\' :: e :: u) = (.badEscape e, 2) := by
      rw [quoted, if_neg (Ne.symm hq), if_pos rfl]
      simp only [unescape?_eq_none_iff.2 he]
    rw [hquoted, hescape, List.foldr_fixed' (fun _ ↦ rfl), Nat.add_comm]
  · cases hpart

theorem quoted_eq_unclosed (h : quotedParts w = front) :
    (quoted quote w).1 = .unclosed := by
  obtain ⟨v, hv, hquoted⟩ := quoted_of_front hq (h.trans (List.append_nil front).symm) hfront
  obtain rfl := eq_nil_of_quotedParts hv
  rw [hquoted]
  exact List.foldr_fixed' (fun _ ↦ rfl) _

end

theorem literal_apostrophe {v : List Char} (h : v.length ≠ 1) :
    literal '\'' v = .error .invalidCharLiteral := by
  match v, h with
  | [], _ => rfl
  | [c], h => exact absurd rfl h
  | _ :: _ :: _, _ => rfl

section

variable {cursor : Cursor} {v : List Char} {n : Nat}

/-- The columns of a literal that ends: from its first quote to the last. -/
theorem ofQuoted_of_closed (h : quoted quote cursor.rest = (.closed v, n + 1)) :
    (ofQuoted quote cursor).outcome = literal quote v ∧ (ofQuoted quote cursor).first = cursor.position ∧
      (ofQuoted quote cursor).last = cursor.column + n := by
  have hle := quoted_le quote cursor.rest
  rw [h] at hle
  simp only [ofQuoted, h, Cursor.position, Cursor.forward_column hle, true_and]
  omega

theorem ofQuoted_of_badEscape (h : quoted quote cursor.rest = (.badEscape e, n + 2)) :
    (ofQuoted quote cursor).outcome = .error (.invalidEscape e) ∧
      (ofQuoted quote cursor).first = cursor.column + n ∧
        (ofQuoted quote cursor).last = cursor.column + n + 1 := by
  have hle := quoted_le quote cursor.rest
  rw [h] at hle
  simp only [ofQuoted, h, Cursor.position, Cursor.forward_column hle, true_and]
  omega

theorem ofQuoted_of_unclosed (h : (quoted quote cursor.rest).1 = .unclosed) :
    (ofQuoted quote cursor).outcome = .error (unterminated quote) ∧
      (ofQuoted quote cursor).first = cursor.position ∧ (ofQuoted quote cursor).last = cursor.position := by
  simp only [ofQuoted, h, and_self]

end

end Lexeme

namespace Lexer.Starts

open QuotedPart

variable {source : String} {t : Lexer} {p : Position} {q : Char} {line v : List Char} {n : Nat}
  {kind : TokenKind} {cause : LexicalCause}

section

variable (h : Starts source p q t) (hq : q = '\'' ∨ q = '"')
include h hq

theorem ne_slash_of_quote : q ≠ '/' := by
  rcases hq with rfl | rfl <;> decide

/-- A closed literal of the right form is a token, and reading resumes after its last quote. -/
theorem scan_closed (hclosed : Lexeme.quoted q t.cursor.rest = (.closed v, n + 1))
    (hliteral : Lexeme.literal q v = .ok kind) :
    ∃ u, scan q t = .ok ⟨kind, .onLine p.line p.column (p.column + 1 + n)⟩ u ∧
      StandsAt (lines source.toList) ⟨p.line, p.column + 2 + n⟩ u := by
  have hle := Lexeme.quoted_le q t.cursor.rest
  rw [hclosed] at hle
  have hlength : (t.cursor.rest.take (n + 1)).length = n + 1 := List.length_take_of_le hle
  have hw := (List.take_append_drop (n + 1) t.cursor.rest).symm
  have htakes := Lexeme.ofQuoted_takes (hclosed.trans (by rw [hlength])) hliteral hw
  rw [← Lexeme.read_quote hq] at htakes
  obtain ⟨u, hu, hplace⟩ := h.scan_eq_ok (h.ne_slash_of_quote hq) hw htakes
  rw [hlength, Nat.add_comm n, ← Nat.add_assoc] at hu hplace
  exact ⟨u, hu, hplace⟩

theorem scan_malformed {first last : Nat} (hread : (Lexeme.ofQuoted q t.cursor).outcome = .error cause ∧
    (Lexeme.ofQuoted q t.cursor).first = first ∧ (Lexeme.ofQuoted q t.cursor).last = last) :
    ∃ u, scan q t = .error ⟨cause, .onLine p.line first last⟩ u := by
  obtain ⟨hcause, rfl, rfl⟩ := hread
  rw [← Lexeme.read_quote hq] at hcause ⊢
  exact h.scan_eq_error (h.ne_slash_of_quote hq) hcause

end

/-- The first part of the line that cannot stand inside the literal decides it: a pair that is no escape is
reported as such, the end of the line at the first quote, and with the second quote the literal is whole. -/
theorem quoted_decided (h : Starts source p q t) (hq : q = '\'' ∨ q = '"')
    (hline : (lines source.toList)[p.line - 1]? = some line) :
    (∃ front rest, Divides q (quotedParts (line.drop (p.column + 1))) front rest) ∧
    ∀ front rest, Divides q (quotedParts (line.drop (p.column + 1))) front rest →
      (∀ e, rest.head? = some (pair e) → ∃ u, scan q t = .error ⟨.invalidEscape e,
        .onLine p.line (p.column + 1 + width front) (p.column + 1 + width front + 1)⟩ u) ∧
      (rest = [] → ∃ u, scan q t =
        .error ⟨if q = '"' then .unterminatedString else .unterminatedChar, .point p.line p.column⟩ u) ∧
      (∀ c, rest.head? = some (single c) →
        (q = '"' → ∃ u, scan q t = .ok ⟨.string (String.ofList (values front)),
            .onLine p.line p.column (p.column + 1 + width front)⟩ u ∧
          StandsAt (lines source.toList) ⟨p.line, p.column + 2 + width front⟩ u) ∧
        (∀ x, q = '\'' → values front = [x] → ∃ u, scan q t = .ok ⟨.char x,
            .onLine p.line p.column (p.column + 1 + width front)⟩ u ∧
          StandsAt (lines source.toList) ⟨p.line, p.column + 2 + width front⟩ u) ∧
        (q = '\'' → (values front).length ≠ 1 → ∃ u, scan q t = .error ⟨.invalidCharLiteral,
            .onLine p.line p.column (p.column + 1 + width front)⟩ u)) := by
  refine ⟨exists_divides q _, fun front rest hdivides ↦ ?_⟩
  obtain ⟨hparts, hfront, hrest⟩ := hdivides
  rw [h.drop_succ_eq hline] at hparts
  have hbackslash := Lexeme.ne_backslash hq
  have hcolumn : t.cursor.column = p.column + 1 := h.standsAt.column
  have hposition : t.cursor.position = p.column := by rw [Cursor.position, hcolumn]; rfl
  refine ⟨fun e he ↦ ?_, ?_, fun c hc ↦ ?_⟩
  · have hescape : e ∉ escapes := hrest _ he
    obtain ⟨more, rfl⟩ := List.head?_eq_some_iff.1 he
    have hread := Lexeme.ofQuoted_of_badEscape (Lexeme.quoted_eq_badEscape hbackslash hfront hparts hescape)
    rw [hcolumn] at hread
    exact h.scan_malformed hq hread
  · rintro rfl
    rw [List.append_nil] at hparts
    have hread := Lexeme.ofQuoted_of_unclosed (Lexeme.quoted_eq_unclosed hbackslash hfront hparts)
    rw [hposition] at hread
    exact h.scan_malformed hq hread
  · obtain rfl : c = q := not_not.1 (hrest _ hc)
    obtain ⟨more, rfl⟩ := List.head?_eq_some_iff.1 hc
    have hclosed := Lexeme.quoted_eq_closed hbackslash hfront hparts
    refine ⟨?_, ?_, ?_⟩
    · rintro rfl
      exact h.scan_closed hq hclosed rfl
    · rintro x rfl hx
      exact h.scan_closed hq hclosed (by rw [hx]; rfl)
    · rintro rfl hvalues
      have hread := Lexeme.ofQuoted_of_closed hclosed
      rw [hposition, hcolumn] at hread
      exact h.scan_malformed hq ⟨hread.1.trans (Lexeme.literal_apostrophe hvalues), hread.2⟩

theorem quoted_decided_escapes : ∃ t,
    Starts "s = \"é\\\"\\\\\" 'ab'" ⟨1, 4⟩ '"' t ∧
    (lines "s = \"é\\\"\\\\\" 'ab'".toList)[0]? = some "s = \"é\\\"\\\\\" 'ab'".toList ∧
    Divides '"' (quotedParts ("s = \"é\\\"\\\\\" 'ab'".toList.drop 5)) [single 'é', pair '"', pair '\\']
      [single '"', single ' ', single '\'', single 'a', single 'b', single '\''] ∧
    ∃ u, scan '"' t = .ok ⟨.string "é\"\\", .onLine 1 4 10⟩ u ∧
      StandsAt (lines "s = \"é\\\"\\\\\" 'ab'".toList) ⟨1, 11⟩ u := by
  have hstarts : Starts "s = \"é\\\"\\\\\" 'ab'" ⟨1, 4⟩ '"' _ :=
    ⟨⟨false, _, .reply (.reply .new (.readToken true)) (.readToken false), Prod.ext (by decide +kernel) rfl⟩,
      by decide +kernel, by decide +kernel⟩
  have hline : (lines "s = \"é\\\"\\\\\" 'ab'".toList)[0]? = some "s = \"é\\\"\\\\\" 'ab'".toList := by
    decide +kernel
  have hdivides : Divides '"' (quotedParts ("s = \"é\\\"\\\\\" 'ab'".toList.drop 5))
      [single 'é', pair '"', pair '\\']
      [single '"', single ' ', single '\'', single 'a', single 'b', single '\''] :=
    ⟨by decide +kernel, by decide, by decide⟩
  obtain ⟨hstring, -⟩ := ((hstarts.quoted_decided (.inr rfl) hline).2 _ _ hdivides).2.2 _ rfl
  exact ⟨_, hstarts, hline, hdivides, hstring rfl⟩

end Lexer.Starts

end Linewise
