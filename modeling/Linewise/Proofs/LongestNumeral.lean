import Linewise.Proofs.Recognition
import Linewise.Proofs.TokenStart

namespace Linewise

open Text

inductive Numeral : List Char → Prop
  | integer {w : List Char} (ne_nil : w ≠ []) (digits : w.all isDigit = true) : Numeral w
  | float {w v : List Char} (ne_nil : w ≠ []) (digits : w.all isDigit = true)
      (fraction : v.all isDigit = true) : Numeral (w ++ '.' :: v)

/-- The longest numeral at the front of some characters, and what comes after it. -/
structure LongestNumeral (rest m post : List Char) : Prop where
  split : rest = m ++ post
  numeral : Numeral m
  longest : ∀ m', Numeral m' → m' <+: rest → m'.length ≤ m.length

theorem point_not_mem {w : List Char} (h : w.all isDigit = true) : '.' ∉ w := by
  intro hpoint
  have hdigit := List.all_eq_true.1 h '.' hpoint
  cases hdigit

namespace Numeral

variable {m w : List Char} {x : Char}

theorem isDigit_of_mem (h : Numeral m) (hx : x ∈ m) : isDigit x = true ∨ x = '.' := by
  cases h with
  | integer _ hw => exact .inl (List.all_eq_true.1 hw x hx)
  | float _ hw hv =>
    rcases List.mem_append.1 hx with hx | hx
    · exact .inl (List.all_eq_true.1 hw x hx)
    rcases List.mem_cons.1 hx with rfl | hx
    · exact .inr rfl
    · exact .inl (List.all_eq_true.1 hv x hx)

theorem count_point_le (h : Numeral m) : m.count '.' ≤ 1 := by
  cases h with
  | integer _ hw =>
    rw [List.count_eq_zero.2 (point_not_mem hw)]
    exact Nat.zero_le 1
  | float _ hw hv =>
    rw [List.count_append, List.count_cons_self, List.count_eq_zero.2 (point_not_mem hw),
      List.count_eq_zero.2 (point_not_mem hv)]

theorem next (h : Numeral (m ++ x :: w)) (hx : isDigit x = false) : x = '.' ∧ '.' ∉ m := by
  have hpoint : x = '.' := by
    rcases h.isDigit_of_mem (List.mem_append_right m List.mem_cons_self) with hdigit | hpoint
    · rw [hx] at hdigit
      cases hdigit
    · exact hpoint
  refine ⟨hpoint, fun hmem ↦ ?_⟩
  have hcount := h.count_point_le
  have hpos := List.count_pos_iff.2 hmem
  rw [hpoint, List.count_append, List.count_cons_self] at hcount
  omega

end Numeral

theorem LongestNumeral.unique {rest m post m' post' : List Char} (h : LongestNumeral rest m post)
    (h' : LongestNumeral rest m' post') : m = m' ∧ post = post' := by
  have hlength : m.length = m'.length :=
    Nat.le_antisymm (h'.longest m h.numeral ⟨post, h.split.symm⟩) (h.longest m' h'.numeral ⟨post', h'.split.symm⟩)
  exact List.append_inj (h.split.symm.trans h'.split) hlength

namespace Lexeme

variable {d : Char} {rest w post : List Char} {float : Bool}

/-- The tail of a numeral makes one of its first digit, with a point in it or not. -/
theorem numeral_cons (hd : isDigit d = true) (htail : numeralTail rest = (w, float)) :
    Numeral (d :: w) ∧ ('.' ∈ d :: w ↔ float = true) := by
  have hdigits (l : List Char) : (l.takeWhile isDigit).all isDigit = true := List.all_takeWhile
  have hwhole : (d :: rest.takeWhile isDigit).all isDigit = true := by
    rw [List.all_cons, hd, hdigits]
    rfl
  unfold numeralTail at htail
  dsimp only at htail
  split at htail <;> cases htail
  · next more _ => exact ⟨.float (List.cons_ne_nil _ _) hwhole (hdigits more), by simp⟩
  · exact ⟨.integer (List.cons_ne_nil _ _) hwhole, by simpa using point_not_mem hwhole⟩

/-- It is the longest: what comes after it is neither a digit nor the first point. -/
theorem longestNumeral_cons (hd : isDigit d = true) (htail : numeralTail rest = (w, float))
    (hsplit : rest = w ++ post) (hends : ∀ x ∈ post.head?, EndsNumeral float x) :
    LongestNumeral (d :: rest) (d :: w) post := by
  obtain ⟨hnumeral, hpoint⟩ := numeral_cons hd htail
  refine ⟨by rw [hsplit, List.cons_append], hnumeral, fun m' hm' hprefix ↦ Nat.not_lt.1 fun hlt ↦ ?_⟩
  obtain ⟨u, rfl⟩ : d :: w <+: m' := by
    refine List.prefix_of_prefix_length_le ⟨post, ?_⟩ hprefix (Nat.le_of_lt hlt)
    rw [hsplit, List.cons_append]
  cases u with
  | nil => simp at hlt
  | cons x u =>
    have hx : post.head? = some x := by
      obtain ⟨t, ht⟩ := hprefix
      rw [hsplit, ← List.cons_append, List.append_assoc] at ht
      rw [← List.append_cancel_left ht]
      rfl
    obtain ⟨hdigit, hfirst⟩ := hends x hx
    obtain ⟨rfl, hnone⟩ := hm'.next hdigit
    cases float with
    | true => exact hnone (hpoint.2 rfl)
    | false => exact hfirst rfl rfl

def numeralCause? (float : Bool) (x : Char) : Option LexicalCause :=
  if float && x == '.' then some .multipleDecimalPoints
  else if isWordStart x then some (.invalidNumeralCharacter x float)
  else none

theorem ofNumeral_of_error {c : Cursor} {x : Char} {more : List Char} {cause : LexicalCause}
    (htail : numeralTail c.rest = (w, float)) (hsplit : c.rest = w ++ x :: more)
    (hcause : numeralCause? float x = some cause) :
    (ofNumeral d c).outcome = .error cause ∧ (ofNumeral d c).first = c.column + w.length ∧
      (ofNumeral d c).last = c.column + w.length := by
  have hnumeral : numeral d c.rest = (.error cause, w.length + 1) := by
    simp only [numeral, htail]
    rw [hsplit, List.drop_left]
    dsimp only
    unfold numeralCause? at hcause
    split at hcause
    · next hpoint => rw [if_pos hpoint, Option.some.inj hcause]
    next hpoint =>
    split at hcause
    · next hword => rw [if_neg hpoint, if_pos hword, Option.some.inj hcause]
    · cases hcause
  have hle : w.length + 1 ≤ c.rest.length := by
    rw [hsplit, List.length_append, List.length_cons]
    omega
  simp only [ofNumeral, hnumeral, Cursor.position, Cursor.forward_column hle, true_and]
  omega

end Lexeme

namespace Lexer.Starts

variable {source : String} {t : Lexer} {p : Position} {d : Char} {line : List Char}

theorem ne_slash_of_isDigit (hd : isDigit d = true) : d ≠ '/' := by
  rintro rfl
  cases hd

theorem scan_numeral_error (h : Starts source p d t) (hd : isDigit d = true) {w more : List Char} {float : Bool}
    {x : Char} {cause : LexicalCause} (htail : Lexeme.numeralTail t.cursor.rest = (w, float))
    (hsplit : t.cursor.rest = w ++ x :: more) (hcause : Lexeme.numeralCause? float x = some cause) :
    ∃ u, scan d t = .error ⟨cause, .point p.line (p.column + 1 + w.length)⟩ u := by
  obtain ⟨houtcome, hfirst, hlast⟩ := Lexeme.ofNumeral_of_error (d := d) htail hsplit hcause
  rw [← Lexeme.read_of_isDigit hd] at houtcome hfirst hlast
  obtain ⟨u, hu⟩ := h.scan_eq_error (ne_slash_of_isDigit hd) houtcome
  rw [hfirst, hlast, h.standsAt.column] at hu
  exact ⟨u, hu⟩

/-- A numeral is as long as it can be. The character after it is reported if it is a second point, a letter
or an underscore; otherwise the numeral is a token, and reading resumes at that character. -/
theorem numeral_classified (h : Starts source p d t) (hd : isDigit d = true)
    (hline : (lines source.toList)[p.line - 1]? = some line) :
    (∃ m post, LongestNumeral (line.drop p.column) m post) ∧
    ∀ m post, LongestNumeral (line.drop p.column) m post →
      ('.' ∈ m → post.head? = some '.' →
        ∃ u, scan d t = .error ⟨.multipleDecimalPoints, .point p.line (p.column + m.length)⟩ u) ∧
      (∀ x, post.head? = some x → isAlphabetic x = true ∨ x = '_' → ∃ u, scan d t =
        .error ⟨.invalidNumeralCharacter x (decide ('.' ∈ m)), .point p.line (p.column + m.length)⟩ u) ∧
      ((∀ x, post.head? = some x → ¬ ('.' ∈ m ∧ x = '.') ∧ isAlphabetic x = false ∧ x ≠ '_') →
        ∃ u, scan d t = .ok ⟨if '.' ∈ m then .float (String.ofList m) else .integer (String.ofList m),
            .onLine p.line p.column (p.column + m.length - 1)⟩ u ∧
          StandsAt (lines source.toList) ⟨p.line, p.column + m.length⟩ u) := by
  obtain ⟨post, hsplit, hends, -⟩ := Lexeme.numeralTail_append t.cursor.rest
  rcases htail : Lexeme.numeralTail t.cursor.rest with ⟨w, float⟩
  rw [htail] at hsplit hends
  have hlongest := Lexeme.longestNumeral_cons hd htail hsplit hends
  have hpoint := (Lexeme.numeral_cons hd htail).2
  rw [h.drop_eq hline]
  refine ⟨⟨_, _, hlongest⟩, fun m post' hm ↦ ?_⟩
  -- There is only one longest numeral, the one that the lexer reads.
  obtain ⟨rfl, rfl⟩ := hlongest.unique hm
  have hfloat : decide ('.' ∈ d :: w) = float := by rw [Bool.eq_iff_iff, decide_eq_true_iff, hpoint]
  have hlength : p.column + (d :: w).length = p.column + 1 + w.length := by
    rw [List.length_cons]
    omega
  rw [hlength, hfloat]
  refine ⟨fun hmem hx ↦ ?_, fun x hx hword ↦ ?_, fun hfollow ↦ ?_⟩
  · obtain ⟨more, rfl⟩ := List.head?_eq_some_iff.1 hx
    refine h.scan_numeral_error hd htail hsplit (if_pos ?_)
    rw [hpoint.1 hmem]
    rfl
  · obtain ⟨more, rfl⟩ := List.head?_eq_some_iff.1 hx
    have hstart : isWordStart x = true := by simpa [isWordStart] using hword
    have hne : ¬ (float && x == '.') = true := by
      intro heq
      rw [Bool.and_eq_true, beq_iff_eq] at heq
      rw [heq.2] at hstart
      cases hstart
    exact h.scan_numeral_error hd htail hsplit ((if_neg hne).trans (if_pos hstart))
  · have hmay : ∀ x ∈ post.head?, Lexeme.MayFollowNumeral float x := by
      intro x hx
      obtain ⟨hdot, halphabetic, hunderscore⟩ := hfollow x hx
      refine ⟨?_, by simp [isWordStart, halphabetic, hunderscore]⟩
      rw [hpoint] at hdot
      simpa using hdot
    have htakes : (Lexeme.ofNumeral d t.cursor).Takes _ t.cursor w post :=
      Lexeme.ofNumeral_takes htail hsplit hmay
    rw [← Lexeme.read_of_isDigit hd] at htakes
    obtain ⟨u, hu, hplace⟩ := h.scan_eq_ok (ne_slash_of_isDigit hd) hsplit htakes
    have hlast : p.column + 1 + w.length - 1 = p.column + w.length := by omega
    refine ⟨u, ?_, hplace⟩
    simp only [hu, Lexeme.numeralKind, hpoint, hlast]

theorem numeral_classified_float : ∃ t,
    Starts "a = 12.5٣" ⟨1, 4⟩ '1' t ∧
    (lines "a = 12.5٣".toList)[0]? = some "a = 12.5٣".toList ∧
    LongestNumeral ("a = 12.5٣".toList.drop 4) ['1', '2', '.', '5'] ['٣'] ∧
    ∃ u, scan '1' t = .ok ⟨.float "12.5", .onLine 1 4 7⟩ u ∧
      StandsAt (lines "a = 12.5٣".toList) ⟨1, 8⟩ u := by
  have hstarts : Starts "a = 12.5٣" ⟨1, 4⟩ '1' _ :=
    ⟨⟨false, _, .reply (.reply .new (.readToken true)) (.readToken false), Prod.ext (by decide +kernel) rfl⟩,
      by decide +kernel, by decide +kernel⟩
  have hline : (lines "a = 12.5٣".toList)[0]? = some "a = 12.5٣".toList := by decide +kernel
  have hdrop : "a = 12.5٣".toList.drop 4 = ['1', '2', '.', '5', '٣'] := by decide +kernel
  have hlongest : LongestNumeral ("a = 12.5٣".toList.drop 4) ['1', '2', '.', '5'] ['٣'] := by
    rw [hdrop]
    refine Lexeme.longestNumeral_cons rfl rfl rfl ?_
    rintro x ⟨⟩
    exact ⟨rfl, nofun⟩
  have hfollow : ∀ x, ['٣'].head? = some x →
      ¬ ('.' ∈ ['1', '2', '.', '5'] ∧ x = '.') ∧ isAlphabetic x = false ∧ x ≠ '_' := by
    rintro x ⟨⟩
    decide +kernel
  obtain ⟨u, hu, hplace⟩ := ((hstarts.numeral_classified rfl hline).2 _ _ hlongest).2.2 hfollow
  exact ⟨_, hstarts, hline, hlongest, u, hu, hplace⟩

end Lexer.Starts

end Linewise
