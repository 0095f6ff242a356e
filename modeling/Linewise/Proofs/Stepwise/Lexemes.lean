import Linewise.Proofs.BlankedLexing
import Linewise.Proofs.Stepwise

namespace Linewise

open Text

namespace Cursor

variable {c : Cursor} {x : Char} {rest : List Char}

theorem forward_one (h : c.rest = x :: rest) :
    c.forward 1 = ⟨x :: c.read, rest, some x, c.current, false⟩ := by
  simp only [forward, next?, h]

theorem forward_of_nil (h : c.rest = []) (n : Nat) : c.forward n = c := by
  cases n <;> simp [forward, next?, h]

theorem forward_succ (n : Nat) (c : Cursor) : c.forward (n + 1) = (c.forward 1).forward n := by
  rw [Nat.add_comm, forward_add]

theorem stepBack?_forward (h : c.rest = x :: rest) : (c.forward 1).stepBack? = some c.peek := by
  simp [forward, peek, next?, stepBack?, h]

theorem column_le_forward (n : Nat) (c : Cursor) : c.column ≤ (c.forward n).column := by
  induction n generalizing c with
  | zero => exact Nat.le_refl _
  | succ n ih =>
    cases hr : c.rest with
    | nil => rw [forward_of_nil hr]
    | cons x rest =>
      rw [forward_succ]
      refine Nat.le_trans ?_ (ih _)
      rw [forward_one hr]
      exact Nat.le_succ _

theorem peek_of_nil (h : c.rest = []) : c.peek = c := by
  simp only [peek, next?, h]

/-- Looking for a character that does not come next takes the one that does and gives it back. -/
theorem nextIs_eq_peek (h : c.rest.head? ≠ some x) : c.nextIs x = (false, c.peek) := by
  cases hr : c.rest with
  | nil => simp only [nextIs, peek, next?, hr]
  | cons y rest =>
    have hy : y ≠ x := by
      rintro rfl
      exact h (by rw [hr]; rfl)
    simp only [nextIs, peek, next?, hr, if_neg hy]

theorem nextIs_of_head (h : c.rest.head? = some x) : ∃ d, c.nextIs x = (true, d) := by
  obtain ⟨rest, hr⟩ := List.head?_eq_some_iff.1 h
  exact ⟨_, by simp only [nextIs, next?, hr, if_true]; rfl⟩

theorem peek_peek (c : Cursor) : c.peek.peek = c.peek := by
  cases hr : c.rest with
  | nil => rw [peek_of_nil hr, peek_of_nil hr]
  | cons y rest => simp [peek, next?, stepBack?, hr]

theorem firstOf_append (options more : List (Char × TokenKind)) (c : Cursor) :
    c.firstOf (options ++ more) = match c.firstOf options with
      | (some kind, d) => (some kind, d)
      | (none, d) => d.firstOf more := by
  induction options generalizing c with
  | nil => rfl
  | cons o options ih =>
    rw [List.cons_append, firstOf, firstOf]
    split <;> simp only [ih]

theorem firstOf_of_none {options : List (Char × TokenKind)} {d : Cursor}
    (h : c.firstOf options = (none, d)) : d.firstOf options = (none, d) := by
  have step {options : List (Char × TokenKind)} {d : Cursor}
      (h : c.peek.firstOf options = (none, d)) : d = c.peek := by
    induction options with
    | nil =>
      cases h
      rfl
    | cons o options ih =>
      rw [firstOf] at h
      by_cases hhead : c.peek.rest.head? = some o.1
      · obtain ⟨e, he⟩ := nextIs_of_head hhead
        rw [he] at h
        cases h
      · rw [nextIs_eq_peek hhead, peek_peek] at h
        exact ih h
  cases options with
  | nil => rfl
  | cons o options =>
    rw [firstOf] at h
    by_cases hhead : c.rest.head? = some o.1
    · obtain ⟨e, he⟩ := nextIs_of_head hhead
      rw [he] at h
      cases h
    · rw [nextIs_eq_peek hhead] at h
      obtain rfl := step h
      have hpeek : c.peek.rest.head? ≠ some o.1 := by rwa [peek_rest]
      rw [firstOf, nextIs_eq_peek hpeek, peek_peek]
      exact h

theorem eq_some_of_firstOf {o : Option (Char × TokenKind)} {d : Cursor} {kind : TokenKind}
    (h : c.firstOf o.toList = (some kind, d)) : ∃ y, o = some (y, kind) := by
  cases o with
  | none => cases h
  | some o =>
    rw [Option.toList_some, firstOf] at h
    split at h <;> cases h
    exact ⟨o.1, rfl⟩

theorem grow_of_nil {kind : TokenKind} (h : kind.extensions = []) (c : Cursor) : c.grow kind = (kind, c) := by
  rw [grow, h]
  rfl

end Cursor

namespace Lexer

variable {s t : Lexer} {x : Char} {rest : List Char}

def forward (n : Nat) (s : Lexer) : Lexer := { s with cursor := s.cursor.forward n }

theorem readChar_of_cons (h : s.cursor.rest = x :: rest) : s.readChar false = (true, s.forward 1) := by
  simp only [readChar, nextChar?, forward, Cursor.forward, Cursor.next?, Bool.false_eq_true, if_false, h,
    Option.isSome_some]

theorem readChar_of_nil (h : s.cursor.rest = []) : s.readChar false = (false, s) := by
  simp only [readChar, nextChar?, Cursor.next?, Bool.false_eq_true, if_false, h, Option.isSome_none]

theorem exists_of_readChar (h : s.readChar false = (true, t)) :
    ∃ x rest, s.cursor.rest = x :: rest ∧ t = s.forward 1 := by
  cases hr : s.cursor.rest with
  | nil =>
    rw [readChar_of_nil hr] at h
    cases h
  | cons x rest =>
    rw [readChar_of_cons hr] at h
    exact ⟨x, rest, rfl, (Prod.mk.inj h).2.symm⟩

theorem eq_of_readChar (h : s.readChar false = (false, t)) : s.cursor.rest = [] ∧ t = s := by
  cases hr : s.cursor.rest with
  | nil =>
    rw [readChar_of_nil hr] at h
    exact ⟨rfl, (Prod.mk.inj h).2.symm⟩
  | cons x rest =>
    rw [readChar_of_cons hr] at h
    cases h

theorem current_forward (h : s.cursor.rest = x :: rest) : (s.forward 1).cursor.current = some x := by
  rw [forward, Cursor.forward_one h]

theorem rest_of_current (h : s.readChar false = (true, t)) (hx : t.cursor.current = some x) :
    ∃ rest, s.cursor.rest = x :: rest ∧ t = s.forward 1 := by
  obtain ⟨y, rest, hr, rfl⟩ := exists_of_readChar h
  obtain rfl := Option.some.inj ((current_forward hr).symm.trans hx)
  exact ⟨rest, hr, rfl⟩

theorem current_ne_none (h : s.readChar false = (true, t)) : t.cursor.current ≠ none := by
  obtain ⟨x, rest, hr, rfl⟩ := exists_of_readChar h
  rw [current_forward hr]
  exact nofun

theorem rest_forward (h : s.cursor.rest = x :: rest) : (s.forward 1).cursor.rest = rest := by
  rw [forward, Cursor.forward_one h]

theorem forward_forward (m n : Nat) (s : Lexer) : (s.forward m).forward n = s.forward (n + m) := by
  simp only [forward, ← Cursor.forward_add, Nat.add_comm n m]

namespace Step

variable {α β : Type}

theorem bind_of_ok {m : Step α} {f : α → Step β} {a : α} (h : m s = .ok a t) : (m >>= f) s = f a t := by
  simp only [bind, EStateM.bind, h]

theorem bind_of_error {m : Step α} {f : α → Step β} {e : Failure LexicalError} (h : m s = .error e t) :
    (m >>= f) s = .error e t := by
  simp only [bind, EStateM.bind, h]

theorem unreadChar_of_cons (h : s.cursor.rest = x :: rest) :
    unreadChar (s.forward 1) = .ok () { s with cursor := s.cursor.peek } := by
  simp only [unreadChar, Lexer.unreadChar, forward, Cursor.stepBack?_forward h]

theorem spanOf_eq {start stop : Nat} (h : start ≤ stop) :
    spanOf start stop s = .ok (.onLine s.lineNumber start stop) s := by
  simp only [spanOf, ensure, decide_eq_true h, if_true]
  rfl

theorem spanFrom_eq {start : Nat} (h : start ≤ s.cursor.position) :
    spanFrom start s = .ok (.onLine s.lineNumber start s.cursor.position) s := by
  have hmax : max s.cursor.position start = s.cursor.position := Nat.max_eq_left h
  exact (spanOf_eq (Nat.le_max_right _ _)).trans (by rw [hmax])

theorem spanHere_eq (s : Lexer) :
    spanHere s = .ok (.onLine s.lineNumber s.cursor.position s.cursor.position) s :=
  spanOf_eq (Nat.le_refl _)

theorem nextIs_eq (x : Char) (s : Lexer) :
    nextIs x s = .ok (s.cursor.nextIs x).1 { s with cursor := (s.cursor.nextIs x).2 } := by
  cases hr : s.cursor.rest with
  | nil =>
    have hread : readChar s = .ok false s := by rw [readChar, readChar_of_nil hr]
    rw [nextIs, bind_of_ok hread]
    simp only [Cursor.nextIs, Cursor.next?, hr]
    rfl
  | cons y rest =>
    have hread : readChar s = .ok true (s.forward 1) := by rw [readChar, readChar_of_cons hr]
    have hcurrent : current? (s.forward 1) = .ok (some y) (s.forward 1) := by
      rw [← current_forward hr]
      rfl
    rw [nextIs, bind_of_ok hread]
    simp only [Bool.not_true, Bool.false_eq_true, if_false]
    rw [bind_of_ok hcurrent]
    by_cases hy : y = x
    · subst hy
      simp only [Cursor.nextIs, Cursor.next?, hr, if_true, forward, Cursor.forward_one hr]
      rfl
    · simp only [if_neg (mt Option.some.inj hy)]
      rw [bind_of_ok (unreadChar_of_cons hr)]
      simp only [Cursor.nextIs, Cursor.next?, hr, if_neg hy, Cursor.peek]
      rfl

def ofLexeme (l : Lexeme) (s : Lexer) : Outcome TokenKind :=
  match l.outcome with
  | .ok kind => .ok kind { s with cursor := l.cursor }
  | .error cause =>
    .error (.rejected ⟨cause, .onLine s.lineNumber l.first l.last⟩) { s with cursor := l.cursor }

theorem lineComment_eq (s : Lexer) : lineComment s = .ok .lineComment (s.forward s.cursor.rest.length) := by
  fun_induction lineComment s with
  | case1 s t h ih =>
    obtain ⟨x, rest, hr, rfl⟩ := exists_of_readChar h
    rw [ih, forward_forward, rest_forward hr, hr]
    rfl
  | case2 s t h =>
    obtain ⟨hr, rfl⟩ := eq_of_readChar h
    rw [hr]
    rfl

theorem position_le_forward (n : Nat) (s : Lexer) : s.cursor.position ≤ (s.forward n).cursor.position :=
  Nat.sub_le_sub_right (Cursor.column_le_forward n _) 1

def quotedOutcome (value : List Char) (s : Lexer) : Lexeme.Quoted × Nat → Outcome (Option (List Char))
  | (.closed more, n) => .ok (some (value ++ more)) (s.forward n)
  | (.unclosed, n) => .ok none (s.forward n)
  | (.badEscape e, n) => .error (.rejected ⟨.invalidEscape e, .onLine s.lineNumber
      ((s.forward n).cursor.position - 1) (s.forward n).cursor.position⟩) (s.forward n)

theorem quotedOutcome_push (value : List Char) (y : Char) (m : Nat) (r : Lexeme.Quoted × Nat) (s : Lexer) :
    quotedOutcome (value ++ [y]) (s.forward m) r = quotedOutcome value s (r.1.push y, r.2 + m) := by
  obtain ⟨_ | _ | _, n⟩ := r <;>
    simp only [quotedOutcome, Lexeme.Quoted.push, forward_forward, List.append_assoc] <;> rfl

theorem quoted_eq (quote : Char) (value : List Char) (s : Lexer) :
    quoted quote value s = quotedOutcome value s (Lexeme.quoted quote s.cursor.rest) := by
  fun_induction quoted quote value s with
  | case1 value s t h =>
    obtain ⟨hr, rfl⟩ := eq_of_readChar h
    rw [hr]
    rfl
  | case2 value s t h hc => exact absurd hc (current_ne_none h)
  | case3 value s t h hc =>
    obtain ⟨rest, hr, rfl⟩ := rest_of_current h hc
    rw [hr, Lexeme.quoted.eq_def]
    dsimp only
    rw [if_pos rfl, quotedOutcome, List.append_nil]
  | case4 value s t h u hu hc hq =>
    obtain ⟨rest, hr, rfl⟩ := rest_of_current h hc
    obtain ⟨hrest, rfl⟩ := eq_of_readChar hu
    rw [rest_forward hr] at hrest
    rw [hr, hrest, Lexeme.quoted, if_neg hq, if_pos rfl]
    rfl
  | case5 value s t h u hu he hc hq =>
    obtain ⟨rest, hr, rfl⟩ := rest_of_current h hc
    obtain ⟨e, rest, hr', rfl⟩ := exists_of_readChar hu
    have hcurrent := current_forward hr'
    rw [rest_forward hr] at hr'
    rw [hcurrent, Option.getD_some] at he ⊢
    have hspan := spanFrom_eq (position_le_forward 1 (s.forward 1))
    have hposition : (s.forward 1).cursor.position = (s.forward 2).cursor.position - 1 := by
      have hone := Cursor.forward_column (c := s.cursor) (n := 1) (by simp [hr])
      have htwo := Cursor.forward_column (c := s.cursor) (n := 2) (by simp [hr, hr'])
      simp only [Cursor.position, forward, hone, htwo]
      omega
    rw [bind_of_ok hspan, forward_forward, hposition, hr, hr', Lexeme.quoted, if_neg hq, if_pos rfl, he]
    rfl
  | case6 value s t h u hu y he hc hq ih =>
    obtain ⟨rest, hr, rfl⟩ := rest_of_current h hc
    obtain ⟨e, rest, hr', rfl⟩ := exists_of_readChar hu
    rw [current_forward hr', Option.getD_some] at he
    rw [ih, rest_forward hr', forward_forward, quotedOutcome_push]
    rw [rest_forward hr] at hr'
    rw [hr, hr', Lexeme.quoted, if_neg hq, if_pos rfl, he]
  | case7 value s t h c hc hq hx ih =>
    obtain ⟨rest, hr, rfl⟩ := rest_of_current h hc
    rw [hr, Lexeme.quoted.eq_def]
    dsimp only
    rw [if_neg hq, if_neg hx, ih, rest_forward hr, quotedOutcome_push]

theorem charLiteral_eq (s : Lexer) :
    charLiteral s.cursor.position s = ofLexeme (Lexeme.ofQuoted '\'' s.cursor) s := by
  have hquoted : of (quoted '\'' []) s = _ := quoted_eq '\'' [] s
  rw [charLiteral, ofLexeme, Lexeme.ofQuoted]
  rcases hq : Lexeme.quoted '\'' s.cursor.rest with ⟨_ | _ | _, n⟩
  · next value =>
    rw [hq] at hquoted
    rw [bind_of_ok hquoted, List.nil_append]
    cases value with
    | nil =>
      dsimp only
      rw [bind_of_ok (spanFrom_eq (position_le_forward n s))]
      rfl
    | cons c rest => cases rest with
      | nil => rfl
      | cons d rest =>
        dsimp only
        rw [bind_of_ok (spanFrom_eq (position_le_forward n s))]
        rfl
  · rw [hq] at hquoted
    rw [bind_of_error hquoted]
    rfl
  · rw [hq] at hquoted
    rw [bind_of_ok hquoted]
    dsimp only
    rw [bind_of_ok (spanOf_eq (Nat.le_refl _))]
    rfl

theorem stringLiteral_eq (s : Lexer) :
    stringLiteral s.cursor.position s = ofLexeme (Lexeme.ofQuoted '"' s.cursor) s := by
  have hquoted : of (quoted '"' []) s = _ := quoted_eq '"' [] s
  rw [stringLiteral, ofLexeme, Lexeme.ofQuoted]
  rcases hq : Lexeme.quoted '"' s.cursor.rest with ⟨_ | _ | _, n⟩
  · rw [hq] at hquoted
    rw [bind_of_ok hquoted, List.nil_append]
    rfl
  · rw [hq] at hquoted
    rw [bind_of_error hquoted]
    rfl
  · rw [hq] at hquoted
    rw [bind_of_ok hquoted]
    dsimp only
    rw [bind_of_ok (spanOf_eq (Nat.le_refl _))]
    rfl

def numeralError (cause : LexicalCause) (s : Lexer) : Outcome (List Char × Bool) :=
  .error (.rejected ⟨cause, .onLine s.lineNumber s.cursor.position s.cursor.position⟩) s

def tailAfter (float : Bool) (rest : List Char) : List Char × Bool :=
  if float then (rest.takeWhile isDigit, true) else Lexeme.numeralTail rest

theorem tailAfter_digit {float : Bool} (h : isDigit x = true) : tailAfter float (x :: rest) =
    (x :: (tailAfter float rest).1, (tailAfter float rest).2) := by
  cases float with
  | true => simp [tailAfter, h]
  | false =>
    simp only [tailAfter, Lexeme.numeralTail, List.takeWhile_cons, List.dropWhile_cons, h, if_true,
      Bool.false_eq_true, if_false]
    split <;> rfl

theorem tailAfter_point : tailAfter false ('.' :: rest) = ('.' :: (tailAfter true rest).1, true) := rfl

theorem tailAfter_other {float : Bool} (h : ¬ isDigit x = true) (hx : x ≠ '.' ∨ float = true) :
    tailAfter float (x :: rest) = ([], float) := by
  cases float with
  | true => simp [tailAfter, h]
  | false =>
    have hne : x ≠ '.' := by simpa using hx
    simp only [tailAfter, Lexeme.numeralTail, List.takeWhile_cons, List.dropWhile_cons, h,
      Bool.false_eq_true, if_false]
    split
    · next hp => exact absurd (List.cons.inj hp).1 hne
    · rfl

def numeralOutcome (text tail : List Char) (float : Bool) (s : Lexer) : Outcome (List Char × Bool) :=
  match s.cursor.rest.drop tail.length with
  | [] => .ok (text ++ tail, float) (s.forward tail.length)
  | x :: _ =>
    if float && x == '.' then numeralError .multipleDecimalPoints (s.forward (tail.length + 1))
    else if isWordStart x then
      numeralError (.invalidNumeralCharacter x float) (s.forward (tail.length + 1))
    else .ok (text ++ tail, float) { s with cursor := (s.cursor.forward tail.length).peek }

theorem numeralOutcome_cons (text tail : List Char) (y : Char) (float : Bool) (h : s.cursor.rest = x :: rest) :
    numeralOutcome (text ++ [y]) tail float (s.forward 1) = numeralOutcome text (y :: tail) float s := by
  have hpeek : ((s.forward 1).cursor.forward tail.length).peek = (s.cursor.forward (tail.length + 1)).peek := by
    rw [Cursor.forward_succ]
    rfl
  simp only [numeralOutcome, rest_forward h, h, List.length_cons, List.drop_succ_cons, forward_forward,
    List.append_assoc, List.singleton_append, hpeek]
  rfl

theorem numeralOutcome_nil (text : List Char) (float : Bool) (h : s.cursor.rest = x :: rest) :
    numeralOutcome text [] float s =
      if float && x == '.' then numeralError .multipleDecimalPoints (s.forward 1)
      else if isWordStart x then numeralError (.invalidNumeralCharacter x float) (s.forward 1)
      else .ok (text, float) { s with cursor := s.cursor.peek } := by
  simp only [numeralOutcome, h, List.length_nil, List.drop_zero, List.append_nil]
  rfl

theorem numeralTail_eq (text : List Char) (float : Bool) (s : Lexer) : numeralTail text float s =
    numeralOutcome text (tailAfter float s.cursor.rest).1 (tailAfter float s.cursor.rest).2 s := by
  fun_induction numeralTail text float s with
  | case1 text float s t h =>
    obtain ⟨hr, rfl⟩ := eq_of_readChar h
    have htail : tailAfter float [] = ([], float) := by cases float <;> rfl
    rw [hr, htail]
    simp only [numeralOutcome, hr, List.drop_nil, List.append_nil]
    rfl
  | case2 text float s t h stop hc => exact absurd hc (current_ne_none h)
  | case3 text float s t h x hc hdigit ih =>
    obtain ⟨rest, hr, rfl⟩ := rest_of_current h hc
    rw [ih, rest_forward hr, hr, tailAfter_digit hdigit, numeralOutcome_cons _ _ _ _ hr]
  | case4 text s t h hc hdigit =>
    obtain ⟨rest, hr, rfl⟩ := rest_of_current h hc
    rw [bind_of_ok (spanHere_eq _), hr, tailAfter_other hdigit (.inr rfl),
      numeralOutcome_nil _ _ hr]
    rfl
  | case5 text float s t h hfloat hc hdigit ih =>
    obtain ⟨rest, hr, rfl⟩ := rest_of_current h hc
    obtain rfl := Bool.eq_false_iff.2 hfloat
    rw [ih, rest_forward hr, hr, numeralOutcome_cons _ _ _ _ hr, tailAfter_point]
    rfl
  | case6 text float s t h x hc hdigit hpoint hword =>
    obtain ⟨rest, hr, rfl⟩ := rest_of_current h hc
    have hand : ¬ (float && x == '.') = true := by simp [hpoint]
    rw [bind_of_ok (spanHere_eq _), hr, tailAfter_other hdigit (.inl hpoint),
      numeralOutcome_nil _ _ hr, if_neg hand, if_pos hword]
    rfl
  | case7 text float s t h stop x hc hdigit hpoint hword =>
    obtain ⟨rest, hr, rfl⟩ := rest_of_current h hc
    have hand : ¬ (float && x == '.') = true := by simp [hpoint]
    have hstop : stop (s.forward 1) = .ok (text, float) { s with cursor := s.cursor.peek } :=
      bind_of_ok (unreadChar_of_cons hr)
    rw [hstop, hr, tailAfter_other hdigit (.inl hpoint),
      numeralOutcome_nil _ _ hr, if_neg hand, if_neg hword]

theorem numeral_eq (x : Char) (s : Lexer) : numeral x s = ofLexeme (Lexeme.ofNumeral x s.cursor) s := by
  have htail : of (numeralTail [x] false) s = _ := numeralTail_eq [x] false s
  rw [numeral, ofLexeme, Lexeme.ofNumeral, Lexeme.numeral]
  simp only [tailAfter, Bool.false_eq_true, if_false, numeralOutcome] at htail
  rcases ht : Lexeme.numeralTail s.cursor.rest with ⟨tail, float⟩
  rw [ht] at htail
  dsimp only at htail
  cases hdrop : s.cursor.rest.drop tail.length with
  | nil =>
    rw [hdrop] at htail
    rw [bind_of_ok htail]
    have hrest : (s.cursor.forward tail.length).rest = [] := by rw [Cursor.forward_rest, hdrop]
    simp only [hdrop, Lexeme.token, Cursor.peek_of_nil hrest]
    rfl
  | cons y post =>
    rw [hdrop] at htail
    dsimp only at htail
    by_cases hdot : (float && y == '.') = true
    · rw [if_pos hdot] at htail
      rw [bind_of_error htail]
      simp only [hdrop, if_pos hdot]
      rfl
    rw [if_neg hdot] at htail
    by_cases hword : isWordStart y = true
    · rw [if_pos hword] at htail
      rw [bind_of_error htail]
      simp only [hdrop, if_neg hdot, if_pos hword]
      rfl
    · rw [if_neg hword] at htail
      rw [bind_of_ok htail]
      simp only [hdrop, if_neg hdot, if_neg hword]
      rfl

theorem wordTail_eq (text : List Char) (s : Lexer) : wordTail text s =
    .ok (text ++ s.cursor.rest.takeWhile isWordPart)
      { s with cursor := (s.cursor.forward (s.cursor.rest.takeWhile isWordPart).length).peek } := by
  fun_induction wordTail text s with
  | case1 text s t h =>
    obtain ⟨hr, rfl⟩ := eq_of_readChar h
    simp only [hr, List.takeWhile_nil, List.append_nil, List.length_nil, Cursor.forward, Cursor.peek_of_nil hr]
  | case2 text s t h stop hc => exact absurd hc (current_ne_none h)
  | case3 text s t h x hc hx ih =>
    obtain ⟨rest, hr, rfl⟩ := rest_of_current h hc
    rw [ih, rest_forward hr, hr, List.takeWhile_cons, if_pos hx, List.append_assoc, List.length_cons,
      Cursor.forward_succ]
    rfl
  | case4 text s t h stop x hc hx =>
    obtain ⟨rest, hr, rfl⟩ := rest_of_current h hc
    rw [hr, List.takeWhile_cons, if_neg hx, List.append_nil]
    exact bind_of_ok (unreadChar_of_cons hr)

theorem word_eq (x : Char) (s : Lexer) : word x s = ofLexeme (Lexeme.ofWord x s.cursor) s := by
  have htail : of (wordTail [x]) s = _ := wordTail_eq [x] s
  rw [word, bind_of_ok htail]
  rfl

theorem ifNext_eq (longer : Option (Char × TokenKind)) (found : TokenKind → Step TokenKind)
    (other : Step TokenKind) (s : Lexer) :
    ifNext longer found other s = match s.cursor.firstOf longer.toList with
      | (some kind, c) => found kind { s with cursor := c }
      | (none, c) => other { s with cursor := c } := by
  cases longer with
  | none => rfl
  | some o =>
    obtain ⟨x, kind⟩ := o
    rw [ifNext, bind_of_ok (nextIs_eq x s)]
    simp only [Option.toList_some, Cursor.firstOf]
    cases s.cursor.nextIs x with
    | mk b c => cases b <;> rfl

/-- The characters that an operator may be followed by are looked for in the order of the table. -/
structure Arranged (first : Char) (single : TokenKind) : Prop where
  start : first ∈ operatorStarts
  extensions : single.extensions = ((doubled? single).map (first, ·)).toList ++
    ((paired? single).toList ++ (single.withAssignment?.map ('=', ·)).toList)
  doubled : ∀ kind ∈ doubled? single, kind.extensions = (kind.withAssignment?.map ('=', ·)).toList
  paired : ∀ o ∈ paired? single, o.2.extensions = []
  assignment : ∀ kind ∈ single.withAssignment?, kind.extensions = []

theorem arranged_of_ofOperator? {single : TokenKind} :
    TokenKind.ofOperator? x = some single → Arranged x single := by
  iterate 14
    refine TokenKind.of_ite (P := fun k ↦ Arranged x k) ?_ ?_
    · rintro rfl
      constructor <;> decide
  exact nofun

theorem withAssignment_eq {kind : TokenKind}
    (h : kind.extensions = (kind.withAssignment?.map ('=', ·)).toList) (s : Lexer) :
    withAssignment kind s = .ok (s.cursor.grow kind).1 { s with cursor := (s.cursor.grow kind).2 } := by
  rw [withAssignment, ifNext_eq, Cursor.grow, h]
  cases s.cursor.firstOf (kind.withAssignment?.map ('=', ·)).toList with
  | mk k c => cases k <;> rfl

theorem operator_eq {single : TokenKind} (h : TokenKind.ofOperator? x = some single) (s : Lexer) :
    operator x s = ofLexeme (Lexeme.ofOperator single s.cursor) s := by
  obtain ⟨-, hext, hdoubled, hpaired, hassign⟩ := arranged_of_ofOperator? h
  rw [operator, h]
  dsimp only
  rw [ifNext_eq, ofLexeme, Lexeme.ofOperator]
  have hfirst := Cursor.firstOf_append ((doubled? single).map (x, ·)).toList
    ((paired? single).toList ++ (single.withAssignment?.map ('=', ·)).toList) s.cursor
  rw [← hext] at hfirst
  rcases hd : s.cursor.firstOf ((doubled? single).map (x, ·)).toList with ⟨_ | kind, c⟩
  · rw [hd] at hfirst
    dsimp only at hfirst ⊢
    rw [Cursor.firstOf_append] at hfirst
    rw [ifNext_eq]
    rcases hp : c.firstOf (paired? single).toList with ⟨_ | kind, d⟩
    · rw [hp] at hfirst
      dsimp only at hfirst ⊢
      rw [withAssignment, ifNext_eq]
      rcases ha : d.firstOf (single.withAssignment?.map ('=', ·)).toList with ⟨_ | kind, e⟩
      · have hgrow : s.cursor.grow single = (single, e) := by rw [Cursor.grow, hfirst, ha]
        have hagain : e.grow single = (single, e) := by
          rw [Cursor.grow, Cursor.firstOf_of_none (hfirst.trans ha)]
        rw [hgrow]
        dsimp only
        rw [hagain]
        rfl
      · have hgrow : s.cursor.grow single = (kind, e) := by rw [Cursor.grow, hfirst, ha]
        obtain ⟨y, hy⟩ := Cursor.eq_some_of_firstOf ha
        obtain ⟨a, ha, hya⟩ := Option.map_eq_some_iff.1 hy
        cases hya
        rw [hgrow]
        dsimp only
        rw [Cursor.grow_of_nil (hassign _ ha)]
        rfl
    · rw [hp] at hfirst
      have hgrow : s.cursor.grow single = (kind, d) := by rw [Cursor.grow, hfirst]
      obtain ⟨y, hy⟩ := Cursor.eq_some_of_firstOf hp
      rw [hgrow]
      dsimp only
      rw [Cursor.grow_of_nil (hpaired _ hy)]
      rfl
  · rw [hd] at hfirst
    have hgrow : s.cursor.grow single = (kind, c) := by rw [Cursor.grow, hfirst]
    obtain ⟨y, hy⟩ := Cursor.eq_some_of_firstOf hd
    obtain ⟨d, hd, hyd⟩ := Option.map_eq_some_iff.1 hy
    cases hyd
    rw [hgrow]
    exact withAssignment_eq (hdoubled _ hd) _

theorem isSome_ofOperator? (h : x ∈ operatorStarts) : (TokenKind.ofOperator? x).isSome = true := by
  have hall : operatorStarts.all (fun y ↦ (TokenKind.ofOperator? y).isSome) = true := by decide
  exact List.all_eq_true.1 hall x h

/-- Reading a token character by character is reading it at once. -/
theorem tokenKind_eq (x : Char) (s : Lexer) :
    tokenKind x s.cursor.position s = ofLexeme (Lexeme.read x s.cursor) s := by
  cases hd : TokenKind.ofDelimiter? x with
  | some kind =>
    simp only [tokenKind, Lexeme.read, hd]
    rfl
  | none =>
    by_cases hhash : x = '#'
    · subst hhash
      exact lineComment_eq s
    by_cases happo : x = '\''
    · subst happo
      exact charLiteral_eq s
    by_cases hquote : x = '"'
    · subst hquote
      exact stringLiteral_eq s
    have hquotes : ¬ (x = '\'' || x = '"') = true := by simp [happo, hquote]
    simp only [tokenKind, Lexeme.read, hd, if_neg hhash, if_neg happo, if_neg hquote, if_neg hquotes]
    cases ho : TokenKind.ofOperator? x with
    | some single =>
      simp only [if_pos (arranged_of_ofOperator? ho).start]
      exact operator_eq ho s
    | none =>
      have hstart : x ∉ operatorStarts := by
        intro hx
        have hsome := isSome_ofOperator? hx
        rw [ho] at hsome
        cases hsome
      simp only [if_neg hstart]
      by_cases hdigit : isDigit x = true
      · rw [if_pos hdigit, if_pos hdigit]
        exact numeral_eq x s
      rw [if_neg hdigit, if_neg hdigit]
      by_cases hword : isWordStart x = true
      · rw [if_pos hword, if_pos hword]
        exact word_eq x s
      · rw [if_neg hword, if_neg hword, bind_of_ok (spanOf_eq (Nat.le_refl _))]
        rfl

end Step

end Lexer

end Linewise
