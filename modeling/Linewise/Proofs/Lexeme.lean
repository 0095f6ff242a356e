import Mathlib.Data.List.TakeWhile
import Linewise.Lexeme

namespace Linewise

def Cut (post post' : List Char) : Prop :=
  post'.head? = post.head? ∨ post'.head? = none ∨ post'.head? = some ' '

namespace Cut

theorem refl (post : List Char) : Cut post post := .inl rfl

theorem append (w : List Char) {post post' : List Char} (h : Cut post post') :
    Cut (w ++ post) (w ++ post') := by
  cases w with
  | nil => exact h
  | cons x w => exact .inl rfl

theorem head {post post' : List Char} {P : Char → Prop} (h : Cut post post') (hs : P ' ')
    (hp : ∀ x ∈ post.head?, P x) : ∀ x ∈ post'.head?, P x := by
  intro x hx
  rcases h with h | h | h
  · exact hp x (h ▸ hx)
  · rw [h] at hx
    cases hx
  · rw [h] at hx
    cases hx
    exact hs

end Cut

theorem takeWhile_append {p : Char → Bool} {w post : List Char}
    (h : ∀ x ∈ post.head?, p x = false) : (w ++ post).takeWhile p = w.takeWhile p := by
  induction w with
  | nil =>
    cases post with
    | nil => rfl
    | cons x post => simp [h x rfl]
  | cons y w ih => simp only [List.cons_append, List.takeWhile_cons, ih]

theorem dropWhile_append {p : Char → Bool} {w post : List Char}
    (h : ∀ x ∈ post.head?, p x = false) : (w ++ post).dropWhile p = w.dropWhile p ++ post := by
  induction w with
  | nil =>
    cases post with
    | nil => rfl
    | cons x post => simp [h x rfl]
  | cons y w ih =>
    simp only [List.cons_append, List.dropWhile_cons, ih]
    split <;> rfl

theorem head_dropWhile {p : Char → Bool} (w : List Char) :
    ∀ x ∈ (w.dropWhile p).head?, p x = false := by
  induction w with
  | nil => simp
  | cons y w ih =>
    rw [List.dropWhile_cons]
    split
    · exact ih
    · next hy =>
      intro x hx
      cases hx
      simpa using hy

namespace Cursor

variable {c : Cursor} {x : Char} {rest : List Char}

theorem next?_of_cons (h : c.rest = x :: rest) :
    ∃ d, c.next? = some (x, d) ∧ d.rest = rest ∧ d.column = c.column + 1 := by
  simp [next?, h, column]

theorem nextIs_of_cons (h : c.rest = x :: rest) :
    ∃ d, c.nextIs x = (true, d) ∧ d.rest = rest ∧ d.column = c.column + 1 := by
  obtain ⟨d, hd, hr, hc⟩ := next?_of_cons h
  exact ⟨d, by simp [nextIs, hd], hr, hc⟩

theorem nextIs_of_ne (h : c.rest.head? ≠ some x) :
    ∃ d, c.nextIs x = (false, d) ∧ d.rest = c.rest ∧ d.column = c.column := by
  cases hr : c.rest with
  | nil => exact ⟨c, by simp [nextIs, next?, hr], hr, rfl⟩
  | cons y rest =>
    have hy : y ≠ x := by
      rintro rfl
      exact h (by rw [hr]; rfl)
    simp [nextIs, next?, hr, hy, stepBack?, column]

theorem forward_column {n : Nat} (h : n ≤ c.rest.length) : (c.forward n).column = c.column + n := by
  induction n generalizing c with
  | zero => rfl
  | succ n ih =>
    cases hr : c.rest with
    | nil => simp [hr] at h
    | cons y rest =>
      obtain ⟨d, hd, hdr, hdc⟩ := next?_of_cons hr
      have hle : n ≤ d.rest.length := by
        rw [hr, List.length_cons] at h
        rw [hdr]
        omega
      simp only [forward, hd, ih hle, hdc]
      omega

@[simp]
theorem peek_column (c : Cursor) : c.peek.column = c.column := by
  cases hr : c.rest <;> simp [peek, next?, hr, stepBack?, column]

theorem firstOf_of_lookup {options : List (Char × TokenKind)} {kind : TokenKind}
    (h : c.rest = x :: rest) (hl : options.lookup x = some kind) :
    ∃ d, c.firstOf options = (some kind, d) ∧ d.rest = rest ∧ d.column = c.column + 1 := by
  induction options generalizing c with
  | nil => cases hl
  | cons o options ih =>
    obtain ⟨y, k⟩ := o
    by_cases hy : x = y
    · subst hy
      obtain ⟨d, hd, hr⟩ := nextIs_of_cons h
      simp only [List.lookup_cons_self, Option.some.injEq] at hl
      exact ⟨d, by simp [firstOf, hd, hl], hr⟩
    · obtain ⟨d, hd, hr, hc⟩ := nextIs_of_ne (c := c) (x := y) (by simpa [h] using hy)
      have hb : (x == y) = false := by simpa using hy
      simp only [List.lookup_cons, hb] at hl
      obtain ⟨e, he, her, hec⟩ := ih (hr.trans h) hl
      exact ⟨e, by simp [firstOf, hd, he], her, hec.trans (by rw [hc])⟩

theorem firstOf_of_not_lookup {options : List (Char × TokenKind)}
    (h : ∀ x ∈ c.rest.head?, options.lookup x = none) :
    ∃ d, c.firstOf options = (none, d) ∧ d.rest = c.rest ∧ d.column = c.column := by
  induction options generalizing c with
  | nil => exact ⟨c, rfl, rfl, rfl⟩
  | cons o options ih =>
    obtain ⟨y, k⟩ := o
    have hy : c.rest.head? ≠ some y := by
      intro hy
      simpa using h y hy
    obtain ⟨d, hd, hr, hc⟩ := nextIs_of_ne hy
    have hrest : ∀ x ∈ d.rest.head?, options.lookup x = none := by
      intro x hx
      rw [hr] at hx
      have hxy : (x == y) = false := by
        rw [beq_eq_false_iff_ne]
        rintro rfl
        exact hy hx
      simpa [List.lookup_cons, hxy] using h x hx
    obtain ⟨e, he, her, hec⟩ := ih hrest
    exact ⟨e, by simp [firstOf, hd, he], her.trans hr, hec.trans hc⟩

end Cursor

/-- A table written as a chain of conditions holds what each of its lines does. -/
theorem TokenKind.of_ite {P : TokenKind → Prop} {c : Prop} [Decidable c] {k kind : TokenKind}
    {other : Option TokenKind} (hk : c → P k) (ho : other = some kind → P kind)
    (h : (if c then some k else other) = some kind) : P kind := by
  by_cases hc : c
  · rw [if_pos hc] at h
    exact Option.some.inj h ▸ hk hc
  · rw [if_neg hc] at h
    exact ho h

theorem TokenKind.lookup_space (kind : TokenKind) : kind.extensions.lookup ' ' = none := by
  cases kind with
  | operation op => cases op <;> rfl
  | _ => rfl

theorem TokenKind.lookup_return (kind : TokenKind) : kind.extensions.lookup '\r' = none := by
  cases kind with
  | operation op => cases op <;> rfl
  | _ => rfl

/-- From `c` on, a step takes the characters `w` and leaves `post`, and from any place where the same
characters are cut off at the latest there, it takes just them, with the same result. It never takes
a carriage return last. -/
def Cursor.Local {α : Type} (step : Cursor → α × Cursor) (c : Cursor) (a : α)
    (w post : List Char) : Prop :=
  c.rest = w ++ post ∧ '\r' ∉ w.getLast? ∧ ∀ (d : Cursor) (post' : List Char), d.rest = w ++ post' → Cut post post' →
    ∃ e, step d = (a, e) ∧ e.rest = post' ∧ e.column = d.column + w.length

theorem Cursor.grow_of_lookup {kind longer : TokenKind} {c : Cursor} {x : Char} {rest : List Char}
    (h : c.rest = x :: rest) (hl : kind.extensions.lookup x = some longer) :
    ∃ d, c.grow kind = (longer, d) ∧ d.rest = rest ∧ d.column = c.column + 1 := by
  obtain ⟨d, hd, hdr, hdc⟩ := firstOf_of_lookup h hl
  exact ⟨d, by simp [grow, hd], hdr, hdc⟩

theorem Cursor.grow_of_not_lookup {kind : TokenKind} {c : Cursor}
    (h : ∀ x ∈ c.rest.head?, kind.extensions.lookup x = none) :
    ∃ d, c.grow kind = (kind, d) ∧ d.rest = c.rest ∧ d.column = c.column := by
  obtain ⟨d, hd, hdr, hdc⟩ := firstOf_of_not_lookup h
  exact ⟨d, by simp [grow, hd], hdr, hdc⟩

theorem Cursor.lookup_cases (kind : TokenKind) (c : Cursor) :
    (∃ x rest longer, c.rest = x :: rest ∧ kind.extensions.lookup x = some longer) ∨
      ∀ x ∈ c.rest.head?, kind.extensions.lookup x = none := by
  cases hr : c.rest with
  | nil => exact .inr nofun
  | cons x rest =>
    cases hl : kind.extensions.lookup x with
    | none =>
      refine .inr fun y hy ↦ ?_
      cases hy
      exact hl
    | some longer => exact .inl ⟨x, rest, longer, rfl, hl⟩

theorem Cursor.grow_local (kind : TokenKind) (c : Cursor) :
    ∃ longer w post, Local (grow kind) c longer w post := by
  rcases c.lookup_cases kind with ⟨x, rest, longer, hr, hl⟩ | hnone
  · have hreturn : '\r' ∉ [x].getLast? := by
      intro hx
      obtain rfl : x = '\r' := Option.some.inj hx
      rw [kind.lookup_return] at hl
      cases hl
    exact ⟨longer, [x], rest, hr, hreturn, fun d post' hd _ ↦ grow_of_lookup hd hl⟩
  · refine ⟨kind, [], c.rest, rfl, by simp, fun d post' hd hcut ↦ ?_⟩
    rw [List.nil_append] at hd
    obtain ⟨e, he, her, hec⟩ := grow_of_not_lookup (c := d)
      (hd ▸ hcut.head kind.lookup_space hnone)
    exact ⟨e, he, her.trans hd, hec⟩

namespace Lexeme

open Text

structure Takes (l : Lexeme) (kind : TokenKind) (c : Cursor) (w post : List Char) : Prop where
  outcome : l.outcome = .ok kind
  first : l.first = c.position
  last : l.last = l.cursor.position
  rest : l.cursor.rest = post
  column : l.cursor.column = c.column + w.length

theorem takes_token {kind : TokenKind} {c d : Cursor} {w post : List Char} (hr : d.rest = post)
    (hc : d.column = c.column + w.length) : (token kind c.position d).Takes kind c w post :=
  ⟨rfl, rfl, rfl, hr, hc⟩

/-- A way to read a token that only depends on its own characters, the last of which is never a
carriage return. -/
def Local (reader : Cursor → Lexeme) (c : Cursor) (kind : TokenKind) : Prop :=
  ∃ w post, c.rest = w ++ post ∧ '\r' ∉ w.getLast? ∧ ∀ (d : Cursor) (post' : List Char), d.rest = w ++ post' →
    Cut post post' → (reader d).Takes kind d w post'

theorem ofOperator_local (kind : TokenKind) (c : Cursor) :
    ∃ longer, Local (ofOperator kind) c longer := by
  obtain ⟨kind₁, w₁, post₁, h₁, hr₁, hlocal₁⟩ := c.grow_local kind
  obtain ⟨d, -, hdr, -⟩ := hlocal₁ c post₁ h₁ (.refl _)
  obtain ⟨kind₂, w₂, post₂, h₂, hr₂, hlocal₂⟩ := d.grow_local kind₁
  have hpost : post₁ = w₂ ++ post₂ := hdr.symm.trans h₂
  have hreturn : '\r' ∉ (w₁ ++ w₂).getLast? := by
    rw [List.getLast?_append]
    cases hw : w₂.getLast? with
    | none => simpa using hr₁
    | some y => simpa [hw] using hr₂
  refine ⟨kind₂, w₁ ++ w₂, post₂, by rw [h₁, hpost, List.append_assoc], hreturn,
    fun d' post' hd hcut ↦ ?_⟩
  rw [List.append_assoc] at hd
  obtain ⟨e, he, her, hec⟩ := hlocal₁ d' (w₂ ++ post') hd (hpost ▸ hcut.append w₂)
  obtain ⟨e', he', her', hec'⟩ := hlocal₂ e post' her hcut
  simp only [ofOperator, he, he']
  refine takes_token her' ?_
  rw [hec', hec, List.length_append]
  omega

theorem quoted_quote (quote : Char) (rest : List Char) :
    quoted quote (quote :: rest) = (.closed [], 1) := by
  unfold quoted
  rw [if_pos rfl]

theorem quoted_escape {quote e value : Char} {rest : List Char} (hq : ¬ '\\' = quote)
    (he : unescape? e = some value) : quoted quote ('\\' :: e :: rest) =
      ((quoted quote rest).1.push value, (quoted quote rest).2 + 2) := by
  rw [quoted, if_neg hq, if_pos rfl]
  simp only [he]

theorem quoted_plain {quote x : Char} {rest : List Char} (hq : ¬ x = quote) (hx : ¬ x = '\\') :
    quoted quote (x :: rest) = ((quoted quote rest).1.push x, (quoted quote rest).2 + 1) := by
  conv => lhs; unfold quoted
  rw [if_neg hq, if_neg hx]

theorem closed_of_push {q : Quoted} {x : Char} {value : List Char} (h : q.push x = .closed value) :
    ∃ more, q = .closed more ∧ value = x :: more := by
  cases q <;> cases h
  exact ⟨_, rfl, rfl⟩

theorem quoted_getLast? {quote : Char} {rest value : List Char} {n : Nat}
    (h : quoted quote rest = (.closed value, n)) : (rest.take n).getLast? = some quote := by
  fun_induction quoted quote rest generalizing value n with
  | case1 | case3 | case4 => cases h
  | case2 rest =>
    cases h
    rfl
  | case5 e rest x he more m hm hq ih =>
    obtain ⟨hvalue, rfl⟩ := Prod.mk.inj h
    obtain ⟨tail, rfl, rfl⟩ := closed_of_push hvalue
    have hlast := ih hm
    simp [List.getLast?_cons, hlast]
  | case6 x rest hq hx more m hm ih =>
    obtain ⟨hvalue, rfl⟩ := Prod.mk.inj h
    obtain ⟨tail, rfl, rfl⟩ := closed_of_push hvalue
    have hlast := ih hm
    simp [List.getLast?_cons, hlast]

theorem quoted_take {quote : Char} {rest value : List Char} {n : Nat}
    (h : quoted quote rest = (.closed value, n)) (post : List Char) :
    n ≤ rest.length ∧ quoted quote (rest.take n ++ post) = (.closed value, n) := by
  fun_induction quoted quote rest generalizing value n with
  | case1 | case3 | case4 => cases h
  | case2 rest =>
    cases h
    exact ⟨by simp, quoted_quote quote post⟩
  | case5 e rest x he more m hm hq ih =>
    obtain ⟨hvalue, rfl⟩ := Prod.mk.inj h
    obtain ⟨tail, rfl, rfl⟩ := closed_of_push hvalue
    obtain ⟨hle, htake⟩ := ih hm
    refine ⟨by simpa using hle, ?_⟩
    rw [List.take_succ_cons, List.take_succ_cons, List.cons_append, List.cons_append,
      quoted_escape hq he, htake]
    rfl
  | case6 x rest hq hx more m hm ih =>
    obtain ⟨hvalue, rfl⟩ := Prod.mk.inj h
    obtain ⟨tail, rfl, rfl⟩ := closed_of_push hvalue
    obtain ⟨hle, htake⟩ := ih hm
    refine ⟨by simpa using hle, ?_⟩
    rw [List.take_succ_cons, List.cons_append, quoted_plain hq hx, htake]
    rfl

theorem ofQuoted_takes {quote : Char} {c : Cursor} {kind : TokenKind} {value w post : List Char}
    (h : quoted quote c.rest = (.closed value, w.length)) (hl : literal quote value = .ok kind)
    (hc : c.rest = w ++ post) : (ofQuoted quote c).Takes kind c w post := by
  have hcolumn : (c.forward w.length).column = c.column + w.length :=
    Cursor.forward_column (by rw [hc, List.length_append]; omega)
  simp only [ofQuoted, h]
  refine ⟨hl, rfl, rfl, ?_, hcolumn⟩
  rw [Cursor.forward_rest, hc, List.drop_left]

theorem ofQuoted_local {quote : Char} {c : Cursor} {kind : TokenKind} (hr : quote ≠ '\r')
    (h : (ofQuoted quote c).outcome = .ok kind) : Local (ofQuoted quote) c kind := by
  obtain ⟨value, n, hq⟩ : ∃ value n, quoted quote c.rest = (.closed value, n) := by
    unfold ofQuoted at h
    rcases hq : quoted quote c.rest with ⟨_ | _ | _, n⟩
    · exact ⟨_, n, rfl⟩
    all_goals
      simp only [hq] at h
      cases h
  have hliteral : literal quote value = .ok kind := by
    simpa only [ofQuoted, hq] using h
  have hreturn : '\r' ∉ (c.rest.take n).getLast? := by
    rw [quoted_getLast? hq]
    simpa using hr
  refine ⟨c.rest.take n, c.rest.drop n, (List.take_append_drop n _).symm, hreturn,
    fun d post' hd _ ↦ ?_⟩
  obtain ⟨hle, htake⟩ := quoted_take hq post'
  have hlen : (c.rest.take n).length = n := List.length_take_of_le hle
  rw [← hd] at htake
  exact ofQuoted_takes (htake.trans (by rw [hlen])) hliteral hd

theorem getLast?_takeWhile {p : Char → Bool} (hp : p '\r' = false) (w : List Char) :
    '\r' ∉ (w.takeWhile p).getLast? := by
  intro h
  have := List.mem_takeWhile_imp (List.mem_of_getLast? h)
  rw [hp] at this
  cases this

theorem takeWhile_self {p : Char → Bool} (w : List Char) :
    (w.takeWhile p).takeWhile p = w.takeWhile p := by
  rw [List.takeWhile_takeWhile]
  simp

theorem dropWhile_takeWhile {p : Char → Bool} (w : List Char) :
    (w.takeWhile p).dropWhile p = [] := by
  rw [List.dropWhile_eq_nil_iff]
  exact fun x hx ↦ List.mem_takeWhile_imp hx

def EndsNumeral (float : Bool) (x : Char) : Prop :=
  isDigit x = false ∧ (float = false → x ≠ '.')

theorem numeralTail_append (rest : List Char) :
    ∃ post, rest = (numeralTail rest).1 ++ post ∧
      (∀ x ∈ post.head?, EndsNumeral (numeralTail rest).2 x) ∧
      ∀ post' : List Char, (∀ x ∈ post'.head?, EndsNumeral (numeralTail rest).2 x) →
        numeralTail ((numeralTail rest).1 ++ post') = numeralTail rest := by
  have hsplit := List.takeWhile_append_dropWhile (p := isDigit) (l := rest)
  by_cases hdot : ∃ more, rest.dropWhile isDigit = '.' :: more
  · obtain ⟨more, hmore⟩ := hdot
    have htail : numeralTail rest =
        (rest.takeWhile isDigit ++ '.' :: more.takeWhile isDigit, true) := by
      simp only [numeralTail, hmore]
    have hmsplit := List.takeWhile_append_dropWhile (p := isDigit) (l := more)
    refine ⟨more.dropWhile isDigit, ?_, fun x hx ↦ ⟨head_dropWhile _ x hx, ?_⟩, fun post' hp ↦ ?_⟩
    · rw [htail, List.append_assoc, List.cons_append, hmsplit, ← hmore, hsplit]
    · rw [htail]
      rintro ⟨⟩
    · have hpoint : ∀ x ∈ ('.' :: (more.takeWhile isDigit ++ post')).head?, isDigit x = false := by
        intro x hx
        cases hx
        decide
      have hpost : ∀ x ∈ post'.head?, isDigit x = false := fun x hx ↦ (hp x hx).1
      rw [htail, List.append_assoc, List.cons_append, numeralTail, takeWhile_append hpoint,
        dropWhile_append hpoint, takeWhile_self, dropWhile_takeWhile, List.nil_append]
      simp only [takeWhile_append hpost, takeWhile_self]
  · have htail : numeralTail rest = (rest.takeWhile isDigit, false) := by
      unfold numeralTail
      split
      · next more hmore => exact absurd ⟨more, hmore⟩ hdot
      · rfl
    refine ⟨rest.dropWhile isDigit, ?_, fun x hx ↦ ⟨head_dropWhile _ x hx, ?_⟩, fun post' hp ↦ ?_⟩
    · rw [htail, hsplit]
    · rintro - rfl
      obtain ⟨more, hmore⟩ := List.head?_eq_some_iff.1 hx
      exact hdot ⟨more, hmore⟩
    · have hpost : ∀ x ∈ post'.head?, isDigit x = false := fun x hx ↦ (hp x hx).1
      rw [htail] at hp ⊢
      rw [numeralTail, takeWhile_append hpost, dropWhile_append hpost, takeWhile_self,
        dropWhile_takeWhile, List.nil_append]
      split
      · next more => exact absurd rfl ((hp '.' rfl).2 rfl)
      · rfl

theorem numeralTail_getLast? (rest : List Char) : '\r' ∉ (numeralTail rest).1.getLast? := by
  unfold numeralTail
  split
  · next more _ =>
    rw [List.getLast?_append, List.getLast?_cons]
    have hmore := getLast?_takeWhile (p := isDigit) (by decide) more
    cases hl : (more.takeWhile isDigit).getLast? with
    | none => simp
    | some y => simpa [hl] using hmore
  · exact getLast?_takeWhile (by decide) rest

def numeralKind (first : Char) (w : List Char) (float : Bool) : TokenKind :=
  if float then .float (String.ofList (first :: w)) else .integer (String.ofList (first :: w))

/-- A character after a numeral that is no error. -/
def MayFollowNumeral (float : Bool) (x : Char) : Prop :=
  (float && x == '.') = false ∧ isWordStart x = false

section

variable {first : Char} {rest w post : List Char} {float : Bool}

theorem numeral_eq_ok (htail : numeralTail rest = (w, float)) (hrest : rest = w ++ post)
    (hp : ∀ x ∈ post.head?, MayFollowNumeral float x) :
    numeral first rest = (.ok (numeralKind first w float), w.length) := by
  simp only [numeral, htail]
  rw [hrest, List.drop_left]
  cases post with
  | nil => rfl
  | cons x post =>
    obtain ⟨hdot, hword⟩ := hp x rfl
    simp only [hdot, hword, Bool.false_eq_true, if_false]
    rfl

theorem mayFollow_of_numeral {kind : TokenKind} (htail : numeralTail rest = (w, float))
    (hrest : rest = w ++ post) (h : (numeral first rest).1 = .ok kind) :
    ∀ x ∈ post.head?, MayFollowNumeral float x := by
  intro x hx
  obtain ⟨more, rfl⟩ := List.head?_eq_some_iff.1 hx
  simp only [numeral, htail] at h
  rw [hrest, List.drop_left] at h
  dsimp only at h
  cases hdot : float && x == '.' with
  | true =>
    rw [if_pos hdot] at h
    cases h
  | false =>
    rw [if_neg (by simp [hdot])] at h
    cases hword : isWordStart x with
    | true =>
      rw [if_pos hword] at h
      cases h
    | false => exact ⟨hdot, hword⟩

end

theorem ofNumeral_takes {first : Char} {c : Cursor} {float : Bool} {w post : List Char}
    (htail : numeralTail c.rest = (w, float)) (hc : c.rest = w ++ post)
    (hp : ∀ x ∈ post.head?, MayFollowNumeral float x) :
    (ofNumeral first c).Takes (numeralKind first w float) c w post := by
  simp only [ofNumeral, numeral_eq_ok htail hc hp]
  refine takes_token ?_ ?_
  · rw [Cursor.peek_rest, Cursor.forward_rest, hc, List.drop_left]
  · rw [Cursor.peek_column, Cursor.forward_column]
    rw [hc, List.length_append]
    omega

theorem ofNumeral_local {first : Char} {c : Cursor} {kind : TokenKind}
    (h : (ofNumeral first c).outcome = .ok kind) : Local (ofNumeral first) c kind := by
  obtain ⟨post, hsplit, hends, happend⟩ := numeralTail_append c.rest
  rcases htail : numeralTail c.rest with ⟨w, float⟩
  rw [htail] at hsplit hends happend
  have hok : (numeral first c.rest).1 = .ok kind := by
    unfold ofNumeral at h
    split at h <;> simp_all [token]
  have hmay := mayFollow_of_numeral htail hsplit hok
  have hkind : kind = numeralKind first w float := by
    rw [numeral_eq_ok htail hsplit hmay] at hok
    exact (Except.ok.inj hok).symm
  have hreturn : '\r' ∉ w.getLast? := by
    have := numeralTail_getLast? c.rest
    rwa [htail] at this
  refine ⟨w, post, hsplit, hreturn, fun d post' hd hcut ↦ ?_⟩
  have hboth := hcut.head (P := fun x ↦ EndsNumeral float x ∧ MayFollowNumeral float x)
    (by cases float <;> exact ⟨⟨by decide, by decide⟩, by decide, by decide⟩)
    fun x hx ↦ ⟨hends x hx, hmay x hx⟩
  have htail' : numeralTail d.rest = (w, float) := hd ▸ happend post' fun x hx ↦ (hboth x hx).1
  exact hkind ▸ ofNumeral_takes htail' hd fun x hx ↦ (hboth x hx).2

theorem ofWord_takes {first : Char} {c : Cursor} {w post : List Char} (hc : c.rest = w ++ post)
    (hw : w.all isWordPart = true) (hp : ∀ x ∈ post.head?, isWordPart x = false) :
    (ofWord first c).Takes (wordKind (String.ofList (first :: w))) c w post := by
  have htail : c.rest.takeWhile isWordPart = w := by
    rw [hc, takeWhile_append hp]
    exact List.takeWhile_eq_self_iff.2 (List.all_eq_true.1 hw)
  simp only [ofWord, htail]
  refine takes_token ?_ ?_
  · rw [Cursor.peek_rest, Cursor.forward_rest, hc, List.drop_left]
  · rw [Cursor.peek_column, Cursor.forward_column]
    rw [hc, List.length_append]
    omega

theorem ofWord_local (first : Char) (c : Cursor) : ∃ kind, Local (ofWord first) c kind := by
  have hall : (c.rest.takeWhile isWordPart).all isWordPart = true :=
    List.all_eq_true.2 fun x hx ↦ List.mem_takeWhile_imp hx
  refine ⟨wordKind (String.ofList (first :: c.rest.takeWhile isWordPart)), c.rest.takeWhile isWordPart,
    c.rest.dropWhile isWordPart, List.takeWhile_append_dropWhile.symm,
    getLast?_takeWhile (by decide) _, fun d post' hd hcut ↦ ofWord_takes hd hall ?_⟩
  exact hcut.head (P := fun x ↦ isWordPart x = false) (by decide) (head_dropWhile _)

theorem read_hash (c : Cursor) :
    (read '#' c).Takes .lineComment c c.rest [] := by
  refine takes_token ?_ (Cursor.forward_column (Nat.le_refl _))
  rw [Cursor.forward_rest, List.drop_length]

theorem Local.kind_eq {reader : Cursor → Lexeme} {c : Cursor} {kind kind' : TokenKind}
    (hl : Local reader c kind') (h : (reader c).outcome = .ok kind) : kind' = kind := by
  obtain ⟨w, post, hw, -, hl⟩ := hl
  exact Except.ok.inj ((hl c post hw (.refl _)).outcome.symm.trans h)

/-- Every token but a comment only depends on its own characters. -/
theorem read_local {first : Char} {c : Cursor} {kind : TokenKind}
    (h : (read first c).outcome = .ok kind) (hfirst : first ≠ '#') :
    Local (read first) c kind := by
  cases hdelimiter : TokenKind.ofDelimiter? first with
  | some kind' =>
    have hr : read first = fun c ↦ token kind' c.position c := by
      funext d
      simp only [read, hdelimiter]
    rw [hr] at h ⊢
    obtain rfl : kind' = kind := Except.ok.inj h
    exact ⟨[], c.rest, rfl, by simp, fun d post' hd _ ↦ takes_token hd rfl⟩
  | none => cases hoperator : TokenKind.ofOperator? first with
    | some kind' =>
      have hr : read first = ofOperator kind' := by
        funext d
        simp only [read, hdelimiter, hoperator]
      rw [hr] at h ⊢
      obtain ⟨longer, hl⟩ := ofOperator_local kind' c
      exact hl.kind_eq h ▸ hl
    | none =>
      have hr : read first = fun c ↦
          if first = '#' then ofLineComment c
          else if first = '\'' || first = '"' then ofQuoted first c
          else if isDigit first then ofNumeral first c
          else if isWordStart first then ofWord first c
          else ⟨.error (.unexpectedCharacter first), c.position, c.position, c⟩ := by
        funext d
        simp only [read, hdelimiter, hoperator]
      simp only [if_neg hfirst] at hr
      by_cases hquoted : (first = '\'' || first = '"') = true
      · simp only [if_pos hquoted] at hr
        rw [hr] at h ⊢
        refine ofQuoted_local ?_ h
        rintro rfl
        exact absurd hquoted (by decide)
      simp only [if_neg hquoted] at hr
      by_cases hdigit : isDigit first = true
      · simp only [if_pos hdigit] at hr
        rw [hr] at h ⊢
        exact ofNumeral_local h
      simp only [if_neg hdigit] at hr
      by_cases hword : isWordStart first = true
      · simp only [if_pos hword] at hr
        rw [hr] at h ⊢
        obtain ⟨kind', hl⟩ := ofWord_local first c
        exact hl.kind_eq h ▸ hl
      · simp only [hr, if_neg hword] at h
        cases h

end Lexeme

end Linewise
