import Linewise.Proofs.Spelled
import Linewise.Proofs.Spelling

namespace Linewise

open Text

namespace Text

variable {c : Char}

def apart (front back : List (Nat × Nat)) : Bool :=
  front.all fun r ↦ back.all fun q ↦ r.2.blt q.1 || q.2.blt r.1

theorem inRanges_of_apart {front back : List (Nat × Nat)} (h : apart front back = true)
    (hc : inRanges front c = true) : inRanges back c = false := by
  obtain ⟨r, hr, hin⟩ := List.any_eq_true.1 hc
  rw [inRanges, List.any_eq_false]
  intro q hq
  have hapart := List.all_eq_true.1 (List.all_eq_true.1 h r hr) q hq
  simp only [Bool.or_eq_true, Nat.blt_eq, Bool.and_eq_true, decide_eq_true_eq] at hapart hin ⊢
  omega

def blankRanges : List (Nat × Nat) :=
  [(0x9, 0xd), (0x20, 0x20), (0x85, 0x85), (0xa0, 0xa0), (0x1680, 0x1680), (0x2000, 0x200a),
    (0x2028, 0x2029), (0x202f, 0x202f), (0x205f, 0x205f), (0x3000, 0x3000)]

theorem inRanges_of_isBlank (h : isBlank c = true) : inRanges blankRanges c = true := by
  simp only [isBlank, Bool.or_eq_true, Bool.and_eq_true, decide_eq_true_eq, beq_iff_eq] at h
  simp only [inRanges, blankRanges, List.any_cons, List.any_nil, Bool.or_eq_true, Bool.and_eq_true,
    decide_eq_true_eq]
  omega

theorem not_between_of_isBlank (h : isBlank c = true) {first last : Char}
    (hr : apart blankRanges [(first.toNat, last.toNat)] = true) : (first ≤ c && c ≤ last) = false := by
  have hc := inRanges_of_apart hr (inRanges_of_isBlank h)
  simp only [inRanges, List.any_cons, List.any_nil, Bool.or_false] at hc
  exact hc

theorem isDigit_of_isBlank (h : isBlank c = true) : isDigit c = false :=
  not_between_of_isBlank h (by decide)

theorem isAlphabetic_of_isBlank (h : isBlank c = true) : isAlphabetic c = false := by
  have htable : apart blankRanges alphabeticRanges = true := by decide +kernel
  rw [isAlphabetic]
  split
  · rw [not_between_of_isBlank h (by decide), not_between_of_isBlank h (by decide)]
    rfl
  · exact inRanges_of_apart htable (inRanges_of_isBlank h)

theorem isWordPart_of_isBlank (h : isBlank c = true) : isWordPart c = false := by
  have htable : apart blankRanges numericRanges = true := by decide +kernel
  have hline : (c == '_') = false := by
    apply beq_eq_false_iff_ne.2
    rintro rfl
    cases h
  rw [isWordPart, isAlphanumeric, isAlphabetic_of_isBlank h, isDigit_of_isBlank h,
    inRanges_of_apart htable (inRanges_of_isBlank h), hline]
  rfl

theorem isWordStart_of_isBlank (h : isBlank c = true) : isWordStart c = false := by
  apply Bool.eq_false_iff.2
  intro hc
  have hpart := isWordPart_of_isWordStart hc
  rw [isWordPart_of_isBlank h] at hpart
  cases hpart

theorem endsNumeral_of_isBlank (float : Bool) (h : isBlank c = true) :
    Lexeme.EndsNumeral float c ∧ Lexeme.MayFollowNumeral float c := by
  have hpoint : c ≠ '.' := by
    rintro rfl
    cases h
  refine ⟨⟨isDigit_of_isBlank h, fun _ ↦ hpoint⟩, ?_, isWordStart_of_isBlank h⟩
  rw [beq_eq_false_iff_ne.2 hpoint, Bool.and_false]

theorem lead_of_isBlank (h : isBlank c = true) : lead c = .symbol := by
  have hquote : c ≠ '"' ∧ c ≠ '\'' := by
    constructor <;> rintro rfl <;> cases h
  rw [lead, isWordStart_of_isBlank h, isDigit_of_isBlank h, if_neg Bool.false_ne_true,
    if_neg Bool.false_ne_true, if_neg hquote.1, if_neg hquote.2]

theorem symbolChars_not_isBlank : ∀ kind ∈ TokenKind.fixed, kind.symbolChars.all (!isBlank ·) = true := by
  decide +kernel

theorem not_isBlank_of_mem_symbolChars {kind : TokenKind} (hf : kind ∈ TokenKind.fixed)
    (hc : c ∈ kind.symbolChars) : isBlank c = false := by
  have hall := List.all_eq_true.1 (symbolChars_not_isBlank kind hf) c hc
  rwa [Bool.not_eq_true'] at hall

theorem lookup_of_isBlank {kind : TokenKind} (hf : kind ∈ TokenKind.fixed) (h : isBlank c = true) :
    kind.extensions.lookup c = none := by
  cases hl : kind.extensions.lookup c with
  | none => rfl
  | some longer =>
    obtain ⟨-, hf', hchars⟩ := Lexeme.extension_of_lookup hf rfl hl
    have hc := not_isBlank_of_mem_symbolChars hf' (c := c) (by simp [hchars])
    rw [h] at hc
    cases hc

end Text

def AtEnd (post : List Char) : Prop := ∀ y ∈ post.head?, isBlank y = true

namespace TokenKind

/-- What a symbol grows to over some characters. -/
def grown (kind : TokenKind) : List Char → Option TokenKind
  | [] => some kind
  | y :: w => (kind.extensions.lookup y).bind (·.grown w)

def readsBack (kind : TokenKind) : Bool :=
  match kind.symbolChars with
  | [] => false
  | x :: w => w.length ≤ 2 && (w = [] && ofDelimiter? x = some kind ||
      ofDelimiter? x = none && (ofOperator? x).bind (·.grown w) = some kind)

theorem readsBack_of_fixed : ∀ kind ∈ fixed, kind.readsBack = true := by decide +kernel

end TokenKind

namespace Lexeme

variable {x : Char} {w post : List Char} {c : Cursor} {kind : TokenKind}

theorem ofOperator_takes {start : TokenKind} (hg : start.grown w = some kind) (hw : w.length ≤ 2)
    (hend : ∀ y ∈ post.head?, kind.extensions.lookup y = none) (hc : c.rest = w ++ post) :
    (ofOperator start c).Takes kind c w post := by
  match w with
  | [] =>
    obtain rfl := Option.some.inj hg
    have hnone : ∀ y ∈ c.rest.head?, start.extensions.lookup y = none := by rwa [hc]
    obtain ⟨d, hd, hdr, hdc⟩ := Cursor.grow_of_not_lookup hnone
    obtain ⟨e, he, her, hec⟩ := Cursor.grow_of_not_lookup (hdr.symm ▸ hnone)
    simp only [ofOperator, hd, he]
    exact takes_token (her.trans (hdr.trans hc)) (hec.trans hdc)
  | [y] =>
    obtain ⟨longer, hl, hg⟩ := Option.bind_eq_some_iff.1 hg
    obtain rfl := Option.some.inj hg
    obtain ⟨d, hd, hdr, hdc⟩ := Cursor.grow_of_lookup hc hl
    have hnone : ∀ y ∈ d.rest.head?, longer.extensions.lookup y = none := by
      rw [hdr]
      exact hend
    obtain ⟨e, he, her, hec⟩ := Cursor.grow_of_not_lookup hnone
    simp only [ofOperator, hd, he]
    exact takes_token (her.trans hdr) (hec.trans hdc)
  | [y, z] =>
    obtain ⟨first, hl, hg⟩ := Option.bind_eq_some_iff.1 hg
    obtain ⟨second, hl', hg⟩ := Option.bind_eq_some_iff.1 hg
    obtain rfl := Option.some.inj hg
    obtain ⟨d, hd, hdr, hdc⟩ := Cursor.grow_of_lookup hc hl
    obtain ⟨e, he, her, hec⟩ := Cursor.grow_of_lookup hdr hl'
    simp only [ofOperator, hd, he]
    exact takes_token her (by rw [hec, hdc]; rfl)
  | _ :: _ :: _ :: _ =>
    simp only [List.length_cons] at hw
    omega

theorem read_symbol (hs : kind.symbol? = some (String.ofList (x :: w))) (hp : AtEnd post)
    (hc : c.rest = w ++ post) : (read x c).Takes kind c w post := by
  have hf : kind ∈ TokenKind.fixed := TokenKind.mem_fixed (by rw [hs]; rfl)
  have hback := TokenKind.readsBack_of_fixed kind hf
  rw [TokenKind.readsBack, TokenKind.symbolChars_of_symbol? hs] at hback
  simp only [Bool.and_eq_true, Bool.or_eq_true, decide_eq_true_eq] at hback
  obtain ⟨hlen, ⟨rfl, hd⟩ | ⟨hd, ho⟩⟩ := hback
  · simp only [read, hd]
    exact takes_token hc rfl
  · obtain ⟨start, hstart, hg⟩ := Option.bind_eq_some_iff.1 ho
    simp only [read, hd, hstart]
    exact ofOperator_takes hg hlen (fun y hy ↦ lookup_of_isBlank hf (hp y hy)) hc

/-- Whatever does not begin a symbol is told from its class. -/
theorem read_of_lead (h : lead x ≠ .symbol) : read x c =
    if x = '\'' || x = '"' then ofQuoted x c
    else if isDigit x then ofNumeral x c
    else ofWord x c := by
  have hsymbol {k : TokenKind} (hf : k ∈ TokenKind.fixed) (hk : k.symbolChars = [x]) : False := by
    have hlead := lead_symbol k hf
    rw [hk] at hlead
    exact h (Option.some.inj hlead)
  have hd : TokenKind.ofDelimiter? x = none := by
    cases hd : TokenKind.ofDelimiter? x with
    | none => rfl
    | some k =>
      obtain ⟨hf, hk, -⟩ := fixed_of_ofDelimiter? hd
      exact (hsymbol hf hk).elim
  have ho : TokenKind.ofOperator? x = none := by
    cases ho : TokenKind.ofOperator? x with
    | none => rfl
    | some k =>
      obtain ⟨hf, hk⟩ := fixed_of_ofOperator? ho
      exact (hsymbol hf hk).elim
  have hhash : x ≠ '#' := by
    rintro rfl
    exact h (by decide)
  simp only [read, hd, ho, if_neg hhash]
  by_cases hq : (x = '\'' || x = '"') = true
  · simp only [if_pos hq]
  by_cases hdigit : isDigit x = true
  · simp only [if_neg hq, if_pos hdigit]
  have hword : isWordStart x = true := by
    cases hw : isWordStart x with
    | true => rfl
    | false =>
      simp only [Bool.or_eq_true, decide_eq_true_eq, not_or] at hq
      exact absurd (by simp [lead, hw, hdigit, hq]) h
  simp only [if_neg hq, if_neg hdigit, if_pos hword]

/-- The closing quote is the first one that is not escaped. -/
theorem quoted_of_unescaped {quote : Char} {value : List Char} (hq : quote ≠ '\\')
    (h : unescaped quote w = some value) :
    quoted quote (w ++ quote :: post) = (.closed value, w.length + 1) := by
  fun_induction unescaped quote w generalizing value with
  | case1 =>
    cases h
    exact quoted_quote quote post
  | case2 => cases h
  | case3 => cases h
  | case4 e rest _ ih =>
    obtain ⟨c, hc, h⟩ := Option.bind_eq_some_iff.1 h
    obtain ⟨more, hmore, h⟩ := Option.bind_eq_some_iff.1 h
    cases h
    rw [List.cons_append, List.cons_append, quoted_escape (Ne.symm hq) hc, ih hmore]
    rfl
  | case5 c rest hc hb ih =>
    obtain ⟨more, hmore, h⟩ := Option.bind_eq_some_iff.1 h
    cases h
    rw [List.cons_append, quoted_plain hc hb, ih hmore]
    rfl

theorem ne_backslash {quote : Char} (hq : quote = '\'' ∨ quote = '"') : quote ≠ '\\' := by
  rcases hq with rfl | rfl <;> decide

theorem read_quote {quote : Char} (hq : quote = '\'' ∨ quote = '"') (c : Cursor) :
    read quote c = ofQuoted quote c := by
  rcases hq with rfl | rfl
  · rw [read_of_lead (by decide), if_pos (by decide)]
  · rw [read_of_lead (by decide), if_pos (by decide)]

theorem read_quoted {quote : Char} {value : List Char} (hq : quote = '\'' ∨ quote = '"')
    (h : unescaped quote w = some value) (hl : literal quote value = .ok kind)
    (hc : c.rest = w ++ [quote] ++ post) : (read quote c).Takes kind c (w ++ [quote]) post := by
  rw [read_quote hq]
  refine ofQuoted_takes ?_ hl hc
  rw [hc, List.append_assoc, List.singleton_append, quoted_of_unescaped (ne_backslash hq) h, List.length_append]
  rfl

theorem takeWhile_dropWhile_of_all {p : Char → Bool} (hw : w.all p = true) :
    w.takeWhile p = w ∧ w.dropWhile p = [] :=
  ⟨List.takeWhile_eq_self_iff.2 (List.all_eq_true.1 hw), List.dropWhile_eq_nil_iff.2 (List.all_eq_true.1 hw)⟩

theorem numeralTail_integer (hw : w.all isDigit = true) : numeralTail w = (w, false) := by
  obtain ⟨htake, hdrop⟩ := takeWhile_dropWhile_of_all hw
  simp only [numeralTail, htake, hdrop]

theorem numeralTail_float {v : List Char} (hw : w.all isDigit = true) (hv : v.all isDigit = true) :
    numeralTail (w ++ '.' :: v) = (w ++ '.' :: v, true) := by
  have hpoint : ∀ y ∈ ('.' :: v).head?, isDigit y = false := by
    intro y hy
    cases hy
    decide
  obtain ⟨htake, hdrop⟩ := takeWhile_dropWhile_of_all hw
  simp only [numeralTail, takeWhile_append hpoint, dropWhile_append hpoint, htake, hdrop, List.nil_append,
    (takeWhile_dropWhile_of_all hv).1]

theorem read_of_isDigit (hx : isDigit x = true) (c : Cursor) : read x c = ofNumeral x c := by
  have hlead := lead_of_isDigit hx
  have hquote : ¬ (x = '\'' || x = '"') = true := by
    intro hq
    simp only [Bool.or_eq_true, decide_eq_true_eq] at hq
    rcases hq with rfl | rfl <;> exact absurd hlead (by decide)
  rw [read_of_lead (by rw [hlead]; decide), if_neg hquote, if_pos hx]

theorem read_numeral {float : Bool} (hx : isDigit x = true) (htail : numeralTail w = (w, float))
    (hp : AtEnd post) (hc : c.rest = w ++ post) : (read x c).Takes (numeralKind x w float) c w post := by
  rw [read_of_isDigit hx]
  obtain ⟨-, -, -, happend⟩ := numeralTail_append w
  rw [htail] at happend
  refine ofNumeral_takes ?_ hc fun y hy ↦ (endsNumeral_of_isBlank float (hp y hy)).2
  rw [hc, happend post fun y hy ↦ (endsNumeral_of_isBlank float (hp y hy)).1]

theorem read_word (hx : isWordStart x = true) (hw : w.all isWordPart = true) (hp : AtEnd post)
    (hc : c.rest = w ++ post) : (read x c).Takes (wordKind (String.ofList (x :: w))) c w post := by
  have hlead : lead x = .word := if_pos hx
  have hquote : ¬ (x = '\'' || x = '"') = true := by
    intro hq
    simp only [Bool.or_eq_true, decide_eq_true_eq] at hq
    rcases hq with rfl | rfl <;> exact absurd hlead (by decide)
  have hdigit : ¬ isDigit x = true := by
    intro hd
    rw [isWordStart_of_isDigit hd] at hx
    cases hx
  rw [read_of_lead (by rw [hlead]; decide), if_neg hquote, if_neg hdigit]
  exact ofWord_takes hc hw fun y hy ↦ isWordPart_of_isBlank (hp y hy)

end Lexeme

theorem keyword_word : ∀ word ∈ keywords, word.toList.all isWordPart = true ∧
    (word.toList.head?.all isWordStart) = true := by decide +kernel

namespace Spelling

variable {x : Char} {w v post : List Char} {c : Cursor} {kind : TokenKind}

theorem takes (h : Spelling w kind) (hv : w = x :: v) (hp : AtEnd post) (hc : c.rest = v ++ post) :
    (Lexeme.read x c).Takes kind c v post := by
  cases h with
  | keyword hk =>
    obtain ⟨hall, hhead⟩ := keyword_word _ (List.contains_iff_mem.1 hk)
    subst hv
    rw [String.toList_ofList] at hall hhead
    have hread := Lexeme.read_word hhead (Bool.and_eq_true_iff.1 hall).2 hp hc
    rwa [Lexeme.wordKind, if_pos hk] at hread
  | identifier hx hw hk =>
    cases hv
    have hread := Lexeme.read_word hx hw hp hc
    rwa [Lexeme.wordKind, hk, if_neg Bool.false_ne_true] at hread
  | integer hx hw =>
    cases hv
    exact Lexeme.read_numeral hx (Lexeme.numeralTail_integer hw) hp hc
  | float hx hw hw' =>
    cases hv
    exact Lexeme.read_numeral hx (Lexeme.numeralTail_float hw hw') hp hc
  | symbol hs =>
    subst hv
    exact Lexeme.read_symbol hs hp hc
  | string hu =>
    cases hv
    exact Lexeme.read_quoted (.inr rfl) hu rfl hc
  | char hu =>
    cases hv
    exact Lexeme.read_quoted (.inl rfl) hu rfl hc

theorem exists_cons (h : Spelling w kind) : ∃ x v, w = x :: v := by
  cases w with
  | nil => cases h.lead_eq
  | cons x v => exact ⟨x, v, rfl⟩

theorem symbol?_of_lead (h : Spelling w kind) (hl : kind.lead = .symbol) :
    kind.symbol? = some (String.ofList w) := by
  cases h with
  | symbol hs => exact hs
  | _ => cases hl

theorem symbolChars_of_lead (h : Spelling w kind) (hl : kind.lead = .symbol) :
    kind ∈ TokenKind.fixed ∧ kind.symbolChars = w := by
  have hs := h.symbol?_of_lead hl
  exact ⟨TokenKind.mem_fixed (by rw [hs]; rfl), TokenKind.symbolChars_of_symbol? hs⟩

theorem isBlank_head (h : Spelling (x :: v) kind) : isBlank x = false := by
  apply Bool.eq_false_iff.2
  intro hx
  obtain ⟨hf, hchars⟩ := h.symbolChars_of_lead ((Option.some.inj h.lead_eq).symm.trans (lead_of_isBlank hx))
  have hhead := not_isBlank_of_mem_symbolChars hf (c := x) (by simp [hchars])
  rw [hx] at hhead
  cases hhead

theorem head_ne_star (h : Spelling ('/' :: v) kind) : v.head? ≠ some '*' := by
  obtain ⟨hf, hchars⟩ := h.symbolChars_of_lead ((Option.some.inj h.lead_eq).symm.trans (by decide))
  have hsymbol : ∀ k ∈ TokenKind.fixed, k.symbolChars.take 2 ≠ ['/', '*'] := by decide +kernel
  intro hv
  obtain ⟨u, rfl⟩ := List.head?_eq_some_iff.1 hv
  apply hsymbol kind hf
  rw [hchars]
  rfl

theorem tail_getLast?_ne_return (h : Spelling (x :: v) kind) : '\r' ∉ v.getLast? := by
  have htakes : (Lexeme.read x (.ofLine v)).Takes kind (.ofLine v) v [] :=
    h.takes rfl nofun (List.append_nil v).symm
  have hne : x ≠ '#' := by
    rintro rfl
    have hkind := htakes.outcome.symm.trans (Lexeme.read_hash _).outcome
    have hcomment := h.isComment
    rw [Except.ok.inj hkind] at hcomment
    cases hcomment
  obtain ⟨w, post, hw, hlast, hlocal⟩ := Lexeme.read_local htakes.outcome hne
  have hpost := (hlocal _ post hw (.refl post)).rest.symm.trans htakes.rest
  change v = w ++ post at hw
  rwa [hw, hpost, List.append_nil]

theorem getLast?_ne_return (h : Spelling (x :: v) kind) : (x :: v).getLast? ≠ some '\r' := by
  cases v with
  | nil =>
    intro hlast
    obtain rfl : x = '\r' := Option.some.inj hlast
    exact absurd h.isBlank_head (by decide)
  | cons y v =>
    rw [List.getLast?_cons_cons]
    exact h.tail_getLast?_ne_return

theorem spelled (h : Spelling (x :: v) kind) (hp : AtEnd post) : Lexer.Spelled kind x v post := by
  refine ⟨h.isComment, h.isBlank_head, h.tail_getLast?_ne_return, fun s post' hs hcut hpos ↦ ?_⟩
  have hend : AtEnd post' := hcut.head (P := fun y ↦ isBlank y = true) rfl hp
  have hstar : x = '/' → s.cursor.rest.head? ≠ some '*' := by
    rintro rfl hhead
    rw [hs] at hhead
    cases v with
    | nil => exact absurd (hend '*' hhead) (by decide)
    | cons y v => exact h.head_ne_star hhead
  obtain ⟨c, hscan, hcr, hcc⟩ := Lexer.scan_of_ne_star hstar
  obtain ⟨t, ht, hat, hsame⟩ := Lexer.scans_of_takes (s := { s with cursor := c })
    (h.takes rfl hend (hcr.trans hs)) (by rw [hcc]; exact hpos)
  simp only [hcc] at ht hat
  exact ⟨t, hscan.trans ht, hat, ⟨hsame.tokens, hsame.held, hsame.keepComments⟩⟩

end Spelling

end Linewise
