import Linewise.Proofs.Lexeme

namespace Linewise

open Text

namespace TokenKind

def fixed : List TokenKind :=
  let operations : List Operation := [.modulo, .multiplication, .exponent, .division, .floorDivision,
    .addition, .subtraction, .bitwiseAnd, .bitwiseOr, .bitwiseXor, .bitwiseNot, .leftShift, .rightShift]
  operations.map operation ++ operations.map compoundAssignment ++
    [assignment, equalTo, notEqualTo, greaterThan, lessThan, greaterThanOrEqual, lessThanOrEqual,
      logicalAnd, logicalOr, logicalNot, dot, arrow, atSign, openParen, openSquareBracket,
      openCurlyBrace, closeParen, closeSquareBracket, closeCurlyBrace, comma, colon, scopeResolution]

theorem mem_fixed {kind : TokenKind} (h : kind.symbol?.isSome = true) : kind ∈ fixed := by
  cases kind with
  | operation op => cases op <;> decide
  | compoundAssignment op => cases op <;> decide
  | _ => first | decide | cases h

def symbolChars (kind : TokenKind) : List Char := (kind.symbol?.getD "").toList

theorem symbolChars_of_symbol? {kind : TokenKind} {w : List Char}
    (h : kind.symbol? = some (String.ofList w)) : kind.symbolChars = w := by
  rw [symbolChars, h, Option.getD_some, String.toList_ofList]

theorem symbolChars_injective : ∀ k ∈ fixed, ∀ k' ∈ fixed, k.symbolChars = k'.symbolChars → k = k' := by
  decide +kernel

theorem isSome_of_fixed : ∀ k ∈ fixed, k.symbol?.isSome = true := by decide

theorem extension_symbolChars : ∀ k ∈ fixed, ∀ e ∈ k.extensions,
    e.2 ∈ fixed ∧ e.2.symbolChars = k.symbolChars ++ [e.1] := by decide +kernel

/-- No symbol has more than three characters. -/
theorem extensions_extensions : ∀ k ∈ fixed, ∀ e ∈ k.extensions, ∀ e' ∈ e.2.extensions,
    e'.2.extensions = [] := by decide +kernel

theorem lookup_of_prefix : ∀ k ∈ fixed, ∀ k' ∈ fixed, k.symbolChars <+: k'.symbolChars →
    ((k'.symbolChars.drop k.symbolChars.length).head?.all fun x ↦ (k.extensions.lookup x).isSome) = true := by
  decide +kernel

end TokenKind

/-- What the characters between two quotes stand for: a backslash and the character after it stand for
one character by the table of escapes, and a quote has to be escaped. -/
def unescaped (quote : Char) : List Char → Option (List Char)
  | [] => some []
  | c :: rest =>
    if c = quote then none
    else if c = '\\' then
      match rest with
      | [] => none
      | e :: rest => do return (← Lexeme.unescape? e) :: (← unescaped quote rest)
    else do return c :: (← unescaped quote rest)

inductive Spelling : List Char → TokenKind → Prop
  | keyword {w : List Char} : isKeyword (String.ofList w) = true → Spelling w (.keyword (String.ofList w))
  | identifier {x : Char} {w : List Char} : isWordStart x = true → w.all isWordPart = true →
      isKeyword (String.ofList (x :: w)) = false → Spelling (x :: w) (.identifier (String.ofList (x :: w)))
  | integer {x : Char} {w : List Char} : isDigit x = true → w.all isDigit = true →
      Spelling (x :: w) (.integer (String.ofList (x :: w)))
  | float {x : Char} {w v : List Char} : isDigit x = true → w.all isDigit = true → v.all isDigit = true →
      Spelling (x :: w ++ '.' :: v) (.float (String.ofList (x :: w ++ '.' :: v)))
  | symbol {w : List Char} {kind : TokenKind} : kind.symbol? = some (String.ofList w) → Spelling w kind
  | string {w value : List Char} : unescaped '"' w = some value →
      Spelling ('"' :: (w ++ ['"'])) (.string (String.ofList value))
  | char {w : List Char} {c : Char} : unescaped '\'' w = some [c] → Spelling ('\'' :: (w ++ ['\''])) (.char c)

inductive Lead where
  | word
  | digit
  | quote
  | apostrophe
  | symbol
deriving DecidableEq

def lead (x : Char) : Lead :=
  if isWordStart x then .word
  else if isDigit x then .digit
  else if x = '"' then .quote
  else if x = '\'' then .apostrophe
  else .symbol

theorem isWordStart_of_isDigit {x : Char} (h : isDigit x = true) : isWordStart x = false := by
  simp only [isDigit, Bool.and_eq_true, decide_eq_true_eq] at h
  have hlow : x.toNat < 0x80 := by
    have hle := UInt32.le_iff_toNat_le.1 (Char.le_def.1 h.2)
    have h9 : ('9' : Char).val.toNat = 57 := by decide
    rw [h9] at hle
    exact Nat.lt_of_le_of_lt hle (by decide)
  have hsmall : ¬ 'a' ≤ x := fun ha ↦ absurd (Char.le_trans ha h.2) (by decide)
  have hlarge : ¬ 'A' ≤ x := fun ha ↦ absurd (Char.le_trans ha h.2) (by decide)
  have hline : x ≠ '_' := by
    rintro rfl
    exact absurd h.2 (by decide)
  simp [isWordStart, isAlphabetic, hlow, hsmall, hlarge, hline]

theorem lead_of_isDigit {x : Char} (h : isDigit x = true) : lead x = .digit := by
  rw [lead, isWordStart_of_isDigit h, if_neg nofun, if_pos h]

theorem lead_keyword : ∀ word ∈ keywords, word.toList.head?.map lead = some .word := by decide +kernel

theorem lead_symbol : ∀ k ∈ TokenKind.fixed, k.symbolChars.head?.map lead = some .symbol := by
  decide +kernel

namespace TokenKind

def lead : TokenKind → Lead
  | keyword _ | identifier _ => .word
  | integer _ | float _ => .digit
  | string _ => .quote
  | char _ => .apostrophe
  | _ => .symbol

theorem lead_of_symbol? {kind : TokenKind} (h : kind.symbol?.isSome = true) : kind.lead = .symbol := by
  cases kind <;> first | rfl | cases h

end TokenKind

namespace Spelling

variable {w : List Char} {kind kind' : TokenKind}

theorem lead_eq (h : Spelling w kind) : w.head?.map lead = some kind.lead := by
  cases h with
  | keyword hk =>
    have hmem := List.contains_iff_mem.1 hk
    have hlead := lead_keyword _ hmem
    rwa [String.toList_ofList] at hlead
  | identifier hx =>
    rw [List.head?_cons, Option.map_some, lead, if_pos hx]
    rfl
  | integer hx => exact congrArg some (lead_of_isDigit hx)
  | float hx => exact congrArg some (lead_of_isDigit hx)
  | symbol hs =>
    have hsome : kind.symbol?.isSome = true := by rw [hs]; rfl
    rw [kind.lead_of_symbol? hsome, ← TokenKind.symbolChars_of_symbol? hs]
    exact lead_symbol kind (TokenKind.mem_fixed hsome)
  | string => rfl
  | char => rfl

theorem isComment (h : Spelling w kind) : kind.isComment = false := by
  cases h with
  | symbol hs => cases kind <;> first | rfl | cases hs
  | _ => rfl

/-- The characters of a token determine its kind. -/
theorem unique (h : Spelling w kind) (h' : Spelling w kind') : kind = kind' := by
  -- The first character tells the sort of the kind; within a sort the rest of the characters decides.
  have hlead : kind.lead = kind'.lead := Option.some.inj (h.lead_eq.symm.trans h'.lead_eq)
  have hsymbol {k : TokenKind} {v : List Char} (hs : k.symbol? = some (String.ofList v)) :
      k.lead = .symbol := k.lead_of_symbol? (by rw [hs]; rfl)
  have hpoint {x y : Char} {v u t : List Char} (hv : v.all isDigit = true)
      (he : x :: v = y :: u ++ '.' :: t) : False := by
    obtain ⟨-, rfl⟩ := List.cons.inj he
    have := List.all_eq_true.1 hv '.' (List.mem_append_right u List.mem_cons_self)
    exact absurd this (by decide)
  generalize hw : w = w' at h'
  cases h with
  | keyword hk =>
    cases h' with
    | keyword => rw [hw]
    | identifier _ _ hn =>
      rw [hw, hn] at hk
      cases hk
    | symbol hs => rw [hsymbol hs] at hlead; cases hlead
    | _ => cases hlead
  | identifier _ _ hn =>
    cases h' with
    | keyword hk =>
      rw [hw, hk] at hn
      cases hn
    | identifier => rw [hw]
    | symbol hs => rw [hsymbol hs] at hlead; cases hlead
    | _ => cases hlead
  | integer _ hd =>
    cases h' with
    | integer => rw [hw]
    | float => exact (hpoint hd hw).elim
    | symbol hs => rw [hsymbol hs] at hlead; cases hlead
    | _ => cases hlead
  | float =>
    cases h' with
    | integer _ hd => exact (hpoint hd hw.symm).elim
    | float => rw [hw]
    | symbol hs => rw [hsymbol hs] at hlead; cases hlead
    | _ => cases hlead
  | symbol hs =>
    rw [hsymbol hs] at hlead
    cases h' with
    | symbol hs' =>
      have hmem {k : TokenKind} {v : List Char} (hs : k.symbol? = some (String.ofList v)) :
          k ∈ TokenKind.fixed := TokenKind.mem_fixed (by rw [hs]; rfl)
      refine TokenKind.symbolChars_injective _ (hmem hs) _ (hmem hs') ?_
      rw [TokenKind.symbolChars_of_symbol? hs, TokenKind.symbolChars_of_symbol? hs', hw]
    | _ => cases hlead
  | string hv =>
    cases h' with
    | string hv' =>
      obtain rfl := List.append_cancel_right (List.cons.inj hw).2
      rw [Option.some.inj (hv.symm.trans hv')]
    | symbol hs => rw [hsymbol hs] at hlead; cases hlead
    | _ => cases hlead
  | char hv =>
    cases h' with
    | char hv' =>
      obtain rfl := List.append_cancel_right (List.cons.inj hw).2
      rw [(List.cons.inj (Option.some.inj (hv.symm.trans hv'))).1]
    | symbol hs => rw [hsymbol hs] at hlead; cases hlead
    | _ => cases hlead

end Spelling

/-- The token takes all that can belong to it, `after` being what comes after it on its line. -/
structure Longest (kind : TokenKind) (w after : List Char) : Prop where
  word : kind.lead = .word → ∀ x ∈ after.head?, isWordPart x = false
  numeral : kind.lead = .digit → ∀ x ∈ after.head?, isDigit x = false ∧ x ≠ '.' ∧ isWordStart x = false
  symbol : kind.lead = .symbol → ∀ longer s, TokenKind.symbol? longer = some s → w.length < s.length →
    ¬ s.toList <+: w ++ after

structure ReadsRight (kind : TokenKind) (w after : List Char) : Prop where
  spelling : Spelling w kind
  longest : Longest kind w after

namespace ReadsRight

variable {x : Char} {w v post : List Char} {kind : TokenKind}

theorem of_symbol (hs : kind.symbol? = some (String.ofList w))
    (hp : ∀ x ∈ post.head?, kind.extensions.lookup x = none) : ReadsRight kind w post := by
  have hlead : kind.lead = .symbol := kind.lead_of_symbol? (by rw [hs]; rfl)
  refine ⟨.symbol hs, fun h ↦ ?_, fun h ↦ ?_, fun _ longer s hl hlen hprefix ↦ ?_⟩
  · rw [hlead] at h
    cases h
  · rw [hlead] at h
    cases h
  have hchars : longer.symbolChars = s.toList := by rw [TokenKind.symbolChars, hl, Option.getD_some]
  obtain ⟨t, ht⟩ := hprefix
  rw [← String.length_toList] at hlen
  obtain ⟨u, hu, hpost⟩ : ∃ u, s.toList = w ++ u ∧ post = u ++ t := by
    rcases List.append_eq_append_iff.1 ht with ⟨u, hw, -⟩ | ⟨u, hu, hpost⟩
    · have := congrArg List.length hw
      rw [List.length_append] at this
      omega
    · exact ⟨u, hu, hpost⟩
  cases u with
  | nil =>
    rw [hu, List.append_nil] at hlen
    omega
  | cons y u =>
    have hall := TokenKind.lookup_of_prefix kind (TokenKind.mem_fixed (by rw [hs]; rfl)) longer
      (TokenKind.mem_fixed (by rw [hl]; rfl))
    rw [hchars, TokenKind.symbolChars_of_symbol? hs, hu, List.drop_left, List.head?_cons,
      Option.all_some, hp y (by rw [hpost]; rfl)] at hall
    cases hall (List.prefix_append _ _)

theorem of_word (hw : isWordStart x = true) :
    ReadsRight (Lexeme.wordKind (String.ofList (x :: v.takeWhile isWordPart)))
      (x :: v.takeWhile isWordPart) (v.dropWhile isWordPart) := by
  have hall : (v.takeWhile isWordPart).all isWordPart = true :=
    List.all_eq_true.2 fun y hy ↦ List.mem_takeWhile_imp hy
  unfold Lexeme.wordKind
  split
  · next hk => exact ⟨.keyword hk, fun _ ↦ head_dropWhile v, nofun, nofun⟩
  · next hk =>
    exact ⟨.identifier hw hall (Bool.eq_false_iff.2 hk), fun _ ↦ head_dropWhile v, nofun, nofun⟩

theorem of_numeral {float : Bool} {rest : List Char} (hx : isDigit x = true)
    (htail : Lexeme.numeralTail rest = (w, float))
    (hends : ∀ y ∈ post.head?, Lexeme.EndsNumeral float y ∧ Lexeme.MayFollowNumeral float y) :
    ReadsRight (Lexeme.numeralKind x w float) (x :: w) post := by
  have hpost : ∀ y ∈ post.head?, isDigit y = false ∧ y ≠ '.' ∧ isWordStart y = false := by
    intro y hy
    obtain ⟨⟨hdigit, hpoint⟩, hdot, hword⟩ := hends y hy
    refine ⟨hdigit, ?_, hword⟩
    cases float with
    | false => exact hpoint rfl
    | true =>
      rintro rfl
      cases hdot
  have hdigits (l : List Char) : (l.takeWhile isDigit).all isDigit = true :=
    List.all_eq_true.2 fun y hy ↦ List.mem_takeWhile_imp hy
  unfold Lexeme.numeralTail at htail
  dsimp only at htail
  split at htail
  · next more hmore =>
    cases htail
    exact ⟨.float hx (hdigits rest) (hdigits more), nofun, fun _ ↦ hpost, nofun⟩
  · cases htail
    exact ⟨.integer hx (hdigits rest), nofun, fun _ ↦ hpost, nofun⟩

end ReadsRight

theorem unescaped_of_quoted {quote : Char} {rest value : List Char} {n : Nat}
    (h : Lexeme.quoted quote rest = (.closed value, n)) :
    ∃ inner, rest.take n = inner ++ [quote] ∧ unescaped quote inner = some value := by
  fun_induction Lexeme.quoted quote rest generalizing value n with
  | case1 | case3 | case4 => cases h
  | case2 rest =>
    cases h
    exact ⟨[], rfl, rfl⟩
  | case5 e rest x he more m hm hq ih =>
    obtain ⟨hvalue, rfl⟩ := Prod.mk.inj h
    obtain ⟨tail, rfl, rfl⟩ := Lexeme.closed_of_push hvalue
    obtain ⟨inner, hinner, hun⟩ := ih hm
    refine ⟨'\\' :: e :: inner, by rw [List.take_succ_cons, List.take_succ_cons, hinner]; rfl, ?_⟩
    rw [unescaped, if_neg hq, if_pos rfl]
    simp [he, hun]
  | case6 x rest hq hx more m hm ih =>
    obtain ⟨hvalue, rfl⟩ := Prod.mk.inj h
    obtain ⟨tail, rfl, rfl⟩ := Lexeme.closed_of_push hvalue
    obtain ⟨inner, hinner, hun⟩ := ih hm
    refine ⟨x :: inner, by rw [List.take_succ_cons, hinner]; rfl, ?_⟩
    rw [unescaped.eq_def]
    simp only [if_neg hq, if_neg hx, hun]
    rfl

theorem Cursor.grow_cases (kind : TokenKind) (c : Cursor) :
    (∃ y rest longer d, c.rest = y :: rest ∧ kind.extensions.lookup y = some longer ∧
      c.grow kind = (longer, d) ∧ d.rest = rest) ∨
    ((∀ y ∈ c.rest.head?, kind.extensions.lookup y = none) ∧
      ∃ d, c.grow kind = (kind, d) ∧ d.rest = c.rest) := by
  rcases c.lookup_cases kind with ⟨y, rest, longer, hr, hl⟩ | hnone
  · obtain ⟨d, hd, hdr, -⟩ := grow_of_lookup hr hl
    exact .inl ⟨y, rest, longer, d, hr, hl, hd, hdr⟩
  · obtain ⟨d, hd, hdr, -⟩ := grow_of_not_lookup hnone
    exact .inr ⟨hnone, d, hd, hdr⟩

namespace Lexeme

variable {x : Char} {c : Cursor} {kind : TokenKind}

def Right (l : Lexeme) (x : Char) (c : Cursor) (kind : TokenKind) : Prop :=
  ∃ w, c.rest = w ++ l.cursor.rest ∧ ReadsRight kind (x :: w) l.cursor.rest

theorem extension_of_lookup {w : List Char} {y : Char} {longer : TokenKind}
    (hf : kind ∈ TokenKind.fixed) (hw : kind.symbolChars = w) (h : kind.extensions.lookup y = some longer) :
    (y, longer) ∈ kind.extensions ∧ longer ∈ TokenKind.fixed ∧ longer.symbolChars = w ++ [y] := by
  obtain ⟨l₁, l₂, hl, -⟩ := List.lookup_eq_some_iff.1 h
  have hmem : (y, longer) ∈ kind.extensions := by
    rw [hl]
    exact List.mem_append_right l₁ List.mem_cons_self
  obtain ⟨hfixed, hchars⟩ := TokenKind.extension_symbolChars kind hf _ hmem
  exact ⟨hmem, hfixed, by rw [hchars, hw]⟩

theorem symbol?_of_fixed {w : List Char} (hf : kind ∈ TokenKind.fixed) (hw : kind.symbolChars = w) :
    kind.symbol? = some (String.ofList w) := by
  obtain ⟨s, hs⟩ := Option.isSome_iff_exists.1 (TokenKind.isSome_of_fixed kind hf)
  rw [← hw, TokenKind.symbolChars, hs, Option.getD_some, String.ofList_toList]

theorem ofOperator_right (hf : kind ∈ TokenKind.fixed) (hx : kind.symbolChars = [x]) (c : Cursor) :
    ∃ longer, (ofOperator kind c).outcome = .ok longer ∧ (ofOperator kind c).Right x c longer := by
  rcases c.grow_cases kind with ⟨y, rest, first, d, hr, hl, hd, hdr⟩ | ⟨hnone, d, hd, hdr⟩
  · obtain ⟨hmem, hfixed, hchars⟩ := extension_of_lookup hf hx hl
    rcases d.grow_cases first with ⟨z, rest', second, e, hr', hl', he, her⟩ | ⟨hnone, e, he, her⟩
    · obtain ⟨hmem', hfixed', hchars'⟩ := extension_of_lookup hfixed hchars hl'
      simp only [ofOperator, hd, he]
      refine ⟨second, rfl, [y, z], ?_, .of_symbol (symbol?_of_fixed hfixed' hchars') fun t _ ↦ ?_⟩
      · rw [hr, ← hdr, hr', ← her]
        rfl
      · rw [TokenKind.extensions_extensions kind hf _ hmem _ hmem']
        rfl
    · simp only [ofOperator, hd, he]
      refine ⟨first, rfl, [y], ?_, .of_symbol (symbol?_of_fixed hfixed hchars) ?_⟩
      · rw [hr, ← hdr, ← her]
        rfl
      · rw [show (token first c.position e).cursor.rest = d.rest from her]
        exact hnone
  · have hgrow : (d.grow kind).1 = kind ∧ (d.grow kind).2.rest = c.rest := by
      rcases d.grow_cases kind with ⟨y, rest, first, e, hr, hl, -⟩ | ⟨-, e, he, her⟩
      · rw [hnone y (by rw [← hdr, hr]; rfl)] at hl
        cases hl
      · rw [he]
        exact ⟨rfl, her.trans hdr⟩
    refine ⟨kind, ?_, [], ?_, ?_⟩
    · simp only [ofOperator, hd, token, hgrow.1]
    · simp only [ofOperator, hd, token, hgrow.2, List.nil_append]
    · refine .of_symbol (symbol?_of_fixed hf hx) ?_
      simp only [ofOperator, hd, token, hgrow.2]
      exact hnone

theorem ofQuoted_right {quote : Char} (hq : quote = '\'' ∨ quote = '"')
    (h : (ofQuoted quote c).outcome = .ok kind) : (ofQuoted quote c).Right quote c kind := by
  unfold ofQuoted at h ⊢
  rcases hquoted : quoted quote c.rest with ⟨_ | _ | _, n⟩
  · next value =>
    simp only [hquoted] at h ⊢
    obtain ⟨inner, hinner, hun⟩ := unescaped_of_quoted hquoted
    refine ⟨c.rest.take n, ?_, ?_⟩
    · simp only [Cursor.forward_rest, List.take_append_drop]
    rw [hinner]
    unfold literal at h
    rcases hq with rfl | rfl
    · rw [if_neg (by decide)] at h
      split at h <;> cases h
      exact ⟨.char hun, nofun, nofun, nofun⟩
    · rw [if_pos rfl] at h
      cases h
      exact ⟨.string hun, nofun, nofun, nofun⟩
  · simp only [hquoted] at h
    cases h
  · simp only [hquoted] at h
    cases h

theorem ofNumeral_right (hx : isDigit x = true) (h : (ofNumeral x c).outcome = .ok kind) :
    (ofNumeral x c).Right x c kind := by
  obtain ⟨post, hsplit, hends, -⟩ := numeralTail_append c.rest
  rcases htail : numeralTail c.rest with ⟨w, float⟩
  rw [htail] at hsplit hends
  have hok : (numeral x c.rest).1 = .ok kind := by
    unfold ofNumeral at h
    split at h <;> simp_all [token]
  have hmay := mayFollow_of_numeral htail hsplit hok
  have hnumeral : numeral x c.rest = (.ok (numeralKind x w float), w.length) :=
    numeral_eq_ok htail hsplit hmay
  rw [hnumeral] at hok
  obtain rfl := Except.ok.inj hok
  have hrest : (ofNumeral x c).cursor.rest = post := by
    simp only [ofNumeral, hnumeral, token, Cursor.peek_rest, Cursor.forward_rest]
    rw [hsplit, List.drop_left]
  refine ⟨w, by rw [hrest, hsplit], ?_⟩
  rw [hrest]
  exact .of_numeral hx htail fun y hy ↦ ⟨hends y hy, hmay y hy⟩

theorem ofWord_right (hx : isWordStart x = true) (c : Cursor) :
    ∃ kind, (ofWord x c).outcome = .ok kind ∧ (ofWord x c).Right x c kind := by
  have hrest : (ofWord x c).cursor.rest = c.rest.dropWhile isWordPart := by
    have hsplit := List.takeWhile_append_dropWhile (p := isWordPart) (l := c.rest)
    simp only [ofWord, token, Cursor.peek_rest, Cursor.forward_rest]
    generalize c.rest.takeWhile isWordPart = v at hsplit ⊢
    generalize c.rest.dropWhile isWordPart = post at hsplit ⊢
    rw [← hsplit, List.drop_left]
  refine ⟨_, rfl, c.rest.takeWhile isWordPart, ?_, ?_⟩
  · rw [hrest, List.takeWhile_append_dropWhile]
  · rw [hrest]
    exact .of_word hx

theorem fixed_of_ofDelimiter? : TokenKind.ofDelimiter? x = some kind →
    kind ∈ TokenKind.fixed ∧ kind.symbolChars = [x] ∧ kind.extensions = [] := by
  iterate 9
    refine TokenKind.of_ite (P := fun k ↦ k ∈ TokenKind.fixed ∧ k.symbolChars = [x] ∧ k.extensions = [])
      ?_ ?_
    · rintro rfl
      decide +kernel
  exact nofun

theorem fixed_of_ofOperator? : TokenKind.ofOperator? x = some kind →
    kind ∈ TokenKind.fixed ∧ kind.symbolChars = [x] := by
  iterate 14
    refine TokenKind.of_ite (P := fun k ↦ k ∈ TokenKind.fixed ∧ k.symbolChars = [x]) ?_ ?_
    · rintro rfl
      decide +kernel
  exact nofun

/-- Whatever is read, but for a comment, is spelled right and the longest that can be read there. -/
theorem read_right (h : (read x c).outcome = .ok kind) (hx : x ≠ '#') : (read x c).Right x c kind := by
  cases hd : TokenKind.ofDelimiter? x with
  | some kind' =>
    simp only [read, hd] at h ⊢
    obtain rfl := Except.ok.inj h
    obtain ⟨hf, hchars, hnone⟩ := fixed_of_ofDelimiter? hd
    refine ⟨[], rfl, .of_symbol (symbol?_of_fixed hf hchars) fun y _ ↦ ?_⟩
    rw [hnone]
    rfl
  | none => cases ho : TokenKind.ofOperator? x with
    | some kind' =>
      simp only [read, hd, ho] at h ⊢
      obtain ⟨hf, hchars⟩ := fixed_of_ofOperator? ho
      obtain ⟨longer, hok, hright⟩ := ofOperator_right hf hchars c
      obtain rfl := Except.ok.inj (hok.symm.trans h)
      exact hright
    | none =>
      simp only [read, hd, ho, if_neg hx] at h ⊢
      by_cases hq : (x = '\'' || x = '"') = true
      · simp only [if_pos hq] at h ⊢
        exact ofQuoted_right (by simpa using hq) h
      by_cases hdigit : isDigit x = true
      · simp only [if_neg hq, if_pos hdigit] at h ⊢
        exact ofNumeral_right hdigit h
      by_cases hword : isWordStart x = true
      · simp only [if_neg hq, if_neg hdigit, if_pos hword] at h ⊢
        obtain ⟨kind', hok, hright⟩ := ofWord_right hword c
        obtain rfl := Except.ok.inj (hok.symm.trans h)
        exact hright
      · simp only [if_neg hq, if_neg hdigit, if_neg hword] at h
        cases h

theorem eq_hash_of_isComment (h : (read x c).outcome = .ok kind) (hk : kind.isComment = true) :
    x = '#' := by
  by_cases hx : x = '#'
  · exact hx
  · obtain ⟨w, -, hright⟩ := read_right h hx
    rw [hright.spelling.isComment] at hk
    cases hk

end Lexeme

end Linewise
