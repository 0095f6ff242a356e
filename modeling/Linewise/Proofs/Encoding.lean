import Linewise.Proofs.BlankedLexing
import Linewise.Proofs.Recognition

namespace Linewise

open Text

namespace Text

/-- The lines of the rest of a text: the line in progress comes first, even if nothing of it is left. -/
def linesLeft (text : List Char) : List (List Char) := if text = [] then [[]] else lines text

variable {c : Char} {w text : List Char}

theorem linesLeft_newline (text : List Char) : linesLeft ('\n' :: text) = [] :: lines text := by
  rw [linesLeft, if_neg (by simp)]
  exact lines_append_newline List.not_mem_nil nofun text

theorem linesLeft_return (text : List Char) : linesLeft ('\r' :: '\n' :: text) = [] :: lines text := by
  have hpieces := pieces_append_newline (a := ['\r']) (by decide) text
  rw [linesLeft, if_neg (by simp), lines, show '\r' :: '\n' :: text = ['\r'] ++ '\n' :: text from rfl, hpieces]
  rfl

theorem linesLeft_cons (hc : c ≠ '\n') (hr : c = '\r' → text.head? ≠ some '\n') :
    ∃ line more, linesLeft text = line :: more ∧ linesLeft (c :: text) = (c :: line) :: more := by
  by_cases hn : '\n' ∈ text
  · obtain ⟨a, b, rfl, ha⟩ := List.eq_append_cons_of_mem hn
    have hne : a ++ '\n' :: b ≠ [] := by simp
    have hca : '\n' ∉ c :: a := by simp [Ne.symm hc, ha]
    have hcons : lines (c :: (a ++ '\n' :: b)) = dropTerminator ((c :: a) ++ ['\n']) :: lines b := by
      rw [lines, ← List.cons_append, pieces_append_newline hca, List.map_cons, lines]
    have htext : lines (a ++ '\n' :: b) = dropTerminator (a ++ ['\n']) :: lines b := by
      rw [lines, pieces_append_newline ha, List.map_cons, lines]
    refine ⟨_, _, by rw [linesLeft, if_neg hne, htext], ?_⟩
    rw [linesLeft, if_neg (by simp), hcons, dropTerminator_append_newline, dropTerminator_append_newline]
    cases a with
    | nil =>
      have hne : c ≠ '\r' := fun h ↦ hr h rfl
      simp [hne]
    | cons d a =>
      rw [List.getLast?_cons_cons]
      split <;> simp
  · have hcn : '\n' ∉ c :: text := by simp [Ne.symm hc, hn]
    refine ⟨text, [], ?_, ?_⟩
    · by_cases hne : text = []
      · rw [linesLeft, if_pos hne, hne]
      · rw [linesLeft, if_neg hne, lines_of_no_newline hn hne]
    · rw [linesLeft, if_neg (by simp), lines_of_no_newline hcn (by simp)]

theorem linesLeft_append (hn : '\n' ∉ w) (hr : w.getLast? ≠ some '\r') (hne : w ≠ []) :
    ∃ line more, linesLeft text = line :: more ∧ linesLeft (w ++ text) = (w ++ line) :: more := by
  induction w with
  | nil => exact absurd rfl hne
  | cons c w ih =>
    obtain ⟨hc, hw⟩ := not_or.1 (mt List.mem_cons.2 hn)
    cases w with
    | nil => exact linesLeft_cons (Ne.symm hc) fun h ↦ absurd (congrArg some h) hr
    | cons d w =>
      rw [List.getLast?_cons_cons] at hr
      obtain ⟨line, more, hline, hcons⟩ := ih hw hr (by simp)
      have hd : (d :: w ++ text).head? ≠ some '\n' := by
        rintro ⟨⟩
        exact hw List.mem_cons_self
      obtain ⟨line', more', hline', hcons'⟩ := linesLeft_cons (Ne.symm hc) fun _ ↦ hd
      rw [hcons] at hline'
      obtain ⟨rfl, rfl⟩ := List.cons.inj hline'
      exact ⟨line, more, hline, hcons'⟩

theorem eq_nil_of_lines (h : lines text = []) : text = [] := by
  rw [← pieces_flatten text, List.map_eq_nil_iff.1 h]
  rfl

end Text

/-- A blank at the front of a text is at the front of its first line, too, or ends it. -/
theorem AtEnd.line {text line : List Char} {more : List (List Char)} (h : AtEnd text)
    (hl : linesLeft text = line :: more) : AtEnd line := by
  cases text with
  | nil =>
    cases hl
    exact nofun
  | cons c text =>
    by_cases hn : c = '\n'
    · subst hn
      rw [linesLeft_newline] at hl
      cases hl
      exact nofun
    by_cases hr : c = '\r' ∧ text.head? = some '\n'
    · obtain ⟨rfl, hhead⟩ := hr
      obtain ⟨rest, rfl⟩ := List.head?_eq_some_iff.1 hhead
      rw [linesLeft_return] at hl
      cases hl
      exact nofun
    · obtain ⟨line', more', -, hcons⟩ := linesLeft_cons hn (not_and.1 hr)
      rw [hcons] at hl
      cases hl
      exact h

namespace Lexer

variable {s : Lexer} {c : Char} {w text : List Char}

def Faces (s : Lexer) (text : List Char) : Prop := s.cursor.rest :: s.pending = linesLeft text

theorem faces_ofSource (text : List Char) (keepComments : Bool) :
    (ofSource (String.ofList text) keepComments).Faces ('\n' :: text) := by
  rw [Faces, linesLeft_newline, ofSource, String.toList_ofList]
  rfl

theorem contents_of_ahead_eq {t : Lexer} {later later' : Bool} (h : s.ahead later = t.ahead later') :
    s.contents = t.contents := by
  rw [← map_content_ahead later s, h, map_content_ahead]

theorem Faces.ahead_nil (h : s.Faces []) (later : Bool) : s.ahead later = [] := by
  obtain ⟨hrest, hpending⟩ := List.cons.inj h
  rw [ahead_of_blank later (by rw [hrest]; rfl), hpending]
  rfl

/-- A blank is passed over; one that ends a line is no longer on the line of the tokens after it. -/
theorem Faces.ahead_blank (h : s.Faces (c :: text)) (hc : isBlank c = true) : ∃ t : Lexer, t.Faces text ∧
    ∀ later, s.ahead later = t.ahead (later || decide (c = '\n')) := by
  -- The line ends here, or with the line feed after a carriage return, or the blank is one of its characters.
  by_cases hn : c = '\n'
  · subst hn
    rw [Faces, linesLeft_newline] at h
    obtain ⟨hrest, hpending⟩ := List.cons.inj h
    cases hl : lines text with
    | nil =>
      have hs : s.Faces text := by
        rw [Faces, hrest, hpending, hl, eq_nil_of_lines hl]
        rfl
      refine ⟨s, hs, fun later ↦ ?_⟩
      rw [eq_nil_of_lines hl] at hs
      rw [hs.ahead_nil, hs.ahead_nil]
    | cons line more =>
      have hsplit : s.pending = [] ++ line :: more := hpending.trans hl
      have hskip (later : Bool) := ahead_skip later (by rw [hrest]; rfl) hsplit (List.forall_mem_nil _)
      refine ⟨_, ?_, fun later ↦ (hskip later).trans (by rw [decide_eq_true rfl, Bool.or_true])⟩
      have hne : text ≠ [] := by
        rintro rfl
        cases hl
      rw [Faces, linesLeft, if_neg hne, hl]
      rfl
  rw [decide_eq_false hn]
  simp only [Bool.or_false]
  by_cases hr : c = '\r' ∧ text.head? = some '\n'
  · obtain ⟨rfl, hhead⟩ := hr
    obtain ⟨rest, rfl⟩ := List.head?_eq_some_iff.1 hhead
    refine ⟨s, ?_, fun _ ↦ rfl⟩
    rw [Faces, linesLeft_newline, ← linesLeft_return]
    exact h
  · obtain ⟨line, more, hline, hcons⟩ := linesLeft_cons hn (not_and.1 hr)
    rw [Faces, hcons] at h
    obtain ⟨hrest, hpending⟩ := List.cons.inj h
    have hsplit : s.cursor.rest = [c] ++ line := hrest
    refine ⟨{ s with cursor := s.cursor.forward [c].length }, ?_, fun later ↦ ?_⟩
    · rw [Faces, Cursor.forward_rest, hrest, hline, hpending]
      rfl
    · exact (ahead_forward later hsplit (by simp [hc])).symm

theorem Faces.blank (h : s.Faces (c :: text)) (hc : isBlank c = true) :
    ∃ t : Lexer, t.Faces text ∧ s.contents = t.contents := by
  obtain ⟨t, ht, hahead⟩ := h.ahead_blank hc
  exact ⟨t, ht, contents_of_ahead_eq (hahead false)⟩

theorem Faces.blanks {blanks : List Char} (h : s.Faces (blanks ++ text)) (hb : blanks.all isBlank = true) :
    ∃ t : Lexer, t.Faces text ∧ s.contents = t.contents := by
  induction blanks generalizing s with
  | nil => exact ⟨s, h, rfl⟩
  | cons c blanks ih =>
    rw [List.all_cons, Bool.and_eq_true_iff] at hb
    obtain ⟨t, ht, hcontents⟩ := h.blank hb.1
    obtain ⟨u, hu, hcontents'⟩ := ih ht hb.2
    exact ⟨u, hu, hcontents.trans hcontents'⟩

theorem Faces.contents_eq_nil (h : s.Faces []) : s.contents = [] := by
  rw [contents, h.ahead_nil]
  rfl

theorem Faces.ahead_token {kind : TokenKind} (h : s.Faces (w ++ text)) (hw : Spelling w kind)
    (hn : '\n' ∉ w) (hp : AtEnd text) : ∃ (token : Token) (t : Lexer), token.kind = kind ∧ t.Faces text ∧
      ∀ later, s.ahead later = ⟨later, .ok token⟩ :: t.ahead false := by
  obtain ⟨x, v, rfl⟩ := hw.exists_cons
  obtain ⟨line, more, hline, happend⟩ := linesLeft_append hn hw.getLast?_ne_return (by simp)
  rw [Faces, happend] at h
  obtain ⟨hrest, hpending⟩ := List.cons.inj h
  have hsplit : s.cursor.rest = [] ++ x :: (v ++ line) := hrest
  obtain ⟨t, ht, hat, -⟩ := (hw.spelled (hp.line hline)).find hsplit rfl (.refl line)
  generalize Span.onLine _ _ _ = span at ht
  refine ⟨⟨kind, span⟩, t, rfl, ?_, fun later ↦ ?_⟩
  · rw [Faces, hat.rest, hat.pending, hpending, hline]
  · rw [ahead_eq, ht]

theorem Faces.token {kind : TokenKind} (h : s.Faces (w ++ text)) (hw : Spelling w kind) (hn : '\n' ∉ w)
    (hp : AtEnd text) : ∃ (token : Token) (t : Lexer), token.kind = kind ∧ t.Faces text ∧
      s.contents = .ok token :: t.contents := by
  obtain ⟨token, t, hk, ht, hahead⟩ := h.ahead_token hw hn hp
  exact ⟨token, t, hk, ht, congrArg (List.map Upcoming.content) (hahead false)⟩

end Lexer

def escaped (quote c : Char) : List Char :=
  if c = quote ∨ c = '\\' then ['\\', c] else if c = '\n' then ['\\', 'n'] else [c]

namespace TokenKind

def lexeme : TokenKind → List Char
  | keyword text | identifier text | integer text | float text => text.toList
  | string value => '"' :: (value.toList.flatMap (escaped '"') ++ ['"'])
  | char value => '\'' :: (escaped '\'' value ++ ['\''])
  | kind => kind.symbolChars

/-- The kind has a text that is right for it, and is no comment. -/
def Lexable : TokenKind → Prop
  | keyword word => word ∈ keywords
  | identifier name => name ∉ keywords ∧
      ∃ x w, name.toList = x :: w ∧ isWordStart x = true ∧ w.all isWordPart = true
  | integer digits => digits.toList ≠ [] ∧ digits.toList.all isDigit = true
  | float digits => ∃ w v, digits.toList = w ++ '.' :: v ∧ w ≠ [] ∧ w.all isDigit = true ∧ v.all isDigit = true
  | lineComment | blockComment => False
  | _ => True

end TokenKind

section

variable {quote : Char}

theorem unescaped_pair {e c : Char} (hq : quote ≠ '\\') (he : Lexeme.unescape? e = some c) (rest : List Char) :
    unescaped quote ('\\' :: e :: rest) = (unescaped quote rest).map (c :: ·) := by
  rw [unescaped, if_neg (Ne.symm hq), if_pos rfl, he]
  cases unescaped quote rest <;> rfl

theorem unescaped_plain {c : Char} (hc : c ≠ quote) (hb : c ≠ '\\') (rest : List Char) :
    unescaped quote (c :: rest) = (unescaped quote rest).map (c :: ·) := by
  rw [unescaped.eq_def]
  simp only [if_neg hc, if_neg hb]
  cases unescaped quote rest <;> rfl

theorem unescaped_escaped (hq : quote = '\'' ∨ quote = '"') (c : Char) (rest : List Char) :
    unescaped quote (escaped quote c ++ rest) = (unescaped quote rest).map (c :: ·) := by
  have hne : quote ≠ '\\' := Lexeme.ne_backslash hq
  unfold escaped
  split
  · next h =>
    have hself : Lexeme.unescape? c = some c := by
      rcases h with rfl | rfl
      · rcases hq with rfl | rfl <;> decide
      · decide
    exact unescaped_pair hne hself rest
  · next h =>
    obtain ⟨hc, hb⟩ := not_or.1 h
    split
    · next hn =>
      subst hn
      exact unescaped_pair hne (by decide) rest
    · exact unescaped_plain hc hb rest

theorem unescaped_flatMap (hq : quote = '\'' ∨ quote = '"') (value : List Char) :
    unescaped quote (value.flatMap (escaped quote)) = some value := by
  induction value with
  | nil => simp [unescaped]
  | cons c value ih =>
    rw [List.flatMap_cons, unescaped_escaped hq, ih]
    rfl

theorem newline_not_mem_escaped (hq : quote ≠ '\n') (c : Char) : '\n' ∉ escaped quote c := by
  unfold escaped
  split
  · next h =>
    have hc : '\n' ≠ c := by
      rintro rfl
      rcases h with h | h
      · exact hq h.symm
      · cases h
    simp [hc]
  · split
    · decide
    · next hn => simpa using Ne.symm hn

end

namespace TokenKind

variable {kind : TokenKind}

theorem lexeme_of_symbol? (h : kind.symbol?.isSome = true) : kind.lexeme = kind.symbolChars := by
  cases kind <;> first | rfl | cases h

theorem exists_ofList (text : String) : ∃ w, text = String.ofList w :=
  ⟨text.toList, String.ofList_toList.symm⟩

theorem Lexable.spelling (h : kind.Lexable) : Spelling kind.lexeme kind := by
  by_cases hs : kind.symbol?.isSome = true
  · rw [lexeme_of_symbol? hs]
    exact .symbol (Lexeme.symbol?_of_fixed (mem_fixed hs) rfl)
  cases kind with
  | keyword word =>
    obtain ⟨w, rfl⟩ := exists_ofList word
    rw [lexeme, String.toList_ofList]
    exact .keyword (List.contains_iff_mem.2 h)
  | identifier name =>
    obtain ⟨w, rfl⟩ := exists_ofList name
    obtain ⟨hk, x, v, hw, hx, hv⟩ := h
    rw [String.toList_ofList] at hw
    subst hw
    rw [lexeme, String.toList_ofList]
    exact .identifier hx hv (Bool.eq_false_iff.2 (mt List.contains_iff_mem.1 hk))
  | integer digits =>
    obtain ⟨w, rfl⟩ := exists_ofList digits
    rw [Lexable, String.toList_ofList] at h
    obtain ⟨hne, hall⟩ := h
    cases w with
    | nil => exact absurd rfl hne
    | cons x w =>
      rw [lexeme, String.toList_ofList]
      obtain ⟨hx, hw⟩ := Bool.and_eq_true_iff.1 hall
      exact .integer hx hw
  | float digits =>
    obtain ⟨u, rfl⟩ := exists_ofList digits
    obtain ⟨w, v, hu, hne, hw, hv⟩ := h
    rw [String.toList_ofList] at hu
    subst hu
    cases w with
    | nil => exact absurd rfl hne
    | cons x w =>
      rw [lexeme, String.toList_ofList]
      obtain ⟨hx, hw⟩ := Bool.and_eq_true_iff.1 hw
      exact .float hx hw hv
  | string value =>
    have hspelling := Spelling.string (unescaped_flatMap (.inr rfl) value.toList)
    rwa [String.ofList_toList] at hspelling
  | char value =>
    have hvalue := unescaped_flatMap (.inl rfl) [value]
    rw [List.flatMap_singleton] at hvalue
    exact .char hvalue
  | lineComment | blockComment => exact h.elim
  | _ => exact absurd rfl hs

theorem Lexable.newline_not_mem (h : kind.Lexable) : '\n' ∉ kind.lexeme := by
  have hclass {p : Char → Bool} {w : List Char} (hw : w.all p = true) (hp : p '\n' = false) : '\n' ∉ w := by
    intro hn
    rw [List.all_eq_true.1 hw '\n' hn] at hp
    cases hp
  have hquoted {quote : Char} (hq : quote ≠ '\n') (value : List Char) :
      '\n' ∉ quote :: (value.flatMap (escaped quote) ++ [quote]) := by
    simp [Ne.symm hq, newline_not_mem_escaped hq]
  by_cases hs : kind.symbol?.isSome = true
  · rw [lexeme_of_symbol? hs]
    intro hn
    cases not_isBlank_of_mem_symbolChars (mem_fixed hs) hn
  cases kind with
  | keyword word => exact hclass (keyword_word word h).1 (isWordPart_of_isBlank rfl)
  | identifier name =>
    obtain ⟨-, x, v, hw, hx, hv⟩ := h
    rw [lexeme, hw]
    refine hclass (p := isWordPart) ?_ (isWordPart_of_isBlank rfl)
    rw [List.all_cons, isWordPart_of_isWordStart hx, hv]
    rfl
  | integer digits => exact hclass h.2 (by decide)
  | float digits =>
    obtain ⟨w, v, hu, -, hw, hv⟩ := h
    rw [lexeme, hu]
    have hwn := hclass hw (by decide)
    have hvn := hclass hv (by decide)
    simp [hwn, hvn]
  | string value => exact hquoted (by decide) value.toList
  | char value =>
    have hvalue := hquoted (show '\'' ≠ '\n' by decide) [value]
    rwa [List.flatMap_singleton] at hvalue
  | lineComment | blockComment => exact h.elim
  | _ => exact absurd rfl hs

end TokenKind

theorem Spelling.lexable {w : List Char} {kind : TokenKind} (h : Spelling w kind) : kind.Lexable := by
  cases h with
  | keyword h => exact List.contains_iff_mem.1 h
  | @identifier x w hx hw hk =>
    refine ⟨fun hmem ↦ ?_, x, w, String.toList_ofList, hx, hw⟩
    rw [isKeyword, List.contains_iff_mem.2 hmem] at hk
    cases hk
  | @integer x w hx hw =>
    rw [TokenKind.Lexable, String.toList_ofList]
    exact ⟨by simp, Bool.and_eq_true_iff.2 ⟨hx, hw⟩⟩
  | @float x w v hx hw hv =>
    exact ⟨x :: w, v, String.toList_ofList, by simp, Bool.and_eq_true_iff.2 ⟨hx, hw⟩, hv⟩
  | symbol h => cases kind <;> trivial
  | string | char => trivial

def writeOut (parts : List (TokenKind × List Char)) : List Char := parts.flatMap fun p ↦ p.1.lexeme ++ p.2

section

variable {parts : List (TokenKind × List Char)}

theorem Lexer.Faces.contents_writeOut {s : Lexer} (h : s.Faces (writeOut parts))
    (hk : ∀ p ∈ parts, p.1.Lexable) (hb : ∀ p ∈ parts, p.2.all isBlank = true)
    (hsep : ∀ p ∈ parts.dropLast, p.2 ≠ []) :
    ∃ tokens : List Token, s.contents = tokens.map .ok ∧ tokens.map (·.kind) = parts.map (·.1) := by
  induction parts generalizing s with
  | nil => exact ⟨[], h.contents_eq_nil, rfl⟩
  | cons p parts ih =>
    obtain ⟨hk, hks⟩ := List.forall_mem_cons.1 hk
    obtain ⟨hb, hbs⟩ := List.forall_mem_cons.1 hb
    have hend : AtEnd (p.2 ++ writeOut parts) := by
      intro y hy
      cases hp : p.2 with
      | nil =>
        cases parts with
        | nil =>
          rw [hp] at hy
          cases hy
        | cons q parts => exact absurd hp (hsep p List.mem_cons_self)
      | cons c blanks =>
        rw [hp] at hy hb
        cases hy
        exact (Bool.and_eq_true_iff.1 hb).1
    rw [writeOut, List.flatMap_cons, List.append_assoc] at h
    obtain ⟨token, t, hkind, ht, hcontents⟩ := h.token hk.spelling hk.newline_not_mem hend
    obtain ⟨u, hu, hskip⟩ := ht.blanks hb
    have hseps : ∀ q ∈ parts.dropLast, q.2 ≠ [] := by
      intro q hq
      cases parts with
      | nil => cases hq
      | cons r parts => exact hsep q (List.mem_cons_of_mem p hq)
    obtain ⟨tokens, htokens, hkinds⟩ := ih hu hks hbs hseps
    refine ⟨token :: tokens, ?_, ?_⟩
    · rw [hcontents, hskip, htokens, List.map_cons]
    · rw [List.map_cons, List.map_cons, hkind, hkinds]

/-- Kinds that are written out with white space between them are read back: the text has no error, and its
tokens are of these kinds. -/
theorem tokenize_writeOut {before : List Char} (hbefore : before.all isBlank = true)
    (hk : ∀ p ∈ parts, p.1.Lexable) (hb : ∀ p ∈ parts, p.2.all isBlank = true)
    (hsep : ∀ p ∈ parts.dropLast, p.2 ≠ []) :
    ∃ tokens, tokenize (String.ofList (before ++ writeOut parts)) = .ok tokens ∧
      tokens.toList.map (·.kind) = parts.map (·.1) := by
  have hstart : (Lexer.ofSource (String.ofList (before ++ writeOut parts)) false).Faces
      (('\n' :: before) ++ writeOut parts) := Lexer.faces_ofSource _ false
  obtain ⟨s, hs, hcontents⟩ := hstart.blanks (by rw [List.all_cons, hbefore]; rfl)
  obtain ⟨tokens, htokens, hkinds⟩ := hs.contents_writeOut hk hb hsep
  refine ⟨tokens.toArray, ?_, hkinds⟩
  rw [tokenize_eq_ok, Lexer.upcoming_of_not_held rfl]
  exact hcontents.trans htokens

end

theorem tokenize_writeOut_mixed : ∃ tokens,
    tokenize "\t\"a\\\"\\\\\\n\r'\"\r\n\t**= '\\''\u2003é_1\n \n1." = .ok tokens ∧
      tokens.toList.map (·.kind) = [.string "a\"\\\n\r'", .compoundAssignment .exponent, .char '\'',
        .identifier "é_1", .float "1."] := by
  let parts : List (TokenKind × List Char) := [(.string "a\"\\\n\r'", ['\r', '\n', '\t']),
    (.compoundAssignment .exponent, [' ']), (.char '\'', ['\u2003']), (.identifier "é_1", ['\n', ' ', '\n']),
    (.float "1.", [])]
  have hlexable : ∀ p ∈ parts, p.1.Lexable := by
    intro p hp
    simp only [parts, List.mem_cons, List.not_mem_nil, or_false] at hp
    rcases hp with rfl | rfl | rfl | rfl | rfl
    · trivial
    · trivial
    · trivial
    · exact ⟨by decide, 'é', ['_', '1'], by decide, by decide +kernel, by decide⟩
    · exact ⟨['1'], [], by decide, by decide, by decide, by decide⟩
  have htext : String.ofList (['\t'] ++ writeOut parts) =
      "\t\"a\\\"\\\\\\n\r'\"\r\n\t**= '\\''\u2003é_1\n \n1." := by decide +kernel
  rw [← htext]
  exact tokenize_writeOut (by decide) hlexable (by decide) (by decide)

end Linewise
