import Linewise.Proofs.FirstError
import Linewise.Proofs.Interleaving

namespace Linewise

open Text

namespace Text

variable {quote c x : Char}

/-- The letter of the escape by which messages show a character, if no literal has this escape. -/
def strayEscape? (c : Char) : Option Char :=
  if c = '\t' ∨ c = '\n' ∨ 0x20 ≤ c.toNat ∧ c.toNat ≤ 0x7e then none
  else if c = '\r' then some 'r' else some 'u'

/-- Any other character is shown by an escape of literals, or by itself if it can stand there as it is. -/
theorem escapeChar_of_none (hq : quote = '\'' ∨ quote = '"') (h : strayEscape? c = none) :
    (∃ e, escapeChar c = ['\\', e] ∧ Lexeme.unescape? e = some c ∧ e ≠ '\n') ∨
      escapeChar c = [c] ∧ c ≠ quote ∧ c ≠ '\\' ∧ c ≠ '\n' := by
  by_cases ht : c = '\t'
  · subst ht
    exact .inl ⟨'t', by decide⟩
  by_cases hn : c = '\n'
  · subst hn
    exact .inl ⟨'n', by decide⟩
  have hascii : 0x20 ≤ c.toNat ∧ c.toNat ≤ 0x7e := by
    unfold strayEscape? at h
    split at h
    · next hplain => simpa only [ht, hn, false_or] using hplain
    · split at h <;> cases h
  have hr : c ≠ '\r' := by
    rintro rfl
    exact absurd hascii (by decide)
  by_cases hpair : (c = '\'' || c = '"' || c = '\\') = true
  · refine .inl ⟨c, by simp only [escapeChar, if_neg ht, if_neg hr, if_neg hn, if_pos hpair], ?_, hn⟩
    simp only [Bool.or_eq_true, decide_eq_true_eq] at hpair
    rcases hpair with (rfl | rfl) | rfl <;> decide
  · refine .inr ⟨?_, ?_⟩
    · simp only [escapeChar, if_neg ht, if_neg hr, if_neg hn, if_neg hpair, hascii, decide_true,
        Bool.and_self, if_true]
    · simp only [Bool.or_eq_true, decide_eq_true_eq, not_or] at hpair
      obtain ⟨⟨hapostrophe, hquote⟩, hb⟩ := hpair
      refine ⟨?_, hb, hn⟩
      rcases hq with rfl | rfl
      · exact hapostrophe
      · exact hquote

theorem escapeChar_of_some (h : strayEscape? c = some x) :
    ∃ more, escapeChar c = '\\' :: x :: more := by
  unfold strayEscape? at h
  split at h
  · cases h
  · next hplain =>
    obtain ⟨ht, hn, hascii⟩ : c ≠ '\t' ∧ c ≠ '\n' ∧ ¬ (0x20 ≤ c.toNat ∧ c.toNat ≤ 0x7e) := by
      simpa only [not_or] using hplain
    have hpair : ¬ (c = '\'' || c = '"' || c = '\\') = true := by
      simp only [Bool.or_eq_true, decide_eq_true_eq]
      rintro ((rfl | rfl) | rfl) <;> exact hascii (by decide)
    have hrange : ¬ (0x20 ≤ c.toNat && c.toNat ≤ 0x7e) = true := by
      simpa only [Bool.and_eq_true, decide_eq_true_eq] using hascii
    split at h
    · next hr =>
      cases h
      subst hr
      exact ⟨[], rfl⟩
    · next hr =>
      cases h
      simp only [escapeChar, if_neg ht, if_neg hr, if_neg hn, if_neg hpair, if_neg hrange]
      exact ⟨_, rfl⟩

theorem letter_of_strayEscape? (h : strayEscape? c = some x) : x = 'r' ∨ x = 'u' := by
  unfold strayEscape? at h
  split at h
  · cases h
  · split at h
    · exact .inl (Option.some.inj h).symm
    · exact .inr (Option.some.inj h).symm

end Text

section

variable {quote c x : Char} {value : List Char}

theorem unescaped_escapeChar (hq : quote = '\'' ∨ quote = '"') (h : strayEscape? c = none) (rest : List Char) :
    unescaped quote (escapeChar c ++ rest) = (unescaped quote rest).map (c :: ·) := by
  rcases escapeChar_of_none hq h with ⟨e, hc, he, -⟩ | ⟨hc, hcq, hb, -⟩
  · rw [hc]
    exact unescaped_pair (Lexeme.ne_backslash hq) he rest
  · rw [hc]
    exact unescaped_plain hcq hb rest

theorem unescaped_escape (hq : quote = '\'' ∨ quote = '"') (h : ∀ c ∈ value, strayEscape? c = none) :
    unescaped quote (value.flatMap escapeChar) = some value := by
  induction value with
  | nil => simp [unescaped]
  | cons c value ih =>
    obtain ⟨hc, hvalue⟩ := List.forall_mem_cons.1 h
    rw [List.flatMap_cons, unescaped_escapeChar hq hc, ih hvalue]
    rfl

theorem newline_not_mem_escapeChar (h : strayEscape? c = none) : '\n' ∉ escapeChar c := by
  rcases escapeChar_of_none (.inl rfl) h with ⟨e, hc, -, he⟩ | ⟨hc, -, -, hn⟩
  · rw [hc]
    simp [Ne.symm he]
  · rw [hc]
    simpa using Ne.symm hn

theorem quoted_escapeChar (hq : quote = '\'' ∨ quote = '"') (h : strayEscape? c = none) (rest : List Char) :
    Lexeme.quoted quote (escapeChar c ++ rest) =
      ((Lexeme.quoted quote rest).1.push c, (Lexeme.quoted quote rest).2 + (escapeChar c).length) := by
  rcases escapeChar_of_none hq h with ⟨e, hc, he, -⟩ | ⟨hc, hcq, hb, -⟩
  · rw [hc]
    exact Lexeme.quoted_escape (Ne.symm (Lexeme.ne_backslash hq)) he
  · rw [hc]
    exact Lexeme.quoted_plain hcq hb

/-- The reading of a literal stops at the first escape that literals do not have. -/
theorem quoted_escape_stray (hq : quote = '\'' ∨ quote = '"') (h : value.findSome? strayEscape? = some x) :
    ∃ w more, value.flatMap escapeChar = w ++ '\\' :: x :: more ∧ '\n' ∉ w ∧
      ∀ post, ∃ n, Lexeme.quoted quote (w ++ '\\' :: x :: post) = (.badEscape x, n) := by
  induction value with
  | nil => cases h
  | cons c value ih =>
    rw [List.findSome?_cons] at h
    cases hc : strayEscape? c with
    | some y =>
      rw [hc] at h
      cases h
      obtain ⟨more, hmore⟩ := escapeChar_of_some hc
      refine ⟨[], more ++ value.flatMap escapeChar, ?_, List.not_mem_nil, fun post ↦ ⟨2, ?_⟩⟩
      · rw [List.flatMap_cons, hmore]
        rfl
      · have hx : Lexeme.unescape? x = none := by
          rcases letter_of_strayEscape? hc with rfl | rfl <;> decide
        rw [List.nil_append, Lexeme.quoted, if_neg (Ne.symm (Lexeme.ne_backslash hq)), if_pos rfl]
        simp only [hx]
    | none =>
      rw [hc] at h
      obtain ⟨w, more, hvalue, hw, hbad⟩ := ih h
      refine ⟨escapeChar c ++ w, more, ?_, ?_, fun post ↦ ?_⟩
      · rw [List.flatMap_cons, hvalue, List.append_assoc]
      · exact List.not_mem_append (newline_not_mem_escapeChar hc) hw
      · obtain ⟨n, hn⟩ := hbad post
        rw [List.append_assoc, quoted_escapeChar hq hc, hn]
        exact ⟨_, rfl⟩

end

namespace Lexer

variable {s : Lexer} {w text : List Char} {kind : TokenKind}

theorem Faces.contents_token (h : s.Faces w) (hw : Spelling w kind) (hn : '\n' ∉ w) :
    ∃ token : Token, token.kind = kind ∧ s.contents = [.ok token] := by
  rw [← List.append_nil w] at h
  obtain ⟨token, t, hkind, ht, hcontents⟩ := h.token hw hn nofun
  exact ⟨token, hkind, by rw [hcontents, ht.contents_eq_nil]⟩

/-- A literal is rejected for the first of its escapes that stands for nothing. -/
theorem Faces.contents_badEscape {quote x : Char} (hq : quote = '\'' ∨ quote = '"') (hn : '\n' ∉ w)
    (hx : x ≠ '\n' ∧ x ≠ '\r')
    (hbad : ∀ post, ∃ n, Lexeme.quoted quote (w ++ '\\' :: x :: post) = (.badEscape x, n))
    (h : s.Faces (quote :: (w ++ '\\' :: x :: text))) :
    ∃ span, s.contents = [.error ⟨.invalidEscape x, span⟩] := by
  have hline : '\n' ∉ quote :: (w ++ ['\\', x]) := by
    have hquote : '\n' ≠ quote := by
      rcases hq with rfl | rfl <;> decide
    simp [hquote, hn, Ne.symm hx.1]
  have hlast : (quote :: (w ++ ['\\', x])).getLast? ≠ some '\r' := by
    rw [← List.cons_append, List.getLast?_append]
    exact mt Option.some.inj hx.2
  obtain ⟨line, more, -, happend⟩ := @linesLeft_append _ text hline hlast (by simp)
  have hsplit (post : List Char) : quote :: (w ++ ['\\', x]) ++ post = quote :: (w ++ '\\' :: x :: post) := by
    simp
  rw [hsplit, hsplit] at happend
  obtain ⟨hrest, -⟩ := List.cons.inj (h.trans happend)
  have hdrop : s.cursor.rest.dropWhile isBlank = quote :: (w ++ '\\' :: x :: line) := by
    have hblank : isBlank quote = false := by
      rcases hq with rfl | rfl <;> decide
    rw [hrest, List.dropWhile_cons, hblank, if_neg Bool.false_ne_true]
  obtain ⟨c, hc, hcr, -⟩ := nextChar?_of_dropWhile hdrop
  have hslash : ¬ quote = '/' := by
    rcases hq with rfl | rfl <;> decide
  obtain ⟨n, hquoted⟩ := hbad line
  obtain ⟨span, t, hfind⟩ : ∃ span t, s.find = .failure ⟨.invalidEscape x, span⟩ t := by
    simp only [find, hc, scan, if_neg hslash, lexeme, Lexeme.read_quote hq, Lexeme.ofQuoted, hcr, hquoted]
    exact ⟨_, _, rfl⟩
  refine ⟨span, ?_⟩
  rw [contents, ahead_eq, hfind]
  rfl

end Lexer

theorem contents_ofSource {w : List Char} : ∃ s : Lexer, s.Faces w ∧
    (Lexer.ofSource (String.ofList w) false).upcoming.map (·.content) = s.contents := by
  obtain ⟨s, hs, hcontents⟩ := (Lexer.faces_ofSource w false).blank rfl
  refine ⟨s, hs, ?_⟩
  rw [Lexer.upcoming_of_not_held rfl]
  exact hcontents

/-- A token alone in a text is the only one that is read. -/
theorem Spelling.tokenize {w : List Char} {kind : TokenKind} (h : Spelling w kind) (hn : '\n' ∉ w) :
    ∃ token, tokenize (String.ofList w) = .ok #[token] ∧ token.kind = kind := by
  obtain ⟨s, hs, hcontents⟩ := contents_ofSource (w := w)
  obtain ⟨token, hkind, htoken⟩ := hs.contents_token h hn
  exact ⟨token, tokenize_eq_ok.2 (hcontents.trans htoken), hkind⟩

theorem tokenize_stray {quote x : Char} {value : List Char} (hq : quote = '\'' ∨ quote = '"')
    (h : value.findSome? strayEscape? = some x) :
    ∃ e, tokenize (String.ofList (quote :: (value.flatMap escapeChar ++ [quote]))) = .error e ∧
      e.cause = .invalidEscape x := by
  obtain ⟨w, more, hvalue, hw, hbad⟩ := quoted_escape_stray hq h
  obtain ⟨c, -, hc⟩ := List.exists_of_findSome?_eq_some h
  have hx : x ≠ '\n' ∧ x ≠ '\r' := by
    rcases letter_of_strayEscape? hc with rfl | rfl <;> decide
  rw [hvalue, List.append_assoc]
  obtain ⟨s, hs, hcontents⟩ := contents_ofSource
  obtain ⟨span, herror⟩ := hs.contents_badEscape hq hw hx hbad
  exact ⟨_, @Lexer.readAll_eq_error _ _ [] (hcontents.trans herror), rfl⟩

namespace TokenKind

variable {kind : TokenKind} {x : Char}

def strayEscape? : TokenKind → Option Char
  | string value => value.toList.findSome? Text.strayEscape?
  | char value => Text.strayEscape? value
  | _ => none

theorem display_string (value : String) : (string value).display =
    String.ofList ('"' :: (value.toList.flatMap escapeChar ++ ['"'])) := by
  apply String.toList_injective
  change ("\"" ++ escape value ++ "\"").toList = _
  simp [escape]

theorem display_char (value : Char) :
    (char value).display = String.ofList ('\'' :: (escapeChar value ++ ['\''])) := by
  apply String.toList_injective
  change ("'" ++ String.ofList (escapeChar value) ++ "'").toList = _
  simp

theorem Lexable.spelling_display (h : kind.Lexable) (hs : kind.strayEscape? = none) :
    ∃ w, kind.display = String.ofList w ∧ Spelling w kind ∧ '\n' ∉ w := by
  cases kind with
  | string value =>
    have hvalue : ∀ c ∈ value.toList, Text.strayEscape? c = none := List.findSome?_eq_none_iff.1 hs
    have hspelling := Spelling.string (unescaped_escape (.inr rfl) hvalue)
    rw [String.ofList_toList] at hspelling
    refine ⟨_, display_string value, hspelling, ?_⟩
    have hescape : '\n' ∉ value.toList.flatMap escapeChar := by
      rw [List.mem_flatMap]
      rintro ⟨c, hc, hn⟩
      exact newline_not_mem_escapeChar (hvalue c hc) hn
    simp [hescape]
  | char value =>
    have hvalue := unescaped_escapeChar (.inl rfl) hs []
    rw [List.append_nil, unescaped] at hvalue
    refine ⟨_, display_char value, .char hvalue, ?_⟩
    simp [newline_not_mem_escapeChar hs]
  | lineComment | blockComment => exact h.elim
  | _ => exact ⟨_, String.ofList_toList.symm, h.spelling, h.newline_not_mem⟩

theorem Lexable.tokenize_display_of_none (h : kind.Lexable) (hs : kind.strayEscape? = none) :
    ∃ token, tokenize kind.display = .ok #[token] ∧ token.kind = kind := by
  obtain ⟨w, hw, hspelling, hn⟩ := h.spelling_display hs
  rw [hw]
  exact hspelling.tokenize hn

theorem tokenize_display_of_some (h : kind.strayEscape? = some x) :
    ∃ e, tokenize kind.display = .error e ∧ e.cause = .invalidEscape x := by
  cases kind with
  | string value =>
    rw [display_string]
    exact tokenize_stray (.inr rfl) h
  | char value =>
    have hvalue : [value].findSome? Text.strayEscape? = some x := by
      simpa [strayEscape?] using h
    have hstray := tokenize_stray (.inl rfl) hvalue
    rwa [List.flatMap_singleton, ← display_char] at hstray
  | _ => cases h

end TokenKind

/-- What a message writes for a token of a text is a text with this one token, unless there is an escape in it
that no literal has: then it is rejected for the first such escape. -/
theorem tokenize_display {source : String} {tokens : Array Token} (h : tokenize source = .ok tokens)
    {token : Token} (ht : token ∈ tokens) :
    (token.kind.strayEscape? = none →
      ∃ t, tokenize token.kind.display = .ok #[t] ∧ t.kind = token.kind) ∧
      ∀ x, token.kind.strayEscape? = some x →
        ∃ e, tokenize token.kind.display = .error e ∧ e.cause = .invalidEscape x := by
  have hmem : .ok token ∈ (Parser.ofSource source).upcoming.map (·.content) := by
    have hcontents := tokenize_eq_ok.1 h
    change _ ∈ (Lexer.ofSource source false).upcoming.map (·.content)
    rw [hcontents]
    exact List.mem_map_of_mem (Array.mem_toList_iff.2 ht)
  exact ⟨(lexable_of_mem_upcoming hmem).tokenize_display_of_none, fun _ ↦ TokenKind.tokenize_display_of_some⟩

example : tokenize (TokenKind.string "n\né").display = .error ⟨.invalidEscape 'u', .onLine 1 4 5⟩ := by
  decide +kernel

end Linewise
