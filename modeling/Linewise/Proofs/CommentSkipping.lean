import Linewise.Proofs.BlankedLexing
import Linewise.Proofs.Bookmark

namespace Linewise

theorem withoutComments_cons (t : Token) (ts : List Token) : withoutComments (t :: ts) =
    if t.kind.isComment then withoutComments ts else t :: withoutComments ts := by
  rw [withoutComments, List.filter_cons]
  cases t.kind.isComment <;> rfl

namespace Lexer

/-- An error is found with comments and without them, after the same tokens. -/
theorem map_content_skipComments {passed : Bool} {xs : List Upcoming} {tokens : List Token}
    {e : Option LexicalError} (h : xs.map (·.content) = tokens.map .ok ++ e.toList.map .error) :
    (skipComments passed xs).map (·.content) =
      (withoutComments tokens).map .ok ++ e.toList.map .error := by
  fun_induction skipComments passed xs generalizing tokens with
  | case1 =>
    obtain ⟨htokens, he⟩ := List.append_eq_nil_iff.1 h.symm
    obtain rfl := List.map_eq_nil_iff.1 htokens
    exact he.symm
  | case2 passed later e' xs ih =>
    cases tokens with
    | cons t tokens => cases (List.cons.inj h).1
    | nil =>
      cases e with
      | none => cases h
      | some e =>
        obtain ⟨herror, hrest⟩ := List.cons.inj h
        obtain rfl := List.map_eq_nil_iff.1 hrest
        cases herror
        rfl
  | case3 passed later t xs hk ih | case4 passed later t xs hk ih =>
    cases tokens with
    | nil => cases e <;> cases h
    | cons t' tokens =>
      obtain ⟨htoken, hmore⟩ := List.cons.inj h
      cases htoken
      rw [withoutComments_cons]
      simp [hk, ih hmore]

/-- All that a reader finds who passes over comments, given what one finds who keeps them. -/
theorem stream_ignoringComments {text : List Char} {kept : Array Token} {fault : Option LexicalError}
    (h : (ofText text true).stream = (kept, fault)) :
    (ofText text false).stream = ((withoutComments kept.toList).toArray, fault) := by
  obtain ⟨tokens, e, he⟩ := exists_contents (ofText text true)
  have hskip := ahead_ignoringComments #[] none (s := ofText text true) rfl false false
  have hcontents : (ofText text false).upcoming.map (·.content) =
      (withoutComments tokens).map .ok ++ e.toList.map .error := by
    have hahead : (ofText text false).upcoming = skipComments false ((ofText text true).ahead false) :=
      hskip
    rw [hahead]
    exact map_content_skipComments he
  rw [stream_eq he] at h
  obtain ⟨rfl, rfl⟩ := Prod.mk.inj h
  rw [stream_eq hcontents]
  simp [ofText]

theorem readAll_eq_ok_of_stream {text : List Char} {keepComments : Bool} {tokens : Array Token}
    (h : (ofText text keepComments).stream = (tokens, none)) :
    (ofText text keepComments).readAll = .ok tokens := by
  obtain ⟨found, e, he⟩ := exists_contents (ofText text keepComments)
  rw [stream_eq he] at h
  obtain ⟨rfl, rfl⟩ := Prod.mk.inj h
  rw [readAll_eq_ok, he]
  simp [ofText]

end Lexer

/-- Comments do not matter to the other tokens. A run that passes over them gives the tokens that are no
comments of a run that keeps them, and ends in the same error or in none. If it is none, the text with a
space for every character of a comment has these tokens, too. -/
theorem tokens_ignoringComments {source : String} {kept : Array Token} {fault : Option LexicalError}
    (h : (Lexer.ofSource source true).stream = (kept, fault)) :
    (Lexer.ofSource source false).stream = ((withoutComments kept.toList).toArray, fault) ∧
      (fault = none → tokenize source = .ok (withoutComments kept.toList).toArray ∧
        tokenize (String.ofList (Text.blankText (inComment kept.toList) source.toList)) =
          .ok (withoutComments kept.toList).toArray) := by
  have hstream : (Lexer.ofSource source false).stream = ((withoutComments kept.toList).toArray, fault) :=
    Lexer.stream_ignoringComments h
  refine ⟨hstream, ?_⟩
  rintro rfl
  have hread : (Lexer.ofSource source true).readAll = .ok kept := Lexer.readAll_eq_ok_of_stream h
  refine ⟨Lexer.readAll_eq_ok_of_stream hstream, ?_⟩
  have hblank := upcoming_blankComments hread
  rw [blankComments, hread] at hblank
  rw [tokenize_eq_ok, hblank, map_content_marked (length_lineBreaks 0 _)]

theorem tokens_ignoringComments_mixed : ∃ kept others : Array Token,
    (Lexer.ofSource "a /* \n\n*/ b # c" true).stream = (kept, none) ∧
      others = #[⟨.identifier "a", .onLine 1 0 0⟩, ⟨.identifier "b", .onLine 3 3 3⟩] ∧
      (Lexer.ofSource "a /* \n\n*/ b # c" false).stream = (others, none) ∧
      tokenize "a /* \n\n*/ b # c" = .ok others ∧ tokenize "a    \n\n   b    " = .ok others := by
  have hkept : (Lexer.ofSource "a /* \n\n*/ b # c" true).stream =
      (#[⟨.identifier "a", .onLine 1 0 0⟩, ⟨.blockComment, ⟨⟨1, 2⟩, ⟨3, 1⟩⟩⟩, ⟨.identifier "b", .onLine 3 3 3⟩,
        ⟨.lineComment, .onLine 3 5 7⟩], none) := by decide +kernel
  obtain ⟨hstream, hnone⟩ := tokens_ignoringComments hkept
  obtain ⟨htokens, hblanked⟩ := hnone rfl
  exact ⟨_, _, hkept, rfl, hstream, htokens, hblanked⟩

end Linewise
