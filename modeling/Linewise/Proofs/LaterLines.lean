import Linewise.Proofs.ErrorPlaces
import Linewise.Proofs.FurtherLines
import Linewise.Proofs.Lines
import Linewise.Proofs.Parser.ProgramRejectionCompleteness

namespace Linewise

open Upcoming

namespace Text

theorem exists_lines_append {source : List Char} (h : source.getLast? ≠ some '\r') (rest : List Char) :
    ∃ more, lines (source ++ '\n' :: rest) = lines source ++ more := by
  by_cases hn : '\n' ∈ source
  · obtain ⟨a, b, rfl, ha⟩ := List.eq_append_cons_of_mem hn
    have hb : b.getLast? ≠ some '\r' := by
      intro hb
      obtain ⟨body, rfl⟩ := List.getLast?_eq_some_iff.1 hb
      refine h ?_
      rw [← List.cons_append, ← List.append_assoc, List.getLast?_concat]
    have hlt : b.length < (a ++ '\n' :: b).length := by
      rw [List.length_append, List.length_cons]
      omega
    obtain ⟨more, hmore⟩ := exists_lines_append hb rest
    have hfront (b : List Char) : lines (a ++ '\n' :: b) = dropTerminator (a ++ ['\n']) :: lines b := by
      rw [lines, pieces_append_newline ha, List.map_cons, lines]
    rw [List.append_assoc, List.cons_append, hfront, hfront, hmore]
    exact ⟨more, rfl⟩
  · by_cases hne : source = []
    · subst hne
      exact ⟨_, rfl⟩
    · rw [lines_of_no_newline hn hne, lines_append_newline hn h]
      exact ⟨_, rfl⟩
termination_by source.length

end Text

namespace Lexer

section

variable (more : List (List Char))

def withMore (s : Lexer) : Lexer := { s with pending := s.pending ++ more }

def withMoreResult : EStateM.Result LexicalError Lexer Token → EStateM.Result LexicalError Lexer Token
  | .ok t s => .ok t (s.withMore more)
  | .error e s => .error e (s.withMore more)

theorem lexeme_withMore (x : Char) (s : Lexer) :
    lexeme x (s.withMore more) = withMoreResult more (lexeme x s) := by
  simp only [lexeme, withMore]
  cases (Lexeme.read x s.cursor).outcome <;> rfl

theorem commentEnd?_append {ls : List (List Char)} {e : Lexeme.CommentEnd}
    (h : Lexeme.commentEnd? ls = some e) :
    Lexeme.commentEnd? (ls ++ more) = some { e with pending := e.pending ++ more } := by
  induction ls generalizing e with
  | nil => cases h
  | cons line ls ih =>
    rw [Lexeme.commentEnd?] at h
    rw [List.cons_append, Lexeme.commentEnd?]
    cases hn : Lexeme.commentLength? false line with
    | some n =>
      rw [hn] at h
      cases h
      rfl
    | none =>
      rw [hn] at h
      obtain ⟨e, he, rfl⟩ := Option.map_eq_some_iff.1 h
      simp only [ih he, Option.map_some]

def Closed : EStateM.Result LexicalError Lexer Token → Prop
  | .ok _ _ => True
  | .error e _ => e.cause ≠ .unterminatedComment

theorem blockComment_withMore {start : Nat} {s : Lexer} (h : Closed (blockComment start s)) :
    blockComment start (s.withMore more) = withMoreResult more (blockComment start s) := by
  simp only [blockComment, withMore] at h ⊢
  cases hn : Lexeme.commentLength? false s.cursor.rest with
  | some n => rfl
  | none =>
    rw [hn] at h
    cases he : Lexeme.commentEnd? s.pending with
    | some e =>
      rw [commentEnd?_append more he]
      rfl
    | none =>
      rw [he] at h
      exact absurd rfl h

theorem scan_withMore {x : Char} {s : Lexer} (h : Closed (scan x s)) :
    scan x (s.withMore more) = withMoreResult more (scan x s) := by
  unfold scan at h ⊢
  by_cases hx : x = '/'
  · rw [if_pos hx] at h ⊢
    rw [if_pos hx]
    simp only [withMore]
    rcases hc : s.cursor.nextIs '*' with ⟨_ | _, c⟩
    · exact lexeme_withMore more x { s with cursor := c }
    · rw [hc] at h
      exact blockComment_withMore more (s := { s with cursor := c }) h
  · rw [if_neg hx] at h ⊢
    rw [if_neg hx]
    exact lexeme_withMore more x s

def Finding.Closed : Finding → Prop
  | failure e _ => e.cause ≠ .unterminatedComment
  | _ => True

theorem find_withMore {s : Lexer} {f : Finding} (h : s.find = f) (hf : f.Closed) :
    (s.withMore more).find = f.map (·.withMore more) := by
  subst h
  obtain ⟨pending, cursor, lineNumber, tokens, held, keepComments⟩ := s
  have hs (x : Char) (c : Cursor) :=
    scan_withMore more (x := x) (s := ⟨pending, c, lineNumber, tokens, held, keepComments⟩)
  simp only [find, withMore] at hf hs ⊢
  rcases hc : nextChar? true cursor with ⟨_ | x, c⟩
  · rfl
  · simp only [hc] at hf
    have hclosed : Closed (scan x ⟨pending, c, lineNumber, tokens, held, keepComments⟩) := by
      cases hscan : scan x ⟨pending, c, lineNumber, tokens, held, keepComments⟩ with
      | ok => trivial
      | error e t =>
        rw [hscan] at hf
        exact hf
    simp only [hs x c hclosed]
    cases scan x ⟨pending, c, lineNumber, tokens, held, keepComments⟩ with
    | error e t => rfl
    | ok token t =>
      cases keepComments <;> cases hk : token.kind.isComment <;>
        simp [withMoreResult, withMore, Finding.map, hk]

theorem advanceLine_withMore {s t : Lexer} (h : advanceLine false s = (true, t)) :
    advanceLine false (s.withMore more) = (true, t.withMore more) := by
  unfold advanceLine withMore at *
  by_cases hf : (!false && !s.cursor.rest.isEmpty) = true
  · rw [if_pos hf] at h ⊢
    cases h
    rfl
  · rw [if_neg hf] at h ⊢
    cases hd : s.pending.dropWhile (·.all Text.isBlank) with
    | nil =>
      rw [hd] at h
      cases h
    | cons line pending =>
      rw [hd] at h
      cases h
      have happend : (s.pending ++ more).dropWhile (·.all Text.isBlank) = line :: (pending ++ more) := by
        rw [List.dropWhile_append, hd]
        rfl
      simp only [happend, List.length_append, Nat.add_sub_add_right]

end

variable {more : List (List Char)}

theorem ahead_withMore (later : Bool) (s : Lexer) : ∃ rest, EndsLine rest ∧
    Extends rest (ahead later s) (ahead later (s.withMore more)) := by
  fun_induction ahead later s with
  | case1 later s t hf u ha ih =>
    rw [ahead_eq later (s.withMore more), find_withMore more hf trivial]
    simp only [Finding.map, advanceLine_withMore more ha]
    exact ih
  | case2 later s t hf u ha =>
    refine ⟨_, ?_, .ended⟩
    rw [ahead_eq, find_withMore more hf trivial]
    simp only [Finding.map]
    split
    · exact fun i ↦ onLaterLine_of_head_ahead rfl
    · exact fun i hi ↦ absurd hi (Option.not_mem_none i)
  | case3 later s e t hf =>
    refine ⟨[], fun i hi ↦ absurd hi (Option.not_mem_none i),
      .failed (fun hl i ↦ onLaterLine_of_head_ahead hl) fun he ↦ ?_⟩
    rw [ahead_eq, find_withMore more hf he]
    rfl
  | case4 later s t hf ih =>
    rw [ahead_eq later (s.withMore more), find_withMore more hf trivial]
    exact ih
  | case5 later s token t hf ih =>
    obtain ⟨rest, hr, ih⟩ := ih
    rw [ahead_eq later (s.withMore more), find_withMore more hf trivial]
    exact ⟨rest, hr, .token ih⟩

theorem upcoming_extends {source : List Char} (h : source.getLast? ≠ some '\r') (rest : List Char) :
    ∃ more, EndsLine more ∧ Extends more (ofText source false).upcoming
      (ofText (source ++ '\n' :: rest) false).upcoming := by
  obtain ⟨more, hmore⟩ := Text.exists_lines_append h rest
  have hofText : ofText (source ++ '\n' :: rest) false = (ofText source false).withMore more := by
    rw [ofText, hmore]
    rfl
  rw [hofText, upcoming_of_not_held rfl, upcoming_of_not_held rfl]
  exact ahead_withMore false _

end Lexer

/-- The error does not depend on how the text goes on. -/
structure SyntaxError.Settled (e : SyntaxError) : Prop where
  commentClosed : e.code ≠ .L0008
  terminated : e.code ≠ .P0002
  assignable : e.code ≠ .P0006
  shallow : e.code ≠ .P0007

variable {limit room : Nat} {b : Bool} {rest xs ys zs : List Upcoming} {e : SyntaxError}

namespace Upcoming

theorem Halts.extend {absence : Option GrammarError} {wrong : Token → Option GrammarError}
    (h : Halts b absence wrong xs e) (hx : Extends rest xs ys) (hr : EndsLine rest) (he : e.Settled)
    (hne : b = true → xs ≠ []) : Halts b absence wrong ys e := by
  cases h with
  | lexical reach =>
    cases hx with
    | failed _ hsame =>
      rw [hsame fun hc ↦ he.commentClosed (by rw [SyntaxError.code, hc]; rfl)]
      exact .lexical reach
  | absent hnone hg => exact .absent (hx.not_inReach hr hnone hne) hg
  | token hn hg =>
    obtain ⟨_, hn, -⟩ := hn.extend hx
    exact .token hn hg

theorem HaltsLexically.ne_nil (h : HaltsLexically b xs e) : xs ≠ [] := by
  cases h with
  | lexical => exact List.cons_ne_nil _ _
  | absent _ hg => cases hg
  | token hn => exact hn.ne_nil

theorem HaltsIn.ne_nil {construct : String} {wrong : Token → Option GrammarError}
    (h : HaltsIn construct wrong xs e) (he : e.Settled) : xs ≠ [] := by
  cases h with
  | lexical => exact List.cons_ne_nil _ _
  | absent _ hg =>
    cases hg
    exact absurd rfl he.terminated
  | token hn => exact hn.ne_nil

/-- Where an operand is missing between brackets, the text ends. -/
theorem Halts.operand_ne_nil {last : Option Token} {wrong : Token → Option GrammarError}
    (h : Halts b (some (.noOperand b last)) wrong xs e) (he : e.Settled) (hb : b = true) : xs ≠ [] := by
  subst hb
  exact HaltsIn.ne_nil h he

end Upcoming

theorem ReadsWithin.extend {phrase : Phrase} (h : ReadsWithin room b phrase xs ys)
    (hx : Extends rest xs zs) (hr : EndsLine rest) (hy : b = true → phrase.EndsOpen → ys ≠ []) :
    ∃ ws, ReadsWithin room b phrase zs ws ∧ Extends rest ys ws := by
  obtain ⟨ws, hreads, hx⟩ := h.1.extend hx hr hy
  exact ⟨ws, ⟨hreads, h.2⟩, hx⟩

/-- Between brackets an error that does not depend on how the text goes on comes before its end. -/
theorem Rejects.ne_nil {goal : Goal} (h : Rejects limit room b goal xs e) (he : e.Settled)
    (hb : b = true) : xs ≠ [] := by
  induction h with
  | operand h => exact h.operand_ne_nil he hb
  | dereference hn | group hn | groupEnd hn | unary hn | call hn | callArguments hn | index hn
  | indexEnd hn | rightOperand hn | moreOperators hn => exact hn.ne_nil
  | suffixed hp _ ih | moreSuffixes hp _ ih => exact hp.1.ne_nil (ih he hb)
  | suffixes h | operators h => exact HaltsLexically.ne_nil h
  | argument _ ih => exact ih he rfl
  | argumentEnd ha h => exact ha.1.ne_nil (HaltsIn.ne_nil h he)
  | moreArguments ha hn => exact ha.1.ne_nil hn.ne_nil
  | target => exact absurd rfl he.assignable
  | tooDeep => exact absurd rfl he.shallow
  | left _ ih => exact ih he hb
  | expression ho _ ih => exact ho.1.ne_nil (ih he hb)

theorem Rejects.extend {goal : Goal} (h : Rejects limit room b goal xs e) (hx : Extends rest xs ys)
    (hr : EndsLine rest) (he : e.Settled) : Rejects limit room b goal ys e := by
  induction h generalizing ys with
  | operand h => exact .operand (h.extend hx hr he (h.operand_ne_nil he))
  | dereference hn hk h =>
    obtain ⟨_, hn, hx⟩ := hn.extend hx
    exact .dereference hn hk (h.extend hx hr he (h.operand_ne_nil he))
  | group hn hk _ ih =>
    obtain ⟨_, hn, hx⟩ := hn.extend hx
    exact .group hn hk (ih hx he)
  | groupEnd hn hk hi h =>
    obtain ⟨_, hn, hx⟩ := hn.extend hx
    have hne := HaltsIn.ne_nil h he
    obtain ⟨_, hi, hx⟩ := hi.extend hx hr fun _ _ ↦ hne
    exact .groupEnd hn hk hi (h.extend hx hr he fun _ ↦ hne)
  | unary hn hk _ ih =>
    obtain ⟨_, hn, hx⟩ := hn.extend hx
    exact .unary hn hk (ih hx he)
  | suffixed hp _ ih =>
    obtain ⟨_, hp, hx⟩ := hp.extend hx hr fun _ ↦ False.elim
    exact .suffixed hp (ih hx he)
  | suffixes h => exact .suffixes (h.extend hx hr he fun _ ↦ HaltsLexically.ne_nil h)
  | call hn hk h =>
    obtain ⟨_, hn, hx⟩ := hn.extend hx
    exact .call hn hk (h.extend hx hr he fun _ ↦ HaltsLexically.ne_nil h)
  | @callArguments _ _ _ _ _ ys' _ hn hk hstop ha ih =>
    obtain ⟨_, hn, hx⟩ := hn.extend hx
    have hne : true = true → ys' ≠ [] := fun _ hnil ↦ ha.ne_nil he rfl (by rw [hnil]; rfl)
    exact .callArguments hn hk (hstop.extend hx hr hne) (ih (hx.looked hne) he)
  | index hn hk _ ih =>
    obtain ⟨_, hn, hx⟩ := hn.extend hx
    exact .index hn hk (ih hx he)
  | indexEnd hn hk hi h =>
    obtain ⟨_, hn, hx⟩ := hn.extend hx
    have hne := HaltsIn.ne_nil h he
    obtain ⟨_, hi, hx⟩ := hi.extend hx hr fun _ _ ↦ hne
    exact .indexEnd hn hk hi (h.extend hx hr he fun _ ↦ hne)
  | moreSuffixes hs _ ih =>
    obtain ⟨_, hs, hx⟩ := hs.extend hx hr fun _ ↦ False.elim
    exact .moreSuffixes hs (ih hx he)
  | argument _ ih => exact .argument (ih hx he)
  | argumentEnd ha h =>
    have hne := HaltsIn.ne_nil h he
    obtain ⟨_, ha, hx⟩ := ha.extend hx hr fun _ _ ↦ hne
    exact .argumentEnd ha (h.extend hx hr he fun _ ↦ hne)
  | moreArguments ha hn hk _ ih =>
    obtain ⟨_, ha, hx⟩ := ha.extend hx hr fun _ _ ↦ hn.ne_nil
    obtain ⟨_, hn, hx⟩ := hn.extend hx
    exact .moreArguments ha hn hk (ih hx he)
  | operators h => exact .operators (h.extend hx hr he fun _ ↦ HaltsLexically.ne_nil h)
  | rightOperand hn hp hle _ ih =>
    obtain ⟨_, hn, hx⟩ := hn.extend hx
    exact .rightOperand hn hp hle (ih hx he)
  | target => exact absurd rfl he.assignable
  | moreOperators hn hp hle hi hj h ih =>
    obtain ⟨_, hn, hx⟩ := hn.extend hx
    obtain ⟨_, hi, hx⟩ := hi.extend hx hr fun hb _ ↦ h.ne_nil he hb
    exact .moreOperators hn hp hle hi hj (ih hx he)
  | tooDeep => exact .tooDeep
  | left _ ih => exact .left (ih hx he)
  | expression ho h ih =>
    obtain ⟨_, ho, hx⟩ := ho.extend hx hr fun hb _ ↦ h.ne_nil he hb
    exact .expression ho (ih hx he)

theorem RejectsStatement.extend {last : Option Token} (h : RejectsStatement limit last xs e)
    (hx : Extends rest xs ys) (hr : EndsLine rest) (he : e.Settled) :
    RejectsStatement limit last ys e := by
  cases h with
  | expression h => exact .expression (h.extend hx hr he)
  | statementEnd hi h =>
    obtain ⟨_, hi, hx⟩ := hi.extend hx hr nofun
    exact .statementEnd hi (h.extend hx hr he nofun)

theorem RejectsType.extend {mark : TokenKind} {construct what : String}
    (h : RejectsType mark construct what xs e) (hx : Extends rest xs ys) (hr : EndsLine rest)
    (he : e.Settled) : RejectsType mark construct what ys e := by
  cases h with
  | mark h => exact .mark (h.extend hx hr he fun _ ↦ HaltsLexically.ne_nil h)
  | name hn hk h =>
    obtain ⟨_, hn, hx⟩ := hn.extend hx
    exact .name hn hk (h.extend hx hr he fun _ ↦ HaltsIn.ne_nil h he)

theorem RejectsParameters.ne_nil {slot : Parser.Action.ParameterSlot} (h : RejectsParameters slot xs e)
    (he : e.Settled) : xs ≠ [] := by
  cases h with
  | slot h => exact HaltsIn.ne_nil h he
  | comma hn => exact hn.ne_nil
  | type _ hn | parameter _ hn => exact hn.ne_nil

theorem RejectsParameters.extend {slot : Parser.Action.ParameterSlot} (h : RejectsParameters slot xs e)
    (hx : Extends rest xs ys) (hr : EndsLine rest) (he : e.Settled) : RejectsParameters slot ys e := by
  induction h generalizing ys with
  | slot h => exact .slot (h.extend hx hr he fun _ ↦ HaltsIn.ne_nil h he)
  | comma hn hk _ ih =>
    obtain ⟨_, hn, hx⟩ := hn.extend hx
    exact .comma hn hk (ih hx he)
  | type hslot hn h =>
    obtain ⟨_, hn, hx⟩ := hn.extend hx
    exact .type hslot hn (h.extend hx hr he)
  | parameter hslot hn ht h ih =>
    obtain ⟨_, hn, hx⟩ := hn.extend hx
    obtain ⟨_, ht, hx⟩ := ht.extend hx hr (h.ne_nil he)
    exact .parameter hslot hn ht (ih hx he)

theorem RejectsHeader.extend (h : RejectsHeader xs e) (hx : Extends rest xs ys) (hr : EndsLine rest)
    (he : e.Settled) : RejectsHeader ys e := by
  cases h with
  | name h => exact .name (h.extend hx hr he fun _ ↦ HaltsIn.ne_nil h he)
  | openParen hn h =>
    obtain ⟨_, hn, hx⟩ := hn.extend hx
    exact .openParen hn (h.extend hx hr he fun _ ↦ HaltsIn.ne_nil h he)
  | parameters hn hn' hk h =>
    obtain ⟨_, hn, hx⟩ := hn.extend hx
    obtain ⟨_, hn', hx⟩ := hn'.extend hx
    exact .parameters hn hn' hk (h.extend hx hr he)
  | returnType hn hn' hk hp h =>
    obtain ⟨_, hn, hx⟩ := hn.extend hx
    obtain ⟨_, hn', hx⟩ := hn'.extend hx
    obtain ⟨_, hp, hx⟩ := hp.extend hx hr
    exact .returnType hn hn' hk hp (h.extend hx hr he)
  | bodyOpen hn hn' hk hp ht h =>
    have hne := HaltsIn.ne_nil h he
    obtain ⟨_, hn, hx⟩ := hn.extend hx
    obtain ⟨_, hn', hx⟩ := hn'.extend hx
    obtain ⟨_, hp, hx⟩ := hp.extend hx hr
    obtain ⟨_, ht, hx⟩ := ht.extend hx hr hne
    exact .bodyOpen hn hn' hk hp ht (h.extend hx hr he fun _ ↦ hne)

theorem RejectsConstruct.extend (h : RejectsConstruct limit xs e) (hx : Extends rest xs ys)
    (hr : EndsLine rest) (he : e.Settled) : RejectsConstruct limit ys e := by
  cases h with
  | start h =>
    refine .start (h.extend hx hr he fun _ ↦ ?_)
    cases h with
    | lexical => exact List.cons_ne_nil _ _
    | absent _ hg => cases hg
    | token hn => exact hn.ne_nil
  | word hn hk h =>
    obtain ⟨_, hn, hx⟩ := hn.extend hx
    exact .word hn hk (h.extend hx hr he nofun)
  | returned hn hk h =>
    obtain ⟨_, hn, hx⟩ := hn.extend hx
    exact .returned hn hk (h.extend hx hr he nofun)
  | returnValue hn hk hn' hk' h =>
    obtain ⟨_, hn, hx⟩ := hn.extend hx
    obtain ⟨_, hn', -⟩ := hn'.extend hx
    exact .returnValue hn hk hn' hk' (h.extend hx hr he)
  | function hn hk h =>
    obtain ⟨_, hn, hx⟩ := hn.extend hx
    exact .function hn hk (h.extend hx hr he)
  | expression hn hk h =>
    obtain ⟨_, hn, hx⟩ := hn.extend hx
    exact .expression hn hk (h.extend (.token hx) hr he)

theorem RejectsProgram.extend (h : RejectsProgram limit xs e) (hx : Extends rest xs ys)
    (hr : EndsLine rest) (he : e.Settled) : RejectsProgram limit ys e := by
  induction h generalizing ys with
  | here h => exact .here (h.extend hx hr he)
  | later hc hfits _ ih =>
    obtain ⟨_, hc, hx⟩ := hc.extend hx hr
    exact .later hc hfits (ih hx he)

/-- Later lines never change an error that has been found. -/
theorem parse_error_append {source : String} {e : SyntaxError}
    (h : parse source = .error (.rejected e)) (hsource : source.toList.getLast? ≠ some '\r')
    (hlocated : e.span? ≠ none) (hcode : e.code ≠ .L0008 ∧ e.code ≠ .P0006 ∧ e.code ≠ .P0007)
    (rest : String) : parse (source ++ "\n" ++ rest) = .error (.rejected e) := by
  have hrejects := parse_rejected_iff.1 h
  have hunlocated := (hrejects.located (by decide) (lieIn_ofText source.toList false)).unlocated
  have he : e.Settled := ⟨hcode.1, mt hunlocated.2 hlocated, hcode.2.1, hcode.2.2⟩
  obtain ⟨more, hmore, hx⟩ := Lexer.upcoming_extends hsource rest.toList
  have htext : (source ++ "\n" ++ rest).toList = source.toList ++ '\n' :: rest.toList := by simp
  rw [← htext] at hx
  exact parse_rejected_iff.2 (hrejects.extend hx hmore he)

theorem parse_error_append_call :
    let e : SyntaxError := .grammar ⟨.expected "',' or ')'" "integer '3'", some (.onLine 2 2 2)⟩
    parse "f(1,\n2 3" = .error (.rejected e) ∧ parse ("f(1,\n2 3" ++ "\n" ++ ", 4)") = .error (.rejected e) := by
  intro e
  have herror : (parse "f(1,\n2 3").map (fun _ ↦ ()) = .error (.rejected e) := by decide +kernel
  cases h : parse "f(1,\n2 3" with
  | ok program =>
    rw [h] at herror
    cases herror
  | error f =>
    rw [h] at herror
    cases herror
    exact ⟨rfl, parse_error_append h (by decide) (by decide) (by decide) ", 4)"⟩

end Linewise
