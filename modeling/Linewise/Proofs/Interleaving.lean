import Linewise.Proofs.Bookmark
import Linewise.Proofs.Lossless
import Linewise.Proofs.Parser.Compositional
import Linewise.Proofs.Parser.ProgramCongruence
import Linewise.Proofs.Parser.RejectionSoundness

namespace Linewise

namespace Lexer

/-- Reading all the tokens ends in the error that lies ahead behind them. -/
theorem readAll_eq_error {s : Lexer} {e : LexicalError} {tokens : List Token}
    (h : s.upcoming.map (·.content) = tokens.map .ok ++ [.error e]) : s.readAll = .error e := by
  rw [readAll_eq]
  generalize s.upcoming = items at h
  induction tokens generalizing items with
  | nil =>
    obtain ⟨i, rfl, hi⟩ := List.map_eq_singleton_iff.1 h
    rw [List.mapM_cons, hi]
    rfl
  | cons token tokens ih =>
    obtain ⟨i, items, rfl, hi, hmore⟩ := List.map_eq_cons_iff.1 h
    rw [List.mapM_cons, hi]
    have herror := ih items hmore
    cases hm : items.mapM Upcoming.content with
    | ok ts =>
      rw [hm] at herror
      cases herror
    | error e' =>
      rw [hm] at herror
      exact herror

end Lexer

namespace Parser

variable {α β : Type}

/-- The tokens read and those still to come are the same as before, or a lexical error has come right
after them. -/
inductive Conserves (p : Parser) : EStateM.Result (Failure SyntaxError) Parser α → Prop
  | ok (a : α) {q : Parser} : q.contents = p.contents → Conserves p (.ok a q)
  | lexical {e : LexicalError} {q : Parser} (tokens : List Token) :
      p.contents = tokens.map .ok ++ [.error e] → Conserves p (.error (.rejected (.lexical e)) q)
  | grammar (e : GrammarError) {q : Parser} : q.contents = p.contents →
      Conserves p (.error (.rejected (.grammar e)) q)
  | internal (e : InternalError) {q : Parser} : q.contents = p.contents →
      Conserves p (.error (.internal e) q)

theorem Conserves.of_contents {p p' : Parser} {r : EStateM.Result (Failure SyntaxError) Parser α}
    (h : Conserves p' r) (hp : p'.contents = p.contents) : Conserves p r := by
  cases h with
  | ok a hq => exact .ok a (hq.trans hp)
  | lexical tokens hq => exact .lexical tokens (hp.symm.trans hq)
  | grammar e hq => exact .grammar e (hq.trans hp)
  | internal e hq => exact .internal e (hq.trans hp)

namespace Action

def Conservative (x : Action α) : Prop := ∀ p, Conserves p (x p)

namespace Conservative

variable {x : Action α} {k : α → Action β}

theorem bind (hx : Conservative x) (hk : ∀ a, Conservative (k a)) : Conservative (x >>= k) := by
  intro p
  have hp := hx p
  simp only [Bind.bind, EStateM.bind]
  generalize x p = r at hp
  cases hp with
  | ok a hq => exact (hk a _).of_contents hq
  | lexical tokens hq => exact .lexical tokens hq
  | grammar e hq => exact .grammar e hq
  | internal e hq => exact .internal e hq

theorem advance (b : Bool) : Conservative (advance b) := by
  intro p
  cases h : Action.advance b p with
  | ok t q =>
    cases t with
    | none => exact .ok _ (advance_none h).1.contents
    | some t => exact .ok _ (advance_some h).1.contents
  | error f q =>
    have hd := p.lexer.readToken_delivers b
    rw [advance_eq] at h
    cases hr : p.lexer.readToken b with
    | ok found l => cases found <;> simp [hr] at h
    | error e l =>
      rw [hr] at hd h
      cases h
      generalize hu : p.lexer.upcoming = items at hd
      cases hd with
      | failure =>
        refine .lexical p.tokens.toList ?_
        rw [contents, upcoming, hu]
        rfl

theorem unread : Conservative unread := by
  intro p
  rw [Action.unread]
  split
  · next l hl =>
    obtain ⟨hheld, tokens, token, htokens, rfl⟩ := Lexer.unreadToken_eq_ok hl
    refine .ok () ?_
    rw [contents, contents, upcoming, upcoming, Lexer.upcoming_withTokens_some,
      Lexer.upcoming_of_not_held hheld, Parser.tokens, Parser.tokens, htokens]
    simp [Lexer.withTokens, Upcoming.givenBack]
  · next e he => exact .internal e rfl

theorem enclosed (hx : Conservative x) : Conservative (enclosed x) :=
  bind (fun _ ↦ .ok () rfl) fun _ ↦ bind hx fun a ↦ bind (fun _ ↦ .ok () rfl) fun _ _ ↦ .ok a rfl

theorem nested (hx : Conservative x) : Conservative (nested x) := by
  intro p
  have hp := hx { p with nestingDepth := p.nestingDepth + 1 }
  rw [Action.nested]
  split
  · exact .grammar _ rfl
  · generalize x { p with nestingDepth := p.nestingDepth + 1 } = r at hp
    cases hp with
    | ok a hq => exact .ok a hq
    | lexical tokens hq => exact .lexical tokens hq
    | grammar e hq => exact .grammar e hq
    | internal e hq => exact .internal e hq

theorem compositional : Compositional Conservative where
  pure a _ := .ok a rfl
  outOfFuel _ := .internal .outOfFuel rfl
  failAtLast _ _ := .grammar _ rfl
  fail _ _ _ := .grammar _ rfl
  bind := bind
  continuesAcrossLines _ := .ok _ rfl
  advance := advance
  unread := unread
  enclosed := enclosed
  nested := nested

end Conservative

theorem next_conserves (fuel : Nat) (p : Parser) : Conserves (begun p) (next fuel p) := by
  have h := Conservative.compositional.readConstruct fuel (begun p)
  rw [next_eq]
  generalize readConstruct fuel (begun p) = r at h
  cases h with
  | ok c hq =>
    cases c with
    | none => exact .ok false hq
    | some c => exact .ok true hq
  | lexical tokens hq => exact .lexical tokens hq
  | grammar e hq => exact .grammar e hq
  | internal e hq => exact .internal e hq

theorem contents_begun (p : Parser) : (begun p).contents = p.upcoming.map (·.content) := by
  rw [contents, upcoming_begun]
  rfl

/-- The tokens that are pulled from the text while it is parsed, up to the end or to the first error. -/
def pulled : Nat → Parser → List Token
  | 0, _ => []
  | fuel + 1, p => match next (fuel + 1) p with
    | .ok true q => q.tokens.toList ++ pulled fuel { q with result := none }
    | .ok false q | .error _ q => q.tokens.toList ++ q.lexer.held.toList

theorem constructs_eq_error {fuel : Nat} {p q : Parser} {f : Failure SyntaxError}
    (h : constructs (fuel + 1) p = .error f q) :
    next (fuel + 1) p = .error f q ∨
      ∃ r, next (fuel + 1) p = .ok true r ∧ constructs fuel { r with result := none } = .error f q := by
  rcases bind_eq_error.1 h with h | ⟨found, r, hr, h⟩
  · exact .inl h
  · cases found with
    | false => cases h
    | true =>
      rcases bind_eq_error.1 h with h | ⟨result, r', hr', h⟩
      · cases h
      · cases hr'
        rcases bind_eq_error.1 h with h | ⟨_, _, -, h⟩
        · exact .inr ⟨r, hr, h⟩
        · cases h

/-- What was still to come before a construct is its tokens and what is still to come after it. -/
theorem upcoming_of_next {fuel : Nat} {p q : Parser} (h : next fuel p = .ok true q) :
    p.upcoming.map (·.content) = q.tokens.toList.map .ok ++ q.upcoming.map (·.content) := by
  have hn := next_conserves fuel p
  rw [h] at hn
  cases hn with
  | ok _ hq => rw [← contents_begun, ← hq, contents]

/-- A lexical error comes right after all the tokens. -/
theorem upcoming_of_lexical {fuel : Nat} {p q : Parser} {e : LexicalError}
    (h : constructs fuel p = .error (.rejected (.lexical e)) q) :
    ∃ tokens : List Token, p.upcoming.map (·.content) = tokens.map .ok ++ [.error e] := by
  induction fuel generalizing p with
  | zero => cases h
  | succ fuel ih =>
    rcases constructs_eq_error h with h | ⟨r, hr, h⟩
    · have hn := next_conserves (fuel + 1) p
      rw [h] at hn
      cases hn with
      | lexical tokens hp => exact ⟨tokens, (contents_begun p).symm.trans hp⟩
    · obtain ⟨tokens, htokens⟩ := ih h
      refine ⟨r.tokens.toList ++ tokens, ?_⟩
      rw [upcoming_of_next hr, List.map_append, List.append_assoc, ← htokens]
      rfl

/-- Up to an error in the grammar, the tokens that are pulled are the first that lie ahead. -/
theorem upcoming_of_grammar {fuel : Nat} {p q : Parser} {e : GrammarError}
    (h : constructs fuel p = .error (.rejected (.grammar e)) q) :
    ∃ rest, p.upcoming.map (·.content) = (pulled fuel p).map .ok ++ rest := by
  induction fuel generalizing p with
  | zero => cases h
  | succ fuel ih =>
    rcases constructs_eq_error h with h | ⟨r, hr, h⟩
    · have hn := next_conserves (fuel + 1) p
      rw [h] at hn
      cases hn with
      | grammar _ hq =>
        refine ⟨(q.lexer.ahead false).map (·.content), ?_⟩
        rw [← contents_begun, ← hq, contents, upcoming, Lexer.upcoming, pulled, h]
        simp [Upcoming.givenBack]
    · obtain ⟨rest, hrest⟩ := ih h
      refine ⟨rest, ?_⟩
      rw [upcoming_of_next hr, pulled, hr, List.map_append, List.append_assoc, ← hrest]
      rfl

end Action

def pulled (p : Parser) : List Token := Action.pulled p.fuel p

end Parser

theorem prefix_of_map_ok {tokens pulled : List Token} {e : Option LexicalError}
    {rest : List (Except LexicalError Token)}
    (h : tokens.map .ok ++ e.toList.map .error = pulled.map .ok ++ rest) : pulled <+: tokens := by
  induction pulled generalizing tokens with
  | nil => exact List.nil_prefix
  | cons token pulled ih =>
    cases tokens with
    | nil => cases e <;> cases h
    | cons token' tokens =>
      obtain ⟨htoken, hmore⟩ := List.cons.inj h
      cases htoken
      exact (List.cons_prefix_cons).2 ⟨rfl, ih hmore⟩

theorem tokenize_of_parse_lexical {source : String} {e : LexicalError}
    (h : parse source = .error (.rejected (.lexical e))) : tokenize source = .error e := by
  unfold parse Parser.program at h
  split at h
  · cases h
  · next hc =>
    cases h
    obtain ⟨tokens, htokens⟩ := Parser.Action.upcoming_of_lexical hc
    exact Lexer.readAll_eq_error htokens

theorem parse_of_tokenize_error {source : String} {e : LexicalError} (h : tokenize source = .error e) :
    parse source = .error (.rejected (.lexical e)) ∨
      ∃ g, parse source = .error (.rejected (.grammar g)) := by
  cases hp : parse source with
  | ok program =>
    obtain ⟨tokens, htokens, -⟩ := exists_covers_of_parse hp
    rw [h] at htokens
    cases htokens
  | error f =>
    cases f with
    | internal e' => exact absurd hp (Parser.program_ne_internal _ e')
    | rejected e' =>
      cases e' with
      | grammar g => exact .inr ⟨g, rfl⟩
      | lexical e' =>
        have he := tokenize_of_parse_lexical hp
        rw [h] at he
        cases he
        exact .inl rfl

theorem pulled_prefix_stream {source : String} {e : GrammarError}
    (h : parse source = .error (.rejected (.grammar e))) :
    (Parser.ofSource source).pulled <+: (Lexer.ofSource source false).stream.1.toList := by
  unfold parse Parser.program at h
  split at h
  · cases h
  · next hc =>
    cases h
    obtain ⟨rest, hrest⟩ := Parser.Action.upcoming_of_grammar hc
    obtain ⟨tokens, e', he⟩ := Lexer.exists_contents (Lexer.ofSource source false)
    rw [Lexer.stream_eq he]
    have hprefix := prefix_of_map_ok (he.symm.trans hrest)
    simpa [Parser.pulled, Lexer.ofSource, Lexer.ofText] using hprefix

theorem eq_error_of_map {ε α β : Type} {x : Except ε α} {f : α → β} {e : ε} (h : x.map f = .error e) :
    x = .error e := by
  cases x with
  | ok a => cases h
  | error e' =>
    cases h
    rfl

/-- Parsing token by token meets the same lexical error as reading all the tokens beforehand, unless an
error in the grammar comes first; and then the tokens that were pulled are the first ones of the text. -/
theorem parse_meets_tokens (source : String) :
    (∀ e, parse source = .error (.rejected (.lexical e)) → tokenize source = .error e) ∧
    (∀ e, tokenize source = .error e → parse source = .error (.rejected (.lexical e)) ∨
      ∃ g, parse source = .error (.rejected (.grammar g))) ∧
    (∀ g, parse source = .error (.rejected (.grammar g)) →
      (Parser.ofSource source).pulled <+: (Lexer.ofSource source false).stream.1.toList) :=
  ⟨fun _ h ↦ tokenize_of_parse_lexical h, fun _ h ↦ parse_of_tokenize_error h,
    fun _ h ↦ pulled_prefix_stream h⟩

theorem parse_meets_tokens_unclosed :
    tokenize "a\nf(b, 'cd" = .error ⟨.unterminatedChar, .onLine 2 5 5⟩ ∧
    (Parser.ofSource "a\nb )\n'cd").pulled =
      [⟨.identifier "a", .onLine 1 0 0⟩, ⟨.identifier "b", .onLine 2 0 0⟩, ⟨.closeParen, .onLine 2 2 2⟩] ∧
    (Parser.ofSource "a\nb )\n'cd").pulled <+:
      (Lexer.ofSource "a\nb )\n'cd" false).stream.1.toList := by
  refine ⟨(parse_meets_tokens _).1 _ (eq_error_of_map (f := fun _ ↦ ()) (by decide +kernel)), by decide +kernel, ?_⟩
  exact (parse_meets_tokens _).2.2 ⟨.expected "end of line" "')'", some (.onLine 2 2 2)⟩
    (eq_error_of_map (f := fun _ ↦ ()) (by decide +kernel))

end Linewise
