import Linewise.Proofs.NodeTokens
import Linewise.Proofs.Parser.ProgramCongruence

namespace Linewise

open Text

namespace Parser

variable {p : Parser} {fuel : Nat}

namespace Action

/-- What corresponds to itself can be done in every state with so little ahead. -/
theorem Corresponds.ne_internal {α : Type} {x : Action α} {f : α → α} {n m : Nat} (h : Corresponds id n m f x x)
    (hlt : p.upcoming.length < n) (q : Parser) (e : InternalError) : x p ≠ .error (.internal e) q :=
  (h _ _ _ ((Alike.refl p).mono hlt)).ne_internal e q

theorem expression_ne_internal (h : p.upcoming.length < fuel) (least : Nat) (q : Parser) (e : InternalError) :
    expression fuel least p ≠ .error (.internal e) q :=
  (expression_corresponds uniform_id fuel fuel fuel (Nat.le_min.2 ⟨Nat.le_refl _, Nat.le_refl _⟩) least).ne_internal
    h q e

theorem next_ne_internal (h : p.upcoming.length < fuel) (q : Parser) (e : InternalError) :
    next fuel p ≠ .error (.internal e) q :=
  (next_corresponds uniform_id (Nat.le_refl fuel) (Nat.le_refl fuel)).ne_internal h q e

theorem constructs_ne_internal (h : p.upcoming.length < fuel) (q : Parser) (e : InternalError) :
    constructs fuel p ≠ .error (.internal e) q :=
  (constructs_corresponds uniform_id (Nat.le_refl fuel) (Nat.le_refl fuel)).ne_internal h q e

end Action

theorem length_upcoming_ofSource_le (source : String) :
    (ofSource source).upcoming.length ≤ inkCount source.toList := by
  have hheld : (ofSource source).upcoming = (ofSource source).lexer.ahead false := Lexer.upcoming_of_not_held rfl
  rw [hheld]
  exact (Lexer.length_ahead_le_inkCount _ _).trans (Lexer.inkCount_ofText_le source.toList false)

end Parser

theorem ok_of_run' {ε σ α : Type} {x : EStateM ε σ α} {s : σ} {a : α} (h : EStateM.run' x s = some a) :
    ∃ t, x s = .ok a t := by
  unfold EStateM.run' EStateM.run at h
  cases hx : x s with
  | ok b t =>
    rw [hx] at h
    cases h
    exact ⟨t, rfl⟩
  | error e t =>
    rw [hx] at h
    cases h

open Linewise.Parser Linewise.Parser.Action

/-- Whatever the state, a token that was not given back takes a character off the text that is not blank; an
expression and a construct that are found consume a token, and so does a round of a loop that is followed by
another one. There is an end to calling for tokens and for constructs, and fuel for more than the tokens that lie
ahead does not run out. The nodes of an accepted text have tokens of their own, so there are no more of them than
tokens, and no more tokens than characters that are not blank. -/
theorem reading_progress :
    (∀ (acrossLines : Bool) (s t : Lexer), s.held = none → s.readToken acrossLines = .ok true t → s.ReadsInk t) ∧
    (∀ (fuel least : Nat) (p q : Parser) (e : Expr), expression fuel least p = .ok e q → p.Progresses q) ∧
    (∀ fuel : Nat, let expr := expression fuel
      Rounds (fun fuel' _ ↦ arguments expr fuel') (fun _ _ ↦ argumentRound expr) (fun _ ↦ ())
        (fun argument r ↦ (argument :: r.1, r.2)) ∧
      Rounds (suffixes expr) (suffixRound expr) id (fun _ e ↦ e) ∧
      ∀ least, Rounds (operators expr least) (fun _ ↦ operatorRound expr least) id (fun _ e ↦ e)) ∧
    Rounds parameters (fun _ ↦ parameterRound) Prod.fst (fun x r ↦ (x.2.toList ++ r.1, r.2)) ∧
    (∀ p q : Parser, p.next = .ok true q → (begun p).Progresses q) ∧
    (∀ s : Lexer, s.held = none → ∃ n ≤ inkCount s.unreadText, s.EndsAfter n) ∧
    (∀ p : Parser, ∃ n ≤ p.upcoming.length, p.EndsAfter n) ∧
    (∀ (fuel : Nat) (p q : Parser) (e : InternalError), p.upcoming.length < fuel →
      (∀ least, expression fuel least p ≠ .error (.internal e) q) ∧ next fuel p ≠ .error (.internal e) q ∧
        constructs fuel p ≠ .error (.internal e) q) ∧
    ∀ source : String, (∀ e, parse source ≠ .error (.internal e)) ∧
      (∃ n ≤ inkCount source.toList, (Lexer.ofSource source false).EndsAfter n) ∧
      (∃ n ≤ inkCount source.toList, (Parser.ofSource source).EndsAfter n) ∧
      ∀ program, parse source = .ok program → ∃ tokens, tokenize source = .ok tokens ∧
        (∀ n, n ∈ program.nodes ↔ program.HasNode n) ∧
        (program.nodes.map Construct.token).Sublist tokens.toList ∧ (program.nodes.map Construct.token).Nodup ∧
        program.nodes.length ≤ tokens.size ∧ tokens.size ≤ inkCount source.toList := by
  have hexpr (fuel : Nat) : Nested.Progresses (expression fuel) := fun _ _ _ _ ↦ expression_progresses
  refine ⟨fun _ _ _ ↦ Lexer.readsInk_of_readToken, fun _ _ _ _ _ ↦ expression_progresses, fun fuel ↦ ?_,
    parameters_rounds, fun p q ↦ next_progresses, Lexer.exists_endsAfter, Parser.exists_endsAfter,
    fun fuel p q e hfuel ↦ ?_, fun source ↦ ⟨(Parser.ofSource source).program_ne_internal, ?_, ?_, ?_⟩⟩
  · exact ⟨arguments_rounds (hexpr fuel), suffixes_rounds (hexpr fuel), operators_rounds (hexpr fuel)⟩
  · exact ⟨fun least ↦ expression_ne_internal hfuel least q e, Action.next_ne_internal hfuel q e,
      constructs_ne_internal hfuel q e⟩
  · obtain ⟨n, hn, hends⟩ := Lexer.exists_endsAfter (.ofSource source false) rfl
    exact ⟨n, hn.trans (Lexer.inkCount_ofText_le source.toList false), hends⟩
  · obtain ⟨n, hn, hends⟩ := (Parser.ofSource source).exists_endsAfter
    exact ⟨n, hn.trans (length_upcoming_ofSource_le source), hends⟩
  · intro program h
    obtain ⟨tokens, htokens, hsublist, hnodup⟩ := tokens_of_nodes h
    refine ⟨tokens, htokens, fun n ↦ Program.mem_nodes, hsublist, hnodup, ?_, size_le_inkCount htokens⟩
    have hlength := hsublist.length_le
    rwa [List.length_map, Array.length_toList] at hlength

/-- One round of each loop, inside brackets, and a whole text. -/
theorem reading_progress_call :
    let inBrackets (source : String) : Parser := { Parser.ofSource source with openDelimiters := 1 }
    (∃ t, (Lexer.ofSource "a, -b)" false).readToken true = .ok true t ∧
      (Lexer.ofSource "a, -b)" false).ReadsInk t) ∧
    (∃ e q, expression 9 0 (inBrackets "f(a,\n -b)") = .ok e q ∧ (inBrackets "f(a,\n -b)").Progresses q) ∧
    (∃ argument q, argumentRound (expression 9) (inBrackets "a, -b)") = .ok (.inr argument) q ∧
      (inBrackets "a, -b)").Progresses q) ∧
    (∃ e q, suffixRound (expression 9) 9 (.var ⟨⟨"f", .onLine 1 0 0⟩, none⟩) (inBrackets "[a](b)") = .ok (.inr e) q ∧
      (inBrackets "[a](b)").Progresses q) ∧
    (∃ e q, operatorRound (expression 9) 0 (.var ⟨⟨"x", .onLine 1 0 0⟩, none⟩) (inBrackets "= -b + c") =
      .ok (.inr e) q ∧ (inBrackets "= -b + c").Progresses q) ∧
    (∃ parameter q, parameterRound .nameOrClose (inBrackets "a: T, b)") = .ok (.inr parameter) q ∧
      (inBrackets "a: T, b)").Progresses q) ∧
    (∃ q, (Parser.ofSource "x = f(a,\n -b)").next = .ok true q ∧
      (begun (.ofSource "x = f(a,\n -b)")).Progresses q) ∧
    (∃ n ≤ inkCount "x = f(a,\n -b)".toList, (Lexer.ofSource "x = f(a,\n -b)" false).EndsAfter n) ∧
    (∃ n ≤ inkCount "x = f(a,\n -b)".toList, (Parser.ofSource "x = f(a,\n -b)").EndsAfter n) ∧
    (∀ q e, constructs 10 (.ofSource "x = f(a,\n -b)") ≠ .error (.internal e) q) ∧
    ∃ program tokens, parse "x = f(a,\n -b)" = .ok program ∧ tokenize "x = f(a,\n -b)" = .ok tokens ∧
      program.nodes.length = 7 ∧ tokens.size = 9 ∧ inkCount "x = f(a,\n -b)".toList = 9 ∧
      (∀ n, n ∈ program.nodes ↔ program.HasNode n) ∧
      (program.nodes.map Construct.token).Sublist tokens.toList ∧ (program.nodes.map Construct.token).Nodup := by
  intro inBrackets
  have found {α : Type} {x : Action α} {p : Parser} (h : (EStateM.run' x p).isSome = true) :
      ∃ a q, x p = .ok a q := by
    obtain ⟨a, ha⟩ := Option.isSome_iff_exists.1 h
    exact ⟨a, ok_of_run' ha⟩
  have again {β ρ : Type} {x : Action (β ⊕ ρ)} {p : Parser} (h : (EStateM.run' x p).any Sum.isRight = true) :
      ∃ r q, x p = .ok (.inr r) q := by
    obtain ⟨outcome, ha, hright⟩ := (Option.any_eq_true _ _).1 h
    obtain ⟨r, rfl⟩ := Sum.isRight_iff.1 hright
    exact ⟨r, ok_of_run' ha⟩
  obtain ⟨htoken, hexpression, hloops, hparameters, hnext, -, -, hfuel, hsource⟩ := reading_progress
  obtain ⟨harguments, hsuffixes, hoperators⟩ := hloops 9
  obtain ⟨-, htokens, hconstructs, hparse⟩ := hsource "x = f(a,\n -b)"
  refine ⟨?_, ?_, ?_, ?_, ?_, ?_, ?_, htokens, hconstructs, fun q e ↦ ?_, ?_⟩
  · obtain ⟨t, h⟩ := ok_of_run' (x := Lexer.readToken true) (s := .ofSource "a, -b)" false) (a := true)
      (by decide +kernel)
    exact ⟨t, h, htoken true _ t rfl h⟩
  · obtain ⟨e, q, h⟩ := found (x := expression 9 0) (p := inBrackets "f(a,\n -b)") (by decide +kernel)
    exact ⟨e, q, h, hexpression _ _ _ _ _ h⟩
  · obtain ⟨argument, q, h⟩ := again (x := argumentRound (expression 9)) (p := inBrackets "a, -b)")
      (by decide +kernel)
    exact ⟨argument, q, h, harguments.progresses 9 (a := ()) h⟩
  · obtain ⟨e, q, h⟩ := again (x := suffixRound (expression 9) 9 (.var ⟨⟨"f", .onLine 1 0 0⟩, none⟩))
      (p := inBrackets "[a](b)") (by decide +kernel)
    exact ⟨e, q, h, hsuffixes.progresses 9 h⟩
  · obtain ⟨e, q, h⟩ := again (x := operatorRound (expression 9) 0 (.var ⟨⟨"x", .onLine 1 0 0⟩, none⟩))
      (p := inBrackets "= -b + c") (by decide +kernel)
    exact ⟨e, q, h, (hoperators 0).progresses 9 h⟩
  · obtain ⟨parameter, q, h⟩ := again (x := parameterRound .nameOrClose) (p := inBrackets "a: T, b)")
      (by decide +kernel)
    exact ⟨parameter, q, h, hparameters.progresses 9 h⟩
  · obtain ⟨q, h⟩ := ok_of_run' (x := Parser.next) (s := .ofSource "x = f(a,\n -b)") (a := true) (by decide +kernel)
    exact ⟨q, h, hnext _ q h⟩
  · exact (hfuel 10 (.ofSource "x = f(a,\n -b)") q e (by decide +kernel)).2.2
  · have hcount : (parse "x = f(a,\n -b)").toOption.map (·.nodes.length) = some 7 := by decide +kernel
    have hsize : (tokenize "x = f(a,\n -b)").toOption.map (·.size) = some 9 := by decide +kernel
    cases hp : parse "x = f(a,\n -b)" with
    | error e =>
      rw [hp] at hcount
      cases hcount
    | ok program =>
      obtain ⟨tokens, ht, hnodes, hsublist, hnodup, -⟩ := hparse program hp
      rw [hp] at hcount
      rw [ht] at hsize
      exact ⟨program, tokens, rfl, ht, Option.some.inj hcount, Option.some.inj hsize, by decide +kernel, hnodes,
        hsublist, hnodup⟩

end Linewise
