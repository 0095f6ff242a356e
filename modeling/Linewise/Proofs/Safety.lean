import Linewise.Proofs.Parser.Checked
import Linewise.Proofs.Parser.ProgramCongruence
import Linewise.Proofs.Stepwise.Tokens

namespace Linewise

/-- Reading a token character by character, each step with its conditions, comes in every state to what
reading it at once comes to, and so never to an internal error. Parsing an expression with the conditions
on brackets, levels and trees is the same as parsing it without them. A call of the parser ends without
an internal error in every state, whatever calls of the lexer and of the parser led to it, and failed ones
among them. So do reading all tokens of a text and parsing the whole of it. -/
theorem no_internal_error :
    (∀ (acrossLines : Bool) (s : Lexer),
      Lexer.Step.Matches (Lexer.Step.readToken acrossLines s) (s.readToken acrossLines)) ∧
    (∀ fuel least : Nat,
      Parser.Action.Checked.expression fuel least = Parser.Action.expression fuel least) ∧
    (∀ (p q : Parser) (e : InternalError), p.next ≠ .error (.internal e) q) ∧
    (∀ source : String,
      Lexer.Step.readAll (.ofSource source false) = (tokenize source).mapError .rejected) ∧
    ∀ (source : String) (e : InternalError), parse source ≠ .error (.internal e) := by
  refine ⟨Lexer.Step.readToken_matches, Parser.Action.Checked.expression_eq, ?_, ?_, ?_⟩
  · intro p q e
    exact p.next_ne_internal q e
  · intro source
    exact Lexer.Step.readAll_eq_mapError _
  · intro source e
    exact (Parser.ofSource source).program_ne_internal e

end Linewise
