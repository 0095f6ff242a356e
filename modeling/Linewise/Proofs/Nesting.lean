import Linewise.Proofs.Parser.Limit
import Linewise.Proofs.Parser.ProgramCompleteness
import Linewise.Proofs.Precedence

namespace Linewise

namespace Expr

theorem need_le_of_mem {a : Expr} {arguments : List Expr} (h : a ∈ arguments) :
    1 + a.need ≤ argumentsNeed arguments := by
  induction h with
  | head => exact Nat.le_max_left _ _
  | tail _ _ ih => exact Nat.le_trans ih (Nat.le_max_right _ _)

theorem need_le_of_partOf {x e : Expr} (h : x.PartOf e) : x.need ≤ e.need := by
  induction h with
  | self => exact Nat.le_refl _
  | argument ha _ ih =>
    have hargument := need_le_of_mem ha
    simp only [need]
    omega
  | _ =>
    simp only [need]
    omega

end Expr

/-- No expression in the program, wherever it stands, needs more than `n` levels of nesting. -/
def Program.Within (n : Nat) (program : Program) : Prop :=
  ∀ c ∈ program.constructs, ∀ e ∈ c.expression?, ∀ x : Expr, x.PartOf e → x.need ≤ n

/-- What a parser without a limit on nesting makes of a text. -/
def parseUnlimited (source : String) : Except (Failure SyntaxError) Program :=
  (Parser.ofSource source).unlimited.program

theorem within_of_parse {source : String} {program : Program} (h : parse source = .ok program) :
    program.Within Parser.maxNesting := by
  intro c hc e he x hx
  exact Nat.le_trans (Expr.need_le_of_partOf hx) ((readsProgram_of_parse h).2 c hc e he)

theorem readsProgram_of_parseUnlimited {source : String} {program : Program}
    (h : parseUnlimited source = .ok program) :
    ReadsProgram (Parser.ofSource source).upcoming program.constructs := by
  rw [parseUnlimited, Parser.program] at h
  split at h
  · next hc =>
    cases h
    exact (Parser.Action.constructs_ok hc).1
  · cases h

theorem parse_eq_or_tooDeep (source : String) : parse source = parseUnlimited source ∨
    ∃ span, parse source = .error (Parser.tooDeep Parser.maxNesting span) :=
  Parser.program_limited (p := (Parser.ofSource source).unlimited) rfl

theorem parse_of_parseUnlimited {source : String} {program : Program}
    (h : parseUnlimited source = .ok program) (hw : program.Within Parser.maxNesting) :
    parse source = .ok program := by
  apply parse_of_readsProgram (readsProgram_of_parseUnlimited h)
  intro c hc e he
  exact hw c hc e he e .self

/-- Beside a parser without a limit: what that accepts is accepted as it is if no expression in it is
nested too deeply, and rejected for its nesting otherwise; what that rejects is rejected with the same
error or for its nesting; and what is accepted holds no expression that is nested too deeply. -/
theorem parse_limit_exact (source : String) :
    (∀ program, parseUnlimited source = .ok program →
      (program.Within Parser.maxNesting → parse source = .ok program) ∧
      (¬ program.Within Parser.maxNesting →
        ∃ span, parse source = .error (Parser.tooDeep Parser.maxNesting span))) ∧
    (∀ e, parseUnlimited source = .error e →
      parse source = .error e ∨ ∃ span, parse source = .error (Parser.tooDeep Parser.maxNesting span)) ∧
    ∀ program, parse source = .ok program → program.Within Parser.maxNesting := by
  refine ⟨fun program h ↦ ⟨parse_of_parseUnlimited h, fun hw ↦ ?_⟩, fun e h ↦ ?_, fun program ↦ within_of_parse⟩
  · obtain heq | hdeep := parse_eq_or_tooDeep source
    · exact absurd (within_of_parse (heq.trans h)) hw
    · exact hdeep
  · obtain heq | hdeep := parse_eq_or_tooDeep source
    · exact .inl (heq.trans h)
    · exact .inr hdeep

def tildes (n : Nat) : String := String.ofList (List.replicate n '~' ++ ['a'])

theorem parse_limit_exact_tildes :
    (∃ program, parseUnlimited (tildes 1) = .ok program ∧ program.Within Parser.maxNesting ∧
      parse (tildes 1) = .ok program) ∧
    ∃ program span, parseUnlimited (tildes 64) = .ok program ∧ ¬ program.Within Parser.maxNesting ∧
      parse (tildes 64) = .error (Parser.tooDeep Parser.maxNesting span) := by
  constructor
  · have haccepted : (parse (tildes 1)).toBool = true := by decide +kernel
    cases hp : parseUnlimited (tildes 1) with
    | error e =>
      have hfree : (parseUnlimited (tildes 1)).toBool = true := by decide +kernel
      simp [hp, Except.toBool] at hfree
    | ok program =>
      obtain ⟨hok, htooDeep⟩ := (parse_limit_exact _).1 program hp
      have hw : program.Within Parser.maxNesting := by
        apply Classical.byContradiction
        intro hw
        obtain ⟨span, he⟩ := htooDeep hw
        simp [he, Except.toBool] at haccepted
      exact ⟨program, rfl, hw, hok hw⟩
  · have hrejected : (parse (tildes 64)).toBool = false := by decide +kernel
    cases hp : parseUnlimited (tildes 64) with
    | error e =>
      have hfree : (parseUnlimited (tildes 64)).toBool = true := by decide +kernel
      simp [hp, Except.toBool] at hfree
    | ok program =>
      obtain ⟨hok, htooDeep⟩ := (parse_limit_exact _).1 program hp
      have hw : ¬ program.Within Parser.maxNesting := by
        intro hw
        simp [hok hw, Except.toBool] at hrejected
      obtain ⟨span, he⟩ := htooDeep hw
      exact ⟨program, span, rfl, hw, he⟩

end Linewise
