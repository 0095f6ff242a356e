import Linewise.Proofs.ErrorPlaces
import Linewise.Proofs.TokenOrder

namespace Linewise

open Upcoming

variable {limit room : Nat} {b : Bool} {xs ys : List Upcoming} {e : SyntaxError}

namespace Upcoming

def Assigns (xs : List Upcoming) : Prop :=
  ∃ t : Token, .ok t ∈ xs.map (·.content) ∧ t.kind.isAssignment = true

theorem Assigns.behind (h : Assigns ys) (hy : Behind ys xs) : Assigns xs := by
  obtain ⟨t, ht, hk⟩ := h
  obtain ⟨ts, hts⟩ := hy
  refine ⟨t, ?_, hk⟩
  rw [hts]
  exact List.mem_append_right _ ht

theorem Next.assigns {t : Token} (h : Next b xs t ys) (hk : t.kind.isAssignment = true) : Assigns xs := by
  obtain ⟨later, rfl, -⟩ := h
  exact ⟨t, List.mem_cons_self, hk⟩

/-- Nothing that ends the reading at once is the target of an assignment. -/
theorem Halts.code_ne_target {absence : Option GrammarError} {wrong : Token → Option GrammarError}
    (h : Halts b absence wrong xs e) (hwrong : Token.Blames wrong)
    (habsence : ∀ g ∈ absence, g.cause.code ≠ .P0006) : e.code ≠ .P0006 := by
  cases h with
  | @lexical later e' => cases hc : e'.cause <;> simp [SyntaxError.code, LexicalCause.code, hc]
  | absent _ hg => exact habsence _ hg
  | @token t xs ys g hn hg => exact (hwrong t g hg).2.2

theorem HaltsIn.code_ne_target {construct : String} {wrong : Token → Option GrammarError}
    (h : HaltsIn construct wrong xs e) (hwrong : Token.Blames wrong) : e.code ≠ .P0006 := by
  refine Halts.code_ne_target h hwrong fun g hg ↦ ?_
  cases hg
  exact nofun

theorem HaltsLexically.code_ne_target (h : HaltsLexically b xs e) : e.code ≠ .P0006 :=
  Halts.code_ne_target h Token.blames_nothing nofun

end Upcoming

theorem GrammarError.noOperand_code_ne (b : Bool) (last : Option Token) :
    ∀ g ∈ some (noOperand b last), g.cause.code ≠ .P0006 := by
  rintro g ⟨⟩
  cases b <;> simp [noOperand, unterminated, GrammarCause.code]

theorem Rejects.assigns {goal : Goal} (h : Rejects limit room b goal xs e) (he : e.code = .P0006) :
    Assigns xs := by
  induction h with
  | operand h =>
    exact absurd he (h.code_ne_target Token.blames_requireOperand (GrammarError.noOperand_code_ne _ _))
  | dereference _ _ h =>
    exact absurd he (h.code_ne_target (Token.blames_requireName _) (GrammarError.noOperand_code_ne _ _))
  | groupEnd _ _ _ h | indexEnd _ _ _ h =>
    exact absurd he (HaltsIn.code_ne_target h (Token.blames_require _ _))
  | argumentEnd _ h => exact absurd he (HaltsIn.code_ne_target h Token.blames_requireSeparator)
  | suffixes h | call _ _ h | operators h => exact absurd he (HaltsLexically.code_ne_target h)
  | group hn _ _ ih | unary hn _ _ ih | index hn _ _ ih | rightOperand hn _ _ _ ih =>
    exact (ih he).behind hn.behind
  | callArguments hn _ _ _ ih => exact (ih he).behind (hn.behind.trans (behind_looked true _))
  | suffixed hr _ ih | moreSuffixes hr _ ih | expression hr _ ih => exact (ih he).behind hr.1.behind
  | argument _ ih | left _ ih => exact ih he
  | moreArguments hr hn _ _ ih => exact (ih he).behind (hr.1.behind.trans hn.behind)
  | target hn _ _ _ hassign => exact hn.assigns hassign
  | moreOperators hn _ _ hr _ _ ih => exact (ih he).behind (hn.behind.trans hr.1.behind)
  | tooDeep => cases he

theorem RejectsStatement.assigns {last : Option Token} (h : RejectsStatement limit last xs e)
    (he : e.code = .P0006) : Assigns xs := by
  cases h with
  | expression h => exact h.assigns he
  | statementEnd _ h => exact absurd he (h.code_ne_target (Token.blames_require _ _) nofun)

theorem RejectsType.code_ne_target {mark : TokenKind} {construct what : String}
    (h : RejectsType mark construct what xs e) : e.code ≠ .P0006 := by
  cases h with
  | mark h => exact HaltsLexically.code_ne_target h
  | name _ _ h => exact HaltsIn.code_ne_target h (Token.blames_requireName _)

theorem RejectsParameters.code_ne_target {slot : Parser.Action.ParameterSlot}
    (h : RejectsParameters slot xs e) : e.code ≠ .P0006 := by
  induction h with
  | slot h => exact HaltsIn.code_ne_target h (Token.blames_requireSlot _)
  | comma _ _ _ ih | parameter _ _ _ _ ih => exact ih
  | type _ _ h => exact h.code_ne_target

theorem RejectsHeader.code_ne_target (h : RejectsHeader xs e) : e.code ≠ .P0006 := by
  cases h with
  | name h => exact HaltsIn.code_ne_target h Token.blames_requireFunctionName
  | openParen _ h | bodyOpen _ _ _ _ _ h => exact HaltsIn.code_ne_target h (Token.blames_require _ _)
  | parameters _ _ _ h => exact h.code_ne_target
  | returnType _ _ _ _ h => exact h.code_ne_target

theorem RejectsConstruct.assigns (h : RejectsConstruct limit xs e) (he : e.code = .P0006) : Assigns xs := by
  cases h with
  | start h => exact absurd he (h.code_ne_target Token.blames_requireConstruct nofun)
  | word _ _ h => exact absurd he (h.code_ne_target (Token.blames_require _ _) nofun)
  | returned _ _ h => exact absurd he (HaltsLexically.code_ne_target h)
  | returnValue hn _ _ _ h => exact (h.assigns he).behind hn.behind
  | function _ _ h => exact absurd he h.code_ne_target
  | expression hn _ h =>
    have ha := h.assigns he
    rw [← hn.looked_eq] at ha
    exact ha.behind (behind_looked true _)

/-- A program is rejected for the target of an assignment only if there is an assignment. -/
theorem RejectsProgram.assigns (h : RejectsProgram limit xs e) (he : e.code = .P0006) : Assigns xs := by
  induction h with
  | here h => exact h.assigns he
  | later hc _ _ ih => exact (ih he).behind hc.spells.behind

end Linewise
