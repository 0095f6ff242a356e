import Linewise.Proofs.Parser.ProgramCompleteness
import Linewise.Proofs.Parser.ProgramSoundness
import Linewise.Proofs.Printing

namespace Linewise

theorem forall_of_map_erase {P : Construct → Prop} (hP : ∀ c d : Construct, c.erase = d.erase → P c → P d)
    {cs ds : List Construct} (h : ds.map Construct.erase = cs.map Construct.erase)
    (hc : ∀ c ∈ cs, P c) : ∀ d ∈ ds, P d := by
  intro d hd
  have hm : d.erase ∈ cs.map Construct.erase := h ▸ List.mem_map_of_mem hd
  obtain ⟨c, hcm, he⟩ := List.mem_map.1 hm
  exact hP c d he (hc c hcm)

theorem forall_expression?_of_erase {P : Expr → Prop} (hP : ∀ e : Expr, P e.erase ↔ P e)
    {c d : Construct} (h : c.erase = d.erase) (hc : ∀ e ∈ c.expression?, P e) :
    ∀ e ∈ d.expression?, P e := by
  intro e he
  have hm := congrArg Construct.expression? h
  rw [Construct.expression?_erase, Construct.expression?_erase, he, Option.map_some] at hm
  obtain ⟨e', he', hee⟩ := Option.map_eq_some_iff.1 hm
  rw [← hP, ← hee, hP]
  exact hc e' he'

/-- What a text is parsed to is not nested too deeply, and neither is a copy of it. -/
theorem need_le_of_parse {source : String} {program : Program} {cs : List Construct}
    (h : parse source = .ok program) (he : program.erase = Program.erase ⟨cs⟩) :
    ∀ c ∈ cs, ∀ e ∈ c.expression?, e.need ≤ Parser.maxNesting := by
  have herase : cs.map Construct.erase = program.constructs.map Construct.erase := by
    rw [Program.erase, Program.erase, Program.mk.injEq] at he
    exact he.symm
  exact forall_of_map_erase (fun c d ↦ forall_expression?_of_erase fun e ↦ by rw [Expr.need_erase])
    herase (readsProgram_of_parse h).2

/-- Canonical constructs of which none is nested too deeply come back when they are written out. -/
theorem exists_parse_layOut {cs : List Construct} {lines : List (List (List Char))}
    (hslots : ∀ c ∈ cs, c.SlotsRight)
    (hcanonical : ∀ c ∈ cs, ∀ e ∈ c.expression?, e.Canonical)
    (hlines : List.Forall₂ Construct.WrittenAs cs lines)
    (hneed : ∀ c ∈ cs, ∀ e ∈ c.expression?, e.need ≤ Parser.maxNesting) :
    ∃ program, parse (String.ofList (layOut lines)) = .ok program ∧
      program.erase = Program.erase ⟨cs⟩ := by
  have hpending : (Lexer.ofSource (String.ofList (layOut lines)) false).pending =
      lines.map spaced := by
    rw [← lines_layOut hlines]
    simp [Lexer.ofSource, Lexer.ofText]
  obtain ⟨tss, hfit, hahead⟩ := Lexer.ahead_lines hlines false rfl hpending
  obtain ⟨ds, hds, hcovers⟩ := exists_refits hfit
  have hslots' : ∀ d ∈ ds, d.SlotsRight := by
    refine forall_of_map_erase (fun c d h hc ↦ ?_) hds hslots
    exact Construct.slotsRight_of_erase (h ▸ hc.erase)
  have hcanonical' : ∀ d ∈ ds, ∀ e ∈ d.expression?, e.Canonical :=
    forall_of_map_erase (fun c d ↦ forall_expression?_of_erase
      fun e ↦ ⟨Expr.canonical_of_erase, Expr.Canonical.erase⟩) hds hcanonical
  have hneed' : ∀ d ∈ ds, ∀ e ∈ d.expression?, e.need ≤ Parser.maxNesting :=
    forall_of_map_erase (fun c d ↦ forall_expression?_of_erase fun e ↦ by rw [Expr.need_erase])
      hds hneed
  have hreads := readsProgram_inLines hslots' hcanonical' hcovers
  rw [← hahead] at hreads
  exact ⟨⟨ds⟩, parse_of_readsProgram hreads hneed', by rw [Program.erase, Program.erase, hds]⟩

/-- Canonical constructs come back when each is written out on a line of its own with single spaces
between its tokens, unless one of them is nested too deeply. -/
theorem parse_layOut {cs : List Construct} {lines : List (List (List Char))}
    (hslots : ∀ c ∈ cs, c.SlotsRight)
    (hcanonical : ∀ c ∈ cs, ∀ e ∈ c.expression?, e.Canonical)
    (hlines : List.Forall₂ Construct.WrittenAs cs lines) :
    (∃ program, parse (String.ofList (layOut lines)) = .ok program ∧
      program.erase = Program.erase ⟨cs⟩) ↔
        ∀ c ∈ cs, ∀ e ∈ c.expression?, e.need ≤ Parser.maxNesting := by
  refine ⟨fun ⟨program, hp, he⟩ ↦ need_le_of_parse hp he, fun hneed ↦ ?_⟩
  exact exists_parse_layOut hslots hcanonical hlines hneed

theorem parse_layOut_product :
    ∃ program, parse (String.ofList (layOut [["return".toList, ['a'], ['*'], ['-'], ['b']]])) =
      .ok program ∧ program.erase = Program.erase ⟨[.returnStatement ⟨.keyword "return", .point 0 0⟩
        (some (.binary ⟨.operation .multiplication, .point 0 0⟩ (.var ⟨⟨"a", .point 0 0⟩, none⟩)
          (.unary ⟨.operation .subtraction, .point 0 0⟩ (.var ⟨⟨"b", .point 0 0⟩, none⟩))))]⟩ := by
  refine (parse_layOut ?_ ?_ (.cons ?_ .nil)).2 ?_
  · rw [List.forall_mem_singleton]
    refine .returnStatement rfl fun e he ↦ ?_
    cases he
    exact .binary ⟨rfl, rfl⟩ .var (.unary (.inl rfl) .var)
  · rw [List.forall_mem_singleton]
    intro e he
    cases he
    refine .binary .var (.unary .var (by simp [Expr.Binds, Expr.operator?])) fun power hp ↦ ?_
    exact ⟨trivial, by simp [Expr.Binds, Expr.operator?]⟩
  · refine .cons ?_ (.cons ?_ (.cons ?_ (.cons ?_ (.cons ?_ .nil)))) <;> decide +kernel
  · rw [List.forall_mem_singleton]
    intro e he
    cases he
    decide

def negations : Nat → Expr
  | 0 => .var ⟨⟨"a", .point 0 0⟩, none⟩
  | n + 1 => .unary ⟨.operation .subtraction, .point 0 0⟩ (negations n)

def negationWords : Nat → List (List Char)
  | 0 => [['a']]
  | n + 1 => ['-'] :: negationWords n

theorem slotsRight_negations (n : Nat) : (negations n).SlotsRight := by
  induction n with
  | zero => exact .var
  | succ n ih => exact .unary (.inl rfl) ih

theorem canonical_negations (n : Nat) : (negations n).Canonical := by
  induction n with
  | zero => exact .var
  | succ n ih =>
    refine .unary ih ?_
    cases n <;> simp [negations, Expr.Binds, Expr.operator?]

theorem writtenAs_negations (n : Nat) :
    (Construct.expression (negations n)).WrittenAs (negationWords n) := by
  induction n with
  | zero => exact .cons (by decide +kernel) .nil
  | succ n ih =>
    rw [Construct.WrittenAs, Construct.pieces, negations, Expr.pieces]
    exact .cons (by decide +kernel) ih

theorem not_forall_parse_layOut : ¬ ∀ (cs : List Construct) (lines : List (List (List Char))),
    (∀ c ∈ cs, c.SlotsRight) → (∀ c ∈ cs, ∀ e ∈ c.expression?, e.Canonical) →
    List.Forall₂ Construct.WrittenAs cs lines →
    ∃ program, parse (String.ofList (layOut lines)) = .ok program ∧
      program.erase = Program.erase ⟨cs⟩ := by
  intro h
  obtain ⟨program, hp, he⟩ := h [.expression (negations 64)] [negationWords 64]
    (List.forall_mem_singleton.2 (.expression (slotsRight_negations 64)))
    (List.forall_mem_singleton.2 fun e he ↦ Option.mem_some.1 he ▸ canonical_negations 64)
    (.cons (writtenAs_negations 64) .nil)
  have hneed := need_le_of_parse hp he _ List.mem_cons_self _ rfl
  exact absurd hneed (by decide)

end Linewise
