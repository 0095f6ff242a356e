import Linewise.Proofs.Joining
import Linewise.Proofs.Lossless
import Linewise.Proofs.Parser.Appending

namespace Linewise

open Linewise.Parser Linewise.Parser.Action

theorem endsLine_upcoming (rest : List Char) (g : Span → Span) :
    EndsLine ((Lexer.ofText rest false).upcoming.map (Upcoming.relocate g)) := by
  intro i hi
  rw [List.head?_map] at hi
  obtain ⟨j, hj, rfl⟩ := Option.map_eq_some_iff.1 hi
  exact Lexer.endsLine_ofText rest false j hj

/-- Where a text is accepted, the text after it gives what it would give alone, only further down. -/
theorem parse_append {source rest : String} {program : Program} (h : parse source = .ok program) :
    let g := Span.down (source.toList.count '\n' + 1)
    parse (source ++ "\n" ++ rest) = match parse rest with
      | .ok more => .ok ⟨program.constructs ++ more.constructs.map (Construct.relocate g)⟩
      | .error e => .error (e.map (SyntaxError.relocate g)) := by
  intro g
  obtain ⟨hreads, hneed⟩ := readsProgram_of_parse h
  obtain ⟨tokens, htokens, -⟩ := hreads.spells
  have hcontents := htokens.contents
  rw [List.map_nil, List.append_nil] at hcontents
  have hu : (Parser.ofSource (source ++ "\n" ++ rest)).upcoming =
      (Parser.ofSource source).upcoming ++ (Parser.ofSource rest).upcoming.map (Upcoming.relocate g) := by
    have htext : (source ++ "\n" ++ rest).toList = source.toList ++ '\n' :: rest.toList := by simp
    have hjoin := Lexer.upcoming_append rest.toList hcontents
    rw [← htext] at hjoin
    exact hjoin
  obtain ⟨q, n, hq, hn, hresult, hdepth, hlimit, hrest⟩ := constructs_append hreads
    (endsLine_upcoming rest.toList g) hu (Parser.length_lt_fuel _) (fun c hc e he limit hl ↦ by
      cases hl
      have := hneed c hc e he
      change 0 + (1 + e.need) ≤ Parser.maxNesting + 1
      omega) rfl
  obtain ⟨n, rfl⟩ : ∃ m, n = m + 1 := ⟨n - 1, by omega⟩
  -- The parser of the second text alone is compared with the other one when it begins a construct.
  have halike : Alike g 0 ((Parser.ofSource rest).upcoming.length + 1) (.ofSource rest) (begun q) :=
    ⟨(upcoming_begun q).trans hq, Nat.lt_succ_self _, Array.map_empty.symm, hresult, rfl, rfl, hdepth, hlimit⟩
  rw [List.length_map] at hn
  have hagree := constructs_corresponds (uniform_down _) (Parser.length_lt_fuel (.ofSource rest)) hn _ _ _
    halike
  rw [constructs_begun] at hagree
  simp only [parse, Parser.program, hrest, Bind.bind, EStateM.bind]
  generalize constructs (Parser.ofSource rest).fuel (.ofSource rest) = r at hagree
  generalize constructs (n + 1) q = r' at hagree
  cases hagree <;> rfl

theorem parse_append_carriageReturn : ∃ program, parse "a = f(b)\r" = .ok program ∧
    parse ("a = f(b)\r" ++ "\n" ++ "\nreturn\n x )") =
      .error (.rejected (.grammar ⟨.expected "end of line" "')'", some (.onLine 4 3 3)⟩)) := by
  have hok : (parse "a = f(b)\r").isOk = true := by decide +kernel
  have herror : (match parse "\nreturn\n x )" with | .ok _ => none | .error e => some e) =
      some (.rejected (.grammar ⟨.expected "end of line" "')'", some (.onLine 3 3 3)⟩)) := by
    decide +kernel
  cases h : parse "a = f(b)\r" with
  | error e => simp [h, Except.isOk, Except.toBool] at hok
  | ok program =>
    refine ⟨program, rfl, ?_⟩
    rw [parse_append h]
    cases hr : parse "\nreturn\n x )" with
    | ok more => simp [hr] at herror
    | error e =>
      rw [hr] at herror
      cases herror
      rfl

end Linewise
