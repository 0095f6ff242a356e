import Linewise.Proofs.FurtherLines
import Linewise.Proofs.Parser.ProgramCongruence
import Linewise.Proofs.Pieces

namespace Linewise

open Upcoming

variable {xs ys zs : List Upcoming}

namespace Parser

open Linewise.Parser.Action

theorem constructs_begun (fuel : Nat) (p : Parser) :
    constructs (fuel + 1) (begun p) = constructs (fuel + 1) p := rfl

/-- Where constructs stand in front of more lines, these are parsed first, and the parser goes on from a
state like the one it was in. -/
theorem constructs_extend {p : Parser} {cs : List Construct} {fuel : Nat} (h : ReadsProgram xs cs)
    (hp : Extends zs xs p.upcoming) (hz : EndsLine zs) (hf : p.upcoming.length < fuel)
    (hfits : ∀ c ∈ cs, ∀ e ∈ c.expression?, p.Fits (1 + e.need)) (hresult : p.result = none) :
    ∃ q n, q.upcoming = zs ∧ zs.length < n ∧ q.result = none ∧ q.nestingDepth = p.nestingDepth ∧
      q.nestingLimit = p.nestingLimit ∧
      constructs fuel p = (do let more ← constructs n; return cs ++ more : Action _) q := by
  induction h generalizing p fuel with
  | done =>
    generalize hu : p.upcoming = us at hp hf
    cases hp
    refine ⟨p, fuel, hu, hf, hresult, rfl, rfl, ?_⟩
    simp only [List.nil_append, bind_pure]
  | @construct c cs xs ys hc _ ih =>
    obtain ⟨n, rfl⟩ : ∃ n, fuel = n + 1 := ⟨fuel - 1, by omega⟩
    obtain ⟨ws, hc', hy⟩ := hc.extend hp hz
    have hl := hc'.length_lt
    obtain ⟨r, hr, hm, hu⟩ := next_of_reads hc' hf (hfits c List.mem_cons_self)
    rw [← hu] at hy hl
    obtain ⟨q, m, hq, hn, hresult', hdepth, hlimit, hrest⟩ := ih (p := { r with result := none })
      hy (Nat.lt_of_lt_of_le hl (Nat.le_of_lt_succ hf))
      (fun d hd e he ↦ hm.fits (hfits d (List.mem_cons_of_mem c hd) e he)) rfl
    refine ⟨q, m, hq, hn, hresult', hdepth.trans hm.nestingDepth, hlimit.trans hm.nestingLimit, ?_⟩
    have hstep : constructs (n + 1) p =
        (do let more ← constructs n; return c :: more : Action _) { r with result := none } := by
      rw [constructs, bind_of_ok hr]
      rfl
    have htail : (do let more ← constructs m; return c :: cs ++ more : Action _) q =
        (do let more ← (do let more ← constructs m; return cs ++ more : Action _)
            return c :: more : Action _) q := by
      simp only [bind_assoc, pure_bind, List.cons_append]
    rw [hstep, htail]
    simp only [Bind.bind, EStateM.bind] at hrest ⊢
    rw [hrest]

theorem constructs_append {p : Parser} {cs : List Construct} {fuel : Nat} (h : ReadsProgram xs cs)
    (hz : EndsLine zs) (hp : p.upcoming = xs ++ zs) (hf : p.upcoming.length < fuel)
    (hfits : ∀ c ∈ cs, ∀ e ∈ c.expression?, p.Fits (1 + e.need)) (hresult : p.result = none) :
    ∃ q n, q.upcoming = zs ∧ zs.length < n ∧ q.result = none ∧ q.nestingDepth = p.nestingDepth ∧
      q.nestingLimit = p.nestingLimit ∧
      constructs fuel p = (do let more ← constructs n; return cs ++ more : Action _) q := by
  obtain ⟨tokens, htokens, -⟩ := h.spells
  have hcontents := htokens.contents
  rw [List.map_nil, List.append_nil] at hcontents
  exact constructs_extend h (hp ▸ .append hcontents) hz hf hfits hresult

end Parser

end Linewise
