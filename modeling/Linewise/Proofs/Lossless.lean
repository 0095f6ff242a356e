import Linewise.Proofs.Parser.ProgramCompleteness
import Linewise.Proofs.Parser.ProgramSoundness
import Linewise.Proofs.Pieces
import Linewise.Proofs.Slots

namespace Linewise

namespace Parser

/-- Calls of `next` that build constructs one after the other, each noted with the tokens that were
read for it. In between, the construct parsed last may be taken out. -/
inductive Builds : Parser → List (Construct × Array Token) → Parser → Prop
  | nothing {p : Parser} : Builds p [] p
  | next {p q r : Parser} {c : Construct} {built : List (Construct × Array Token)} :
      p.next = .ok true q → q.result = some c → Builds q built r →
      Builds p ((c, q.tokens) :: built) r
  | take {p q r : Parser} {result : Option Construct} {built : List (Construct × Array Token)} :
      Action.takeResult p = .ok result q → Builds q built r → Builds p built r

/-- What is built next is the construct that comes next in the text, out of its own tokens. -/
theorem next_spells {p q : Parser} (h : p.next = .ok true q) :
    ∃ c, q.result = some c ∧ ReadsConstruct p.upcoming c q.upcoming ∧
      Covers c.pieces q.tokens.toList ∧
      p.upcoming.map (·.content) = q.tokens.toList.map .ok ++ q.upcoming.map (·.content) := by
  obtain ⟨c, r, hm, rfl, -, hr⟩ := Action.next_true h
  obtain ⟨ts, hts, hc⟩ := hr.spells
  have hall : p.upcoming.map (·.content) =
      r.tokens.toList.map .ok ++ r.upcoming.map (·.content) := by
    have := hm.contents
    rw [contents, contents, Action.upcoming_begun] at this
    exact this.symm
  have htokens : ts = r.tokens.toList := by
    have := List.append_cancel_right (hts.contents.symm.trans hall)
    exact List.map_injective_iff.2 (fun _ _ h ↦ Except.ok.inj h) this
  exact ⟨c, rfl, hr, htokens ▸ hc, hall⟩

/-- The construct that comes next in a text is determined, and so is where it ends. -/
theorem construct_unique {p : Parser} {c d : Construct} {ys zs : List Upcoming}
    (h : ReadsConstruct p.upcoming c ys) (h' : ReadsConstruct p.upcoming d zs) :
    c = d ∧ ys = zs := by
  let free : Parser := { p with nestingLimit := none }
  have hfits (n : Nat) : free.Fits n := fun limit hl ↦ by cases hl
  obtain ⟨r, hr, -, rfl⟩ := Action.next_of_reads (p := free) h (Nat.lt_succ_self _) fun _ _ ↦ hfits _
  obtain ⟨r', hr', -, rfl⟩ := Action.next_of_reads (p := free) h' (Nat.lt_succ_self _) fun _ _ ↦ hfits _
  rw [hr] at hr'
  simp only [EStateM.Result.ok.injEq, true_and, Parser.mk.injEq, Option.some.injEq] at hr'
  exact ⟨hr'.2.1, congrArg Lexer.upcoming hr'.1⟩

theorem Builds.spells {p q : Parser} {built : List (Construct × Array Token)}
    (h : Builds p built q) {cs : List Construct} (hp : ReadsProgram p.upcoming cs) :
    (∃ more, cs = built.map (·.1) ++ more) ∧
      p.upcoming.map (·.content) =
        (built.flatMap (·.2.toList)).map .ok ++ q.upcoming.map (·.content) ∧
      ∀ i ∈ built, Covers i.1.pieces i.2.toList := by
  induction h generalizing cs with
  | nothing => exact ⟨⟨cs, rfl⟩, rfl, by simp⟩
  | @next p q r c built hn hc _ ih =>
    obtain ⟨d, hd, hr, hcovers, hx⟩ := next_spells hn
    obtain rfl : c = d := Option.some.inj (hc.symm.trans hd)
    obtain ⟨e, es, zs, rfl, he, hes⟩ : ∃ e es zs, cs = e :: es ∧
        ReadsConstruct p.upcoming e zs ∧ ReadsProgram zs es := by
      generalize hu : p.upcoming = xs at hp hr
      cases hp with
      | done => exact absurd hr.length_lt (by simp)
      | construct he hes => exact ⟨_, _, _, rfl, he, hes⟩
    obtain ⟨rfl, rfl⟩ := construct_unique he hr
    obtain ⟨⟨more, hmore⟩, hcontents, hall⟩ := ih hes
    refine ⟨⟨more, by rw [hmore]; rfl⟩, ?_, List.forall_mem_cons.2 ⟨hcovers, hall⟩⟩
    rw [hx, hcontents]
    simp
  | take ht _ ih =>
    cases ht
    exact ih hp

end Parser

theorem exists_covers_of_parse {source : String} {program : Program} (h : parse source = .ok program) :
    ∃ tokens, tokenize source = .ok tokens ∧ Covers program.pieces tokens.toList := by
  obtain ⟨ts, hleads, hcovers⟩ := (readsProgram_of_parse h).1.spells
  have hcontents := hleads.contents
  rw [List.map_nil, List.append_nil] at hcontents
  exact ⟨ts.toArray, tokenize_eq_ok.2 hcontents, hcovers⟩

theorem covers_of_parse {source : String} {program : Program} {tokens : Array Token}
    (h : parse source = .ok program) (htokens : tokenize source = .ok tokens) :
    Covers program.pieces tokens.toList := by
  obtain ⟨tokens', htokens', hcovers⟩ := exists_covers_of_parse h
  rwa [← Except.ok.inj (htokens.symm.trans htokens')] at hcovers

/-- An accepted text consists of exactly the tokens that its constructs stand for, and every
construct is built out of its own. -/
theorem parse_lossless {source : String} {program : Program} (h : parse source = .ok program) :
    ∃ tokens, tokenize source = .ok tokens ∧ Covers program.pieces tokens.toList ∧
      (∀ c ∈ program.constructs, c.SlotsRight) ∧
      ∀ built p, Parser.Builds (.ofSource source) built p →
        (∃ more, program.constructs = built.map (·.1) ++ more) ∧
        (∃ after, tokens.toList = built.flatMap (·.2.toList) ++ after) ∧
        ∀ i ∈ built, Covers i.1.pieces i.2.toList := by
  obtain ⟨hr, -⟩ := readsProgram_of_parse h
  obtain ⟨tokens, htokens, hc⟩ := exists_covers_of_parse h
  refine ⟨tokens, htokens, hc, hr.slotsRight, fun built p hb ↦ ?_⟩
  obtain ⟨hmore, hcontents, hall⟩ := hb.spells hr
  have hsplit := (tokenize_eq_ok.1 htokens).symm.trans hcontents
  obtain ⟨first, after, hsplit, hfirst, -⟩ := List.map_eq_append_iff.1 hsplit
  refine ⟨hmore, ⟨after, ?_⟩, hall⟩
  rw [hsplit, List.map_injective_iff.2 (fun _ _ h ↦ Except.ok.inj h) hfirst]

theorem parse_lossless_call : ∃ tokens, tokenize "f(a, -b)" = .ok tokens ∧
    Covers [.kept ⟨.identifier "f", .onLine 1 0 0⟩, .kept ⟨.openParen, .onLine 1 1 1⟩,
      .kept ⟨.identifier "a", .onLine 1 2 2⟩, .dropped .comma,
      .kept ⟨.operation .subtraction, .onLine 1 5 5⟩, .kept ⟨.identifier "b", .onLine 1 6 6⟩,
      .kept ⟨.closeParen, .onLine 1 7 7⟩] tokens.toList := by
  have hpieces : (parse "f(a, -b)").toOption.map Program.pieces =
      some [.kept ⟨.identifier "f", .onLine 1 0 0⟩, .kept ⟨.openParen, .onLine 1 1 1⟩,
        .kept ⟨.identifier "a", .onLine 1 2 2⟩, .dropped .comma,
        .kept ⟨.operation .subtraction, .onLine 1 5 5⟩, .kept ⟨.identifier "b", .onLine 1 6 6⟩,
        .kept ⟨.closeParen, .onLine 1 7 7⟩] := by decide +kernel
  cases hp : parse "f(a, -b)" with
  | error e => simp [hp, Except.toOption] at hpieces
  | ok program =>
    obtain ⟨tokens, ht, hc, -⟩ := parse_lossless hp
    simp only [hp, Except.toOption, Option.map_some, Option.some.injEq] at hpieces
    exact ⟨tokens, ht, hpieces ▸ hc⟩

end Linewise
