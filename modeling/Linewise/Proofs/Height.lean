import Linewise.Proofs.Nesting
import Linewise.Proofs.RoundTrip

namespace Linewise

namespace Expr

mutual

def height : Expr → Nat
  | literal _ | var _ => 1
  | assignment _ _ value => 1 + value.height
  | binary _ left right => 1 + max left.height right.height
  | unary _ operand => 1 + operand.height
  | call callee _ arguments _ => 1 + max callee.height (argumentsHeight arguments)
  | index target _ i _ => 1 + max target.height i.height
  | group _ inner _ => 1 + inner.height

def argumentsHeight : List Expr → Nat
  | [] => 0
  | argument :: arguments => max argument.height (argumentsHeight arguments)

end

/-- The number of nodes on the way down that keeps to left operands, callees and targets. -/
def chain : Expr → Nat
  | binary _ left _ => 1 + left.chain
  | call callee .. => 1 + callee.chain
  | index target .. => 1 + target.chain
  | _ => 1

theorem argumentsHeight_le {n : Nat} {arguments : List Expr} (h : ∀ a ∈ arguments, a.height ≤ n) :
    argumentsHeight arguments ≤ n := by
  induction arguments with
  | nil => exact Nat.zero_le n
  | cons a arguments ih =>
    obtain ⟨ha, harguments⟩ := List.forall_mem_cons.1 h
    exact Nat.max_le.2 ⟨ha, ih harguments⟩

/-- No chain in the tree, wherever it begins, has more than `n` nodes. -/
def ChainsWithin (n : Nat) (e : Expr) : Prop := ∀ x : Expr, x.PartOf e → x.chain ≤ n

section

variable {n : Nat}

/-- A way down that leaves the chain at a node goes on below in a tree of its own chain. -/
theorem height_add_le_of_deeper {e : Expr} {m : Nat} (hc : e.chain ≤ n)
    (h : e.height + n ≤ e.chain + e.need * n) (hm : 1 + e.need ≤ m) : e.height + n ≤ m * n := by
  calc e.height + n ≤ n + e.need * n := by omega
    _ = (1 + e.need) * n := by rw [Nat.add_mul, Nat.one_mul]
    _ ≤ m * n := Nat.mul_le_mul_right n hm

/-- On every level of nesting but the first, a whole chain may stand above what is deeper. -/
theorem height_add_le {e : Expr} (h : e.ChainsWithin n) : e.height + n ≤ e.chain + e.need * n := by
  -- The chain goes down to the left and adds nothing to the nesting; every other way down costs one level, and
  -- on it a chain of at most `n` starts anew.
  induction e with
  | literal l => simp [height, chain, need]
  | var v => simp [height, chain, need]
  | assignment operator target value ih =>
    have hv := height_add_le_of_deeper (h value (.value .self)) (ih fun x hx ↦ h x (.value hx))
      (Nat.le_refl _)
    simp only [height, chain, need]
    omega
  | unary operator operand ih =>
    have ho := height_add_le_of_deeper (h operand (.operand .self)) (ih fun x hx ↦ h x (.operand hx))
      (Nat.le_refl _)
    simp only [height, chain, need]
    omega
  | group openToken inner closeToken ih =>
    have hi := height_add_le_of_deeper (h inner (.inner .self)) (ih fun x hx ↦ h x (.inner hx))
      (Nat.le_refl _)
    simp only [height, chain, need]
    omega
  | binary operator left right ihl ihr =>
    have hl := ihl fun x hx ↦ h x (.left hx)
    have hr := height_add_le_of_deeper (h right (.right .self)) (ihr fun x hx ↦ h x (.right hx))
      (Nat.le_max_right left.need _)
    have hneed := Nat.mul_le_mul_right n (Nat.le_max_left left.need (1 + right.need))
    simp only [height, chain, need]
    omega
  | index target openToken i closeToken iht ihi =>
    have ht := iht fun x hx ↦ h x (.target hx)
    have hi := height_add_le_of_deeper (h i (.index .self)) (ihi fun x hx ↦ h x (.index hx))
      (Nat.le_max_right target.need _)
    have hneed := Nat.mul_le_mul_right n (Nat.le_max_left target.need (1 + i.need))
    simp only [height, chain, need]
    omega
  | call callee openToken arguments closeToken ihc iha =>
    have hc := ihc fun x hx ↦ h x (.callee hx)
    have ha : argumentsHeight arguments ≤ max callee.need (argumentsNeed arguments) * n - n := by
      refine argumentsHeight_le fun a ha ↦ Nat.le_sub_of_add_le ?_
      exact height_add_le_of_deeper (h a (.argument ha .self)) (iha a ha fun x hx ↦ h x (.argument ha hx))
        (Nat.le_trans (need_le_of_mem ha) (Nat.le_max_right _ _))
    have hneed := Nat.mul_le_mul_right n (Nat.le_max_left callee.need (argumentsNeed arguments))
    simp only [height, chain, need]
    omega

theorem height_le_need_mul {e : Expr} (h : e.ChainsWithin n) : e.height ≤ e.need * n := by
  have hsum := height_add_le h
  have hchain := h e .self
  omega

end

theorem argumentsHeight_map {f : Expr → Expr} {es : List Expr} (h : ∀ e ∈ es, (f e).height = e.height) :
    argumentsHeight (es.map f) = argumentsHeight es := by
  induction es with
  | nil => rfl
  | cons e es ih =>
    obtain ⟨he, hes⟩ := List.forall_mem_cons.1 h
    rw [List.map_cons, argumentsHeight, argumentsHeight, he, ih hes]

theorem height_erase (e : Expr) : e.erase.height = e.height := by
  induction e with
  | call callee openToken arguments closeToken ihf iha =>
    rw [erase, height, height, eraseAll_eq_map, ihf, argumentsHeight_map iha]
  | _ => simp only [erase, height, *]

def sum : Nat → Expr
  | 0 => .var ⟨⟨"a", .point 0 0⟩, none⟩
  | n + 1 => .binary ⟨.operation .addition, .point 0 0⟩ (sum n) (.var ⟨⟨"a", .point 0 0⟩, none⟩)

def sumWords : Nat → List (List Char)
  | 0 => [['a']]
  | n + 1 => sumWords n ++ [['+'], ['a']]

theorem height_sum (n : Nat) : (sum n).height = n + 1 := by
  induction n with
  | zero => rfl
  | succ n ih =>
    rw [sum, height, ih, height]
    omega

theorem need_sum_le (n : Nat) : (sum n).need ≤ 2 := by
  induction n with
  | zero => decide
  | succ n ih => exact Nat.max_le.2 ⟨ih, by decide⟩

theorem slotsRight_sum (n : Nat) : (sum n).SlotsRight := by
  induction n with
  | zero => exact .var
  | succ n ih => exact .binary ⟨rfl, rfl⟩ ih .var

theorem canonical_sum (n : Nat) : (sum n).Canonical := by
  induction n with
  | zero => exact .var
  | succ n ih =>
    refine .binary ih .var fun power hp ↦ ⟨?_, by simp [Binds, operator?]⟩
    cases n with
    | zero => trivial
    | succ n =>
      cases hp
      exact ⟨by decide, trivial⟩

theorem writtenAs_sum (n : Nat) : (Construct.expression (sum n)).WrittenAs (sumWords n) := by
  induction n with
  | zero => exact .cons (by decide +kernel) .nil
  | succ n ih =>
    rw [Construct.WrittenAs, Construct.pieces, sum, pieces]
    exact List.rel_append ih (.cons (by decide +kernel) (.cons (by decide +kernel) .nil))

end Expr

theorem exists_parse_sum (n : Nat) : ∃ program c e,
    parse (String.ofList (layOut [Expr.sumWords n])) = .ok program ∧ c ∈ program.constructs ∧
      e ∈ c.expression? ∧ e.height = n + 1 := by
  have hslots : ∀ c ∈ [Construct.expression (.sum n)], c.SlotsRight :=
    List.forall_mem_singleton.2 (.expression (Expr.slotsRight_sum n))
  have hcanonical : ∀ c ∈ [Construct.expression (.sum n)], ∀ e ∈ c.expression?, e.Canonical :=
    List.forall_mem_singleton.2 fun e he ↦ Option.mem_some.1 he ▸ Expr.canonical_sum n
  obtain ⟨program, hp, he⟩ := exists_parse_layOut hslots hcanonical (.cons (Expr.writtenAs_sum n) .nil)
    (List.forall_mem_singleton.2 fun e he ↦ Option.mem_some.1 he ▸
      Nat.le_trans (Expr.need_sum_le n) (by decide))
  rw [Program.erase, Program.erase, Program.mk.injEq] at he
  obtain ⟨c, hc, hce⟩ := List.map_eq_singleton_iff.1 he
  have hexpression := congrArg Construct.expression? hce
  rw [Construct.expression?_erase] at hexpression
  obtain ⟨e, hec, hee⟩ := Option.map_eq_some_iff.1 hexpression
  refine ⟨program, c, e, hp, hc ▸ List.mem_cons_self, hec, ?_⟩
  rw [← Expr.height_erase, hee, Expr.height_erase, Expr.height_sum]

/-- In what is accepted, every tree needs at most as many levels of nesting as the limit says, where the
step to a left operand, a callee or a target goes to no new level. So it is at most that many times as
high as its longest chain of such steps, and no bound on the height holds for all texts. -/
theorem height_of_parse :
    (∀ source program, parse source = .ok program →
      ∀ c ∈ program.constructs, ∀ e ∈ c.expression?, e.need ≤ Parser.maxNesting ∧
        ∀ n, e.ChainsWithin n → e.height ≤ e.need * n) ∧
    ∀ n, ∃ source program c e, parse source = .ok program ∧ c ∈ program.constructs ∧
      e ∈ c.expression? ∧ n < e.height := by
  constructor
  · intro source program h c hc e he
    exact ⟨(readsProgram_of_parse h).2 c hc e he, fun n ↦ Expr.height_le_need_mul⟩
  · intro n
    obtain ⟨program, c, e, hp, hc, he, hheight⟩ := exists_parse_sum n
    exact ⟨_, program, c, e, hp, hc, he, hheight ▸ Nat.lt_succ_self n⟩

theorem height_of_parse_sum : ∃ source program c e, parse source = .ok program ∧
    c ∈ program.constructs ∧ e ∈ c.expression? ∧ Parser.maxNesting < e.height ∧
    e.need ≤ Parser.maxNesting := by
  obtain ⟨hneed, hheight⟩ := height_of_parse
  obtain ⟨source, program, c, e, hp, hc, he, hlt⟩ := hheight Parser.maxNesting
  exact ⟨source, program, c, e, hp, hc, he, hlt, (hneed source program hp c hc e he).1⟩

/-- The sum of 65 variables is accepted, and its tree has 65 levels. -/
theorem not_forall_height_le : ¬ ∀ source program, parse source = .ok program →
    ∀ c ∈ program.constructs, ∀ e ∈ c.expression?, e.height ≤ Parser.maxNesting := by
  intro h
  obtain ⟨program, c, e, hp, hc, he, hheight⟩ := exists_parse_sum 64
  have hle := h _ program hp c hc e he
  rw [hheight] at hle
  exact absurd hle (by decide)

end Linewise
