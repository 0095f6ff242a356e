import Linewise.Proofs.Pieces

namespace Linewise

namespace Expr

mutual

def delimiters : Expr → List (Token × Token)
  | literal _ | var _ => []
  | assignment _ _ value => value.delimiters
  | binary _ left right => left.delimiters ++ right.delimiters
  | unary _ operand => operand.delimiters
  | call callee openToken arguments closeToken =>
    callee.delimiters ++ (openToken, closeToken) :: argumentDelimiters arguments
  | index target openToken i closeToken =>
    target.delimiters ++ (openToken, closeToken) :: i.delimiters
  | group openToken inner closeToken => (openToken, closeToken) :: inner.delimiters

def argumentDelimiters : List Expr → List (Token × Token)
  | [] => []
  | argument :: arguments => argument.delimiters ++ argumentDelimiters arguments

end

/-- For each token of the tree, whether a line may end in front of it. -/
def mayBreak : Expr → List Bool
  | literal _ => [false]
  | var v => v.pieces.map fun _ ↦ false
  | assignment _ target value => target.pieces.map (fun _ ↦ false) ++ false :: value.mayBreak
  | binary _ left right => left.mayBreak ++ false :: right.mayBreak
  | unary _ operand => false :: operand.mayBreak
  | call callee _ arguments _ =>
    callee.mayBreak ++ false :: List.replicate ((argumentPieces arguments).length + 1) true
  | index target _ i _ => target.mayBreak ++ false :: List.replicate (i.pieces.length + 1) true
  | group _ inner _ => false :: List.replicate (inner.pieces.length + 1) true

@[simp]
theorem length_mayBreak (e : Expr) : e.mayBreak.length = e.pieces.length := by
  induction e <;> simp [mayBreak, pieces, *]

theorem mayBreak_of_joins {left right e : Expr} {operator : Token} (h : left.Joins operator right e) :
    e.mayBreak = left.mayBreak ++ false :: right.mayBreak := by
  cases h <;> simp only [mayBreak]

end Expr

/-- The two tokens stand among the pieces, and the flags of those after the one, up to the other, are
set. -/
def Delimits (pieces : List Piece) (flags : List Bool) (d : Token × Token) : Prop :=
  ∃ a b : Nat, pieces[a]? = some (Piece.kept d.1) ∧ pieces[b]? = some (Piece.kept d.2) ∧
    ∀ j, a < j → j ≤ b → flags[j]? = some true

namespace Delimits

variable {ps qs : List Piece} {fs gs : List Bool} {d : Token × Token}

theorem append_left (h : Delimits ps fs d) (qs : List Piece) (gs : List Bool) :
    Delimits (ps ++ qs) (fs ++ gs) d := by
  obtain ⟨a, b, ha, hb, hj⟩ := h
  have get {α : Type} {xs ys : List α} {i : Nat} {x : α} (h : xs[i]? = some x) : (xs ++ ys)[i]? = some x := by
    rw [List.getElem?_append_left (List.getElem?_eq_some_iff.1 h).1, h]
  exact ⟨a, b, get ha, get hb, fun j hlt hle ↦ get (hj j hlt hle)⟩

theorem append_right (h : Delimits qs gs d) (hl : ps.length = fs.length) :
    Delimits (ps ++ qs) (fs ++ gs) d := by
  obtain ⟨a, b, ha, hb, hj⟩ := h
  refine ⟨ps.length + a, ps.length + b, ?_, ?_, fun j hlt hle ↦ ?_⟩
  · rw [List.getElem?_append_right (Nat.le_add_right _ _), Nat.add_sub_cancel_left, ha]
  · rw [List.getElem?_append_right (Nat.le_add_right _ _), Nat.add_sub_cancel_left, hb]
  · rw [List.getElem?_append_right (by omega), ← hl]
    exact hj _ (by omega) (by omega)

theorem cons (h : Delimits ps fs d) (p : Piece) (flag : Bool) : Delimits (p :: ps) (flag :: fs) d :=
  @append_right [p] ps [flag] fs d h rfl

theorem free (h : Delimits ps fs d) : Delimits ps (List.replicate ps.length true) d := by
  obtain ⟨a, b, ha, hb, -⟩ := h
  refine ⟨a, b, ha, hb, fun j _ hle ↦ ?_⟩
  have hlt := (List.getElem?_eq_some_iff.1 hb).1
  rw [List.getElem?_replicate, if_pos (Nat.lt_of_le_of_lt hle hlt)]

theorem brackets (openToken closeToken : Token) (flag : Bool) (ps : List Piece) :
    Delimits (.kept openToken :: (ps ++ [.kept closeToken]))
      (flag :: List.replicate (ps.length + 1) true) (openToken, closeToken) := by
  refine ⟨0, ps.length + 1, rfl, ?_, fun j hlt hle ↦ ?_⟩
  · rw [List.getElem?_cons_succ, List.getElem?_concat_length]
  · obtain ⟨i, rfl⟩ : ∃ i, j = i + 1 := ⟨j - 1, by omega⟩
    rw [List.getElem?_cons_succ, List.getElem?_replicate, if_pos (by omega)]

theorem inside (h : Delimits ps fs d) (openToken closeToken : Token) (flag : Bool) :
    Delimits (.kept openToken :: (ps ++ [.kept closeToken]))
      (flag :: List.replicate (ps.length + 1) true) d := by
  have hinside := h.free.append_left [.kept closeToken] [true]
  rw [← List.replicate_succ'] at hinside
  exact hinside.cons _ _

theorem suffix {openToken closeToken : Token} {ds : List (Token × Token)}
    (hd : d ∈ (openToken, closeToken) :: ds) (h : ∀ d ∈ ds, ∃ fs, Delimits ps fs d)
    (hl : qs.length = gs.length) :
    Delimits (qs ++ .kept openToken :: (ps ++ [.kept closeToken]))
      (gs ++ false :: List.replicate (ps.length + 1) true) d := by
  refine append_right ?_ hl
  rcases List.mem_cons.1 hd with rfl | hd
  · exact brackets _ _ _ _
  · obtain ⟨fs, hi⟩ := h d hd
    exact hi.inside _ _ _

end Delimits

namespace Expr

theorem delimits_arguments {arguments : List Expr}
    (h : ∀ a ∈ arguments, ∀ d ∈ a.delimiters, Delimits a.pieces a.mayBreak d) :
    ∀ d ∈ argumentDelimiters arguments, ∃ fs, Delimits (argumentPieces arguments) fs d := by
  induction arguments with
  | nil => simp [argumentDelimiters]
  | cons a arguments ih =>
    obtain ⟨ha, harguments⟩ := List.forall_mem_cons.1 h
    intro d hd
    rw [argumentDelimiters, List.mem_append] at hd
    cases arguments with
    | nil =>
      rw [argumentDelimiters, List.mem_nil_iff, or_false] at hd
      rw [argumentPieces]
      exact ⟨_, ha d hd⟩
    | cons a' arguments =>
      rw [argumentPieces_cons (List.cons_ne_nil _ _)]
      rcases hd with hd | hd
      · exact ⟨_, (ha d hd).append_left _ []⟩
      · obtain ⟨fs, hfs⟩ := ih harguments d hd
        exact ⟨_, (hfs.cons _ false).append_right (List.length_replicate (a := true)).symm⟩

theorem delimits {e : Expr} : ∀ d ∈ e.delimiters, Delimits e.pieces e.mayBreak d := by
  induction e with
  | literal | var => simp [delimiters]
  | assignment operator target value ih =>
    intro d hd
    rw [pieces, mayBreak]
    refine Delimits.append_right ?_ (List.length_map _).symm
    exact (ih d (by rwa [delimiters] at hd)).cons _ _
  | binary operator left right ihl ihr =>
    intro d hd
    rw [delimiters, List.mem_append] at hd
    rw [pieces, mayBreak]
    rcases hd with hd | hd
    · exact (ihl d hd).append_left _ _
    · refine Delimits.append_right ?_ left.length_mayBreak.symm
      exact (ihr d hd).cons _ _
  | unary operator operand ih =>
    intro d hd
    rw [pieces, mayBreak]
    exact (ih d (by rwa [delimiters] at hd)).cons _ _
  | call callee openToken arguments closeToken ihf iha =>
    intro d hd
    rw [delimiters, List.mem_append] at hd
    rw [pieces, mayBreak]
    rcases hd with hd | hd
    · exact (ihf d hd).append_left _ _
    · exact .suffix hd (delimits_arguments iha) callee.length_mayBreak.symm
  | index target openToken i closeToken iht ih =>
    intro d hd
    rw [delimiters, List.mem_append] at hd
    rw [pieces, mayBreak]
    rcases hd with hd | hd
    · exact (iht d hd).append_left _ _
    · exact .suffix hd (fun d hd ↦ ⟨_, ih d hd⟩) target.length_mayBreak.symm
  | group openToken inner closeToken ih =>
    intro d hd
    rw [delimiters] at hd
    rw [pieces, mayBreak]
    exact @Delimits.suffix _ [] [] _ _ _ _ hd (fun d hd ↦ ⟨_, ih d hd⟩) rfl

end Expr

def FunctionHeader.between (f : FunctionHeader) : List Piece :=
  .kept f.name.token :: .kept f.openParen ::
    (parameterPieces f.parameters ++ [.kept f.closeParen] ++ typePieces .arrow f.returnType)

theorem FunctionHeader.pieces_eq (f : FunctionHeader) :
    f.pieces = .kept f.keyword :: (f.between ++ [.kept f.bodyOpen]) := rfl

namespace Construct

def delimiters : Construct → List (Token × Token)
  | expression e | returnStatement _ (some e) => e.delimiters
  | function f => [(f.keyword, f.bodyOpen)]
  | openBrace _ | closeBrace _ | returnStatement _ none | passStatement _ | breakStatement _ => []

def mayBreak : Construct → List Bool
  | expression e => e.mayBreak
  | returnStatement _ (some e) => false :: e.mayBreak
  | function f => false :: List.replicate (f.between.length + 1) true
  | openBrace _ | closeBrace _ | returnStatement _ none | passStatement _ | breakStatement _ => [false]

theorem length_mayBreak (c : Construct) : c.mayBreak.length = c.pieces.length := by
  cases c with
  | expression e => exact e.length_mayBreak
  | function f => simp [mayBreak, pieces, FunctionHeader.pieces_eq]
  | returnStatement keyword value =>
    cases value with
    | none => rfl
    | some e => exact congrArg Nat.succ e.length_mayBreak
  | _ => rfl

theorem delimits {c : Construct} : ∀ d ∈ c.delimiters, Delimits c.pieces c.mayBreak d := by
  cases c with
  | expression e => exact e.delimits
  | function f =>
    intro d hd
    obtain rfl := List.mem_singleton.1 hd
    exact .brackets f.keyword f.bodyOpen false f.between
  | returnStatement keyword value =>
    cases value with
    | none => exact fun d hd ↦ nomatch hd
    | some e =>
      exact fun d hd ↦ (e.delimits d hd).cons _ _
  | _ => exact fun d hd ↦ nomatch hd

end Construct

namespace Program

def delimiters (p : Program) : List (Token × Token) := p.constructs.flatMap (·.delimiters)

def mayBreak (p : Program) : List Bool := p.constructs.flatMap (·.mayBreak)

theorem length_mayBreak (p : Program) : p.mayBreak.length = p.pieces.length := by
  obtain ⟨cs⟩ := p
  simp only [mayBreak, pieces, List.length_flatMap, Construct.length_mayBreak]

theorem delimits {p : Program} : ∀ d ∈ p.delimiters, Delimits p.pieces p.mayBreak d := by
  obtain ⟨cs⟩ := p
  simp only [delimiters, pieces, mayBreak]
  induction cs with
  | nil => simp
  | cons c cs ih =>
    intro d hd
    rw [List.flatMap_cons, List.mem_append] at hd
    rw [List.flatMap_cons, List.flatMap_cons]
    rcases hd with hd | hd
    · exact (c.delimits d hd).append_left _ _
    · exact (ih d hd).append_right c.length_mayBreak.symm

end Program

end Linewise
