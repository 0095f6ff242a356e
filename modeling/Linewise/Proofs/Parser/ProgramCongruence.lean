import Linewise.Proofs.Parser.Congruence

namespace Linewise.Parser

variable {g : Span → Span} {d n : Nat} {fuel fuel' : Nat}

namespace Action

theorem expressionStatement_corresponds (hg : Uniform g) (hf : n ≤ fuel) (hf' : n ≤ fuel') :
    Corresponds g n (n - 1) (Expr.relocate g) (expressionStatement fuel) (expressionStatement fuel') := by
  refine (expression_corresponds hg fuel fuel' n (by omega) 0).bind fun e ↦ ?_
  exact expectStatementEnd_corresponds.bind fun _ ↦ .pure (Nat.le_refl _)

theorem parameterType_corresponds :
    Corresponds g n n (Option.map (Identifier.relocate g)) parameterType parameterType := by
  refine (matchToken_corresponds .colon true).bind fun colon ↦ ?_
  cases colon with
  | none => exact .pure (a := none) (Nat.le_refl n)
  | some colon =>
    refine (expectToken_corresponds _).bind fun t ↦ ?_
    rw [Token.identifier?_relocate]
    cases t.identifier? with
    | some name => exact .pure (a := some name) (Nat.sub_le n 1)
    | none => exact .failExpected _ t

def relocateParameters (g : Span → Span) (r : List Parameter × Token) : List Parameter × Token :=
  (r.1.map (Parameter.relocate g), r.2.relocate g)

theorem parameters_corresponds (hf : n ≤ fuel) (hf' : n ≤ fuel') (slot : ParameterSlot) :
    Corresponds g n n (relocateParameters g) (parameters fuel slot) (parameters fuel' slot) := by
  induction fuel generalizing n fuel' slot with
  | zero => exact .of_le_zero hf
  | succ fuel ih =>
    cases fuel' with
    | zero => exact .of_le_zero hf'
    | succ fuel' =>
      refine (expectToken_corresponds _).bind fun t ↦ ?_
      have more (slot : ParameterSlot) := (ih (show n - 1 ≤ fuel by omega)
        (show n - 1 ≤ fuel' by omega) slot).mono (Nat.le_refl _) (Nat.sub_le n 1)
      have parameter (text : String) : Corresponds g (n - 1) n (relocateParameters g)
          (parametersFrom fuel ⟨text, t.span⟩) (parametersFrom fuel' ⟨text, g t.span⟩) := by
        refine parameterType_corresponds.bind fun type ↦ (more _).bind fun r ↦ ?_
        exact .pure (a := (⟨⟨text, t.span⟩, type⟩ :: r.1, r.2)) (Nat.le_refl n)
      dsimp only [Token.relocate_kind]
      cases t.kind with
      | closeParen =>
        cases slot with
        | name => exact .failExpected _ t
        | _ => exact .pure (a := ([], t)) (Nat.sub_le n 1)
      | comma =>
        cases slot with
        | commaOrClose => exact more .name
        | _ => exact .fail _ rfl
      | identifier text =>
        cases slot with
        | commaOrClose => exact .failExpected _ t
        | _ => exact parameter text
      | _ => cases slot <;> exact .failExpected _ t

theorem functionName_corresponds :
    Corresponds g n n (Identifier.relocate g) functionName functionName := by
  refine (expectToken_corresponds _).bind fun t ↦ ?_
  dsimp only [Token.relocate_kind]
  cases t.kind with
  | identifier text => exact .pure (a := Identifier.mk text t.span) (Nat.sub_le n 1)
  | keyword word => exact .fail _ rfl
  | _ => exact .failExpected _ t

theorem returnType_corresponds :
    Corresponds g n n (fun r ↦ (r.1.map (Identifier.relocate g), r.2.relocate g))
      returnType returnType := by
  refine (expectToken_corresponds _).bind fun t ↦ .ite ?_ ?_
  · refine (expectToken_corresponds _).bind fun type ↦ ?_
    rw [Token.identifier?_relocate]
    cases type.identifier? with
    | none => exact .failExpected _ type
    | some name =>
      refine (expectToken_corresponds _).bind fun bodyOpen ↦ ?_
      exact .pure (a := (some name, bodyOpen)) (by omega)
  · exact .pure (a := (none, t)) (Nat.sub_le n 1)

theorem functionHeader_corresponds (hf : n ≤ fuel) (hf' : n ≤ fuel') (keyword : Token) :
    Corresponds g n n (FunctionHeader.relocate g) (functionHeader fuel keyword)
      (functionHeader fuel' (keyword.relocate g)) := by
  have header (name : Identifier) (openParen : Token) (r : List Parameter × Token)
      (type : Option Identifier × Token) :=
    Corresponds.pure (g := g) (f := FunctionHeader.relocate g) (Nat.sub_le n 1)
      (a := ⟨keyword, name, openParen, r.1, r.2, type.1, type.2⟩)
  have rest (name : Identifier) (openParen : Token) : Corresponds g (n - 1) n (FunctionHeader.relocate g)
      (headerFrom fuel keyword name openParen)
      (headerFrom fuel' (keyword.relocate g) (name.relocate g) (openParen.relocate g)) := by
    refine (parameters_corresponds (n := n - 1) (by omega) (by omega) _).bind fun r ↦
      returnType_corresponds.bind fun type ↦ .ite ?_ ?_
    · exact (Corresponds.failExpected (f := id) _ type.2).bind fun _ ↦ header name openParen r type
    · exact header name openParen r type
  refine functionName_corresponds.bind fun name ↦
    (expectToken_corresponds _).bind fun openParen ↦ .ite ?_ (rest name openParen)
  exact (Corresponds.failExpected (f := id) _ openParen).bind fun _ ↦ rest name openParen

theorem returnStatement_corresponds (hg : Uniform g) (hf : n ≤ fuel) (hf' : n ≤ fuel')
    (keyword : Token) : Corresponds g n n (Construct.relocate g) (returnStatement fuel keyword)
      (returnStatement fuel' (keyword.relocate g)) := by
  have nothing : Corresponds g n n (Construct.relocate g)
      (do expectStatementEnd; return .returnStatement keyword none)
      (do expectStatementEnd; return .returnStatement (keyword.relocate g) none) :=
    expectStatementEnd_corresponds.bind fun _ ↦
      .pure (a := Construct.returnStatement keyword none) (Nat.le_refl n)
  refine .advance_bind nothing fun t ↦ .unread_bind (.ite nothing ?_)
  refine (expressionStatement_corresponds hg hf hf').bind fun e ↦ ?_
  exact .pure (a := Construct.returnStatement keyword (some e)) (Nat.sub_le n 1)

theorem keywordConstruct_corresponds (hg : Uniform g) (hf : n ≤ fuel) (hf' : n ≤ fuel')
    (keyword : Token) (word : String) :
    Corresponds g n n (Construct.relocate g) (keywordConstruct fuel keyword word)
      (keywordConstruct fuel' (keyword.relocate g) word) := by
  refine .ite ?_ (.ite ?_ (.ite ?_ (.ite ?_ ?_)))
  · exact (functionHeader_corresponds hf hf' keyword).bind fun f ↦
      .pure (a := Construct.function f) (Nat.le_refl n)
  · exact returnStatement_corresponds hg hf hf' keyword
  · exact expectStatementEnd_corresponds.bind fun _ ↦
      .pure (a := Construct.passStatement keyword) (Nat.le_refl n)
  · exact expectStatementEnd_corresponds.bind fun _ ↦
      .pure (a := Construct.breakStatement keyword) (Nat.le_refl n)
  · exact .fail _ rfl

theorem construct_corresponds (hg : Uniform g) (hf : n ≤ fuel) (hf' : n ≤ fuel') (t : Token) :
    CorrespondsAfter t g (n - 1) (n - 1) (Construct.relocate g) (construct fuel t)
      (construct fuel' (t.relocate g)) := by
  have other (k : TokenKind) : CorrespondsAfter t g (n - 1) (n - 1) (Construct.relocate g)
      (if startsExpression k then do
          unread
          return .expression (← expressionStatement fuel)
        else fail (.unexpected k.describe) (some t.span))
      (if startsExpression k then do
          unread
          return .expression (← expressionStatement fuel')
        else fail (.unexpected k.describe) (some (t.relocate g).span)) := by
    refine .ite (.unread_bind ?_) (Corresponds.after (.fail _ rfl) t)
    exact (expressionStatement_corresponds hg hf hf').bind fun e ↦
      .pure (a := Construct.expression e) (Nat.le_refl _)
  unfold construct
  dsimp only [Token.relocate_kind]
  cases t.kind with
  | keyword word =>
    exact (keywordConstruct_corresponds hg (by omega) (by omega) t word).after t
  | openCurlyBrace => exact (Corresponds.pure (a := Construct.openBrace t) (Nat.le_refl _)).after t
  | closeCurlyBrace => exact (Corresponds.pure (a := Construct.closeBrace t) (Nat.le_refl _)).after t
  | _ => exact other _

theorem next_bind {α : Type} {f : α → α} {m : Nat} {k k' : Bool → Action α} (hg : Uniform g)
    (hf : n ≤ fuel) (hf' : n ≤ fuel') (hfalse : Corresponds g n m f (k false) (k' false))
    (htrue : Corresponds g (n - 1) m f (k true) (k' true)) :
    Corresponds g n m f (next fuel >>= k) (next fuel' >>= k') := by
  simp only [next, bind_assoc]
  refine (Corresponds.modify fun d p q hpq ↦ ?_).bind fun _ ↦ .advance_bind ?_ fun t ↦ ?_
  · refine { hpq with upcoming := ?_, length_lt := ?_, tokens := ?_, openDelimiters := rfl }
    · exact (upcoming_begun q).trans (hpq.upcoming.trans (congrArg _ (upcoming_begun p).symm))
    · exact Nat.lt_of_le_of_lt (Nat.le_of_eq (congrArg _ (upcoming_begun p))) hpq.length_lt
    · exact Array.map_empty.symm
  · simpa only [pure_bind] using hfalse
  · simp only [bind_assoc, pure_bind]
    refine (construct_corresponds hg hf hf' t).bind fun c ↦ (Corresponds.bind (f := fun _ ↦ ()) ?_) fun _ ↦ htrue
    intro d p q hpq
    exact .ok { hpq with result := rfl }

theorem next_corresponds (hg : Uniform g) (hf : n ≤ fuel) (hf' : n ≤ fuel') :
    Corresponds g n n id (next fuel) (next fuel') := by
  have h : Corresponds g n n id (next fuel >>= pure) (next fuel' >>= pure) :=
    next_bind hg hf hf' (.pure (a := false) (Nat.le_refl n)) (.pure (a := true) (Nat.sub_le n 1))
  simpa only [bind_pure] using h

theorem takeResult_corresponds :
    Corresponds g n n (Option.map (Construct.relocate g)) takeResult takeResult := by
  intro d p q hpq
  have hq : takeResult q = .ok q.result { q with result := none } := rfl
  rw [hq, hpq.result]
  exact .ok { hpq with result := rfl }

theorem constructs_corresponds (hg : Uniform g) (hf : n ≤ fuel) (hf' : n ≤ fuel') :
    Corresponds g n n (List.map (Construct.relocate g)) (constructs fuel) (constructs fuel') := by
  induction fuel generalizing n fuel' with
  | zero => exact .of_le_zero hf
  | succ fuel ih =>
    cases fuel' with
    | zero => exact .of_le_zero hf'
    | succ fuel' =>
      refine next_bind hg hf hf' (.pure (a := []) (Nat.le_refl n)) ?_
      refine takeResult_corresponds.bind fun result ↦
        (ih (show n - 1 ≤ fuel by omega) (show n - 1 ≤ fuel' by omega)).bind fun more ↦ ?_
      have hmap : (result.toList ++ more).map (Construct.relocate g) =
          (result.map (Construct.relocate g)).toList ++ more.map (Construct.relocate g) := by
        cases result <;> rfl
      rw [← hmap]
      exact .pure (Nat.sub_le n 1)

end Action

variable {p q : Parser}

theorem Alike.refl (p : Parser) : Alike id p.nestingDepth (p.upcoming.length + 1) p p where
  upcoming := by rw [Upcoming.relocate_id, List.map_id]
  length_lt := Nat.lt_succ_self _
  tokens := by rw [Token.relocate_id, Array.map_id]
  result := by rw [Construct.relocate_id, Option.map_id, id]
  openDelimiters := rfl
  depth := rfl
  depth_right := rfl
  nestingLimit := rfl

theorem length_lt_fuel (p : Parser) : p.upcoming.length + 1 ≤ p.fuel :=
  Nat.succ_le_succ p.lexer.length_upcoming_le

theorem Agree.ne_internal {α : Type} {f : α → α} {r r' : EStateM.Result (Failure SyntaxError) Parser α}
    (h : Agree g d n f r r') (e : InternalError) (p : Parser) : r ≠ .error (.internal e) p := by
  rintro rfl
  cases h

/-- Whatever the parser was used for before, even if it failed, the next call ends with a construct, the
end of the text or an error in the text. -/
theorem next_ne_internal (p q : Parser) (e : InternalError) : p.next ≠ .error (.internal e) q :=
  (Action.next_corresponds uniform_id p.length_lt_fuel p.length_lt_fuel _ _ _ (.refl p)).ne_internal e q

/-- Parsers that are alike give the same program or the same error, up to places. -/
theorem Alike.program_eq (hg : Uniform g) (h : Alike g d n p q) :
    q.program = (p.program.map (Program.relocate g)).mapError (Failure.map (SyntaxError.relocate g)) := by
  have hl : q.upcoming.length = p.upcoming.length := by rw [h.upcoming, List.length_map]
  have hf : p.upcoming.length + 1 ≤ q.fuel := hl ▸ q.length_lt_fuel
  have hpq := Action.constructs_corresponds hg p.length_lt_fuel hf d p q
    { h with length_lt := Nat.lt_succ_self _ }
  simp only [program]
  generalize Action.constructs p.fuel p = r at hpq
  generalize Action.constructs q.fuel q = r' at hpq
  cases hpq <;> rfl

theorem program_ne_internal (p : Parser) (e : InternalError) : p.program ≠ .error (.internal e) := by
  have hp := Action.constructs_corresponds uniform_id p.length_lt_fuel p.length_lt_fuel _ _ _ (.refl p)
  unfold program
  split
  · simp
  · next e' q h =>
    rintro ⟨⟩
    exact hp.ne_internal e q h

end Linewise.Parser

namespace Linewise

/-- Two texts in which the same lies ahead give the same result, up to places. -/
theorem parse_relocate {g : Span → Span} (hg : Uniform g) {source other : String}
    (h : (Lexer.ofSource other false).upcoming =
      (Lexer.ofSource source false).upcoming.map (Upcoming.relocate g)) :
    parse other =
      ((parse source).map (Program.relocate g)).mapError (Failure.map (SyntaxError.relocate g)) :=
  Parser.Alike.program_eq (p := .ofSource source) (q := .ofSource other) hg
    ⟨h, Nat.lt_succ_self _, Array.map_empty.symm, rfl, rfl, rfl, rfl, rfl⟩

/-- Two texts in which the same lies ahead give the same result. -/
theorem parse_congr {source other : String}
    (h : (Lexer.ofSource other false).upcoming = (Lexer.ofSource source false).upcoming) :
    parse other = parse source := by
  have hsame : (Lexer.ofSource other false).upcoming =
      (Lexer.ofSource source false).upcoming.map (Upcoming.relocate id) := by
    rw [h, Upcoming.relocate_id, List.map_id]
  rw [parse_relocate uniform_id hsame]
  cases parse source with
  | ok program => exact congrArg Except.ok program.relocate_id
  | error e =>
    cases e with
    | rejected e => exact congrArg (Except.error ∘ Failure.rejected) e.relocate_id
    | internal e => rfl

end Linewise
