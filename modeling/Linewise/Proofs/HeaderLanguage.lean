import Mathlib.Computability.Language
import Linewise.SyntaxError
import Linewise.Token

namespace Linewise

open scoped Computability

namespace HeaderLanguage

def one (P : TokenKind → Prop) : Language Token := {w : List Token | ∃ t, w = [t] ∧ P t.kind}

def symbol (kind : TokenKind) : Language Token := one (· = kind)

def name : Language Token := one fun kind ↦ ∃ text, kind = .identifier text

def parameter : Language Token := name * (1 + symbol .colon * name)

def header : Language Token :=
  name * symbol .openParen * (1 + parameter * (symbol .comma * parameter)∗) * symbol .closeParen *
    (1 + symbol .arrow * name) * symbol .openCurlyBrace

/-- The tokens begin some header. -/
def Viable (w : List Token) : Prop := ∃ more, w ++ more ∈ header

/-- The places in a header, by what has to follow there. -/
inductive Place where
  | name
  | openParen
  | firstParameter
  | nextParameter
  /-- After the name of a parameter, where its type may follow. -/
  | afterName
  | parameterType
  | afterType
  | afterParameters
  | returnType
  | bodyOpen
  | done
deriving DecidableEq

namespace Place

def step : Place → TokenKind → Option Place
  | name, .identifier _ => some openParen
  | openParen, .openParen => some firstParameter
  | firstParameter, .identifier _ | nextParameter, .identifier _ => some afterName
  | afterName, .colon => some parameterType
  | parameterType, .identifier _ => some afterType
  | afterName, .comma | afterType, .comma => some nextParameter
  | firstParameter, .closeParen | afterName, .closeParen | afterType, .closeParen => some afterParameters
  | afterParameters, .arrow => some returnType
  | returnType, .identifier _ => some bodyOpen
  | afterParameters, .openCurlyBrace | bodyOpen, .openCurlyBrace => some done
  | _, _ => none

def run (p : Place) (w : List Token) : Option Place := w.foldlM (fun p t ↦ p.step t.kind) p

@[simp]
theorem run_cons (p : Place) (t : Token) (w : List Token) :
    p.run (t :: w) = (p.step t.kind).bind (·.run w) := rfl

@[simp]
theorem run_append (p : Place) (v w : List Token) : p.run (v ++ w) = (p.run v).bind (·.run w) :=
  List.foldlM_append

def result : Language Token := (1 + symbol .arrow * HeaderLanguage.name) * symbol .openCurlyBrace

def more : Language Token := (symbol .comma * parameter)∗ * (symbol .closeParen * result)

def rest : Place → Language Token
  | name => header
  | openParen =>
    symbol .openParen * (1 + parameter * (symbol .comma * parameter)∗) * (symbol .closeParen * result)
  | firstParameter => (1 + parameter * (symbol .comma * parameter)∗) * (symbol .closeParen * result)
  | nextParameter => parameter * more
  | afterName => (1 + symbol .colon * HeaderLanguage.name) * more
  | parameterType => HeaderLanguage.name * more
  | afterType => more
  | afterParameters => result
  | returnType => HeaderLanguage.name * symbol .openCurlyBrace
  | bodyOpen => symbol .openCurlyBrace
  | done => 1

end Place

theorem kstar_mul (L M : Language Token) : L∗ * M = L * (L∗ * M) + M := by
  conv_lhs => rw [← Language.one_add_self_mul_kstar_eq_kstar, add_mul, one_mul, mul_assoc, add_comm]

theorem Place.more_eq : more = symbol .comma * (parameter * more) + symbol .closeParen * result := by
  conv_lhs => rw [more, kstar_mul, mul_assoc, ← more]

/-- From each place on a token may follow, and then what may follow from the next place on. -/
theorem Place.rest_eq (p : Place) : p.rest = match p with
    | name => HeaderLanguage.name * openParen.rest
    | openParen => symbol .openParen * firstParameter.rest
    | firstParameter => symbol .closeParen * afterParameters.rest + HeaderLanguage.name * afterName.rest
    | nextParameter => HeaderLanguage.name * afterName.rest
    | afterName => afterType.rest + symbol .colon * parameterType.rest
    | parameterType => HeaderLanguage.name * afterType.rest
    | afterType => symbol .comma * nextParameter.rest + symbol .closeParen * afterParameters.rest
    | afterParameters => symbol .openCurlyBrace * done.rest + symbol .arrow * returnType.rest
    | returnType => HeaderLanguage.name * bodyOpen.rest
    | bodyOpen => symbol .openCurlyBrace * done.rest
    | done => 1 := by
  cases p with
  | name => simp only [rest, header, result, mul_assoc]
  | openParen => simp only [rest, mul_assoc]
  | firstParameter => simp only [rest, parameter, more, add_mul, one_mul, mul_assoc]
  | nextParameter => simp only [rest, parameter, mul_assoc]
  | afterName => simp only [rest, add_mul, one_mul, mul_assoc]
  | afterType => exact more_eq
  | afterParameters => simp only [rest, result, add_mul, one_mul, mul_one, mul_assoc]
  | bodyOpen => simp only [rest, mul_one]
  | parameterType | returnType | done => rfl

theorem cons_mem_one_mul {P : TokenKind → Prop} {L : Language Token} {t : Token} {w : List Token} :
    t :: w ∈ one P * L ↔ P t.kind ∧ w ∈ L := by
  rw [Language.mem_mul]
  constructor
  · rintro ⟨_, ⟨t', rfl, ht⟩, v, hv, heq⟩
    obtain ⟨rfl, rfl⟩ := List.cons.inj heq
    exact ⟨ht, hv⟩
  · rintro ⟨ht, hw⟩
    exact ⟨[t], ⟨t, rfl, ht⟩, w, hw, rfl⟩

theorem nil_not_mem_one_mul {P : TokenKind → Prop} {L : Language Token} : [] ∉ one P * L := by
  rw [Language.mem_mul]
  rintro ⟨_, ⟨t, rfl, -⟩, v, -, heq⟩
  cases heq

theorem cons_mem_symbol_mul {kind : TokenKind} {L : Language Token} {t : Token} {w : List Token} :
    t :: w ∈ symbol kind * L ↔ t.kind = kind ∧ w ∈ L := cons_mem_one_mul

theorem cons_mem_name_mul {L : Language Token} {t : Token} {w : List Token} :
    t :: w ∈ name * L ↔ (∃ text, t.kind = .identifier text) ∧ w ∈ L := cons_mem_one_mul

namespace Place

theorem cons_mem_rest {p : Place} {t : Token} {w : List Token} :
    t :: w ∈ p.rest ↔ ∃ q ∈ p.step t.kind, w ∈ q.rest := by
  obtain ⟨kind, span⟩ := t
  rw [rest_eq]
  cases p with
  | done => simp [step]
  | afterName =>
    simp only [rest_eq afterType, Language.mem_add, cons_mem_symbol_mul]
    cases kind <;> simp [step]
  | _ =>
    simp only [Language.mem_add, cons_mem_symbol_mul, cons_mem_name_mul]
    cases kind <;> simp [step]

theorem nil_mem_rest {p : Place} : [] ∈ p.rest ↔ p = done := by
  rw [rest_eq]
  cases p with
  | done => simp
  | afterName =>
    simp only [rest_eq afterType, symbol, Language.mem_add, nil_not_mem_one_mul, or_self, reduceCtorEq]
  | _ => simp only [symbol, HeaderLanguage.name, Language.mem_add, nil_not_mem_one_mul, or_self, reduceCtorEq]

/-- The automaton takes just the words of the language from a place on to its end. -/
theorem mem_rest {p : Place} {w : List Token} : w ∈ p.rest ↔ p.run w = some done := by
  induction w generalizing p with
  | nil =>
    have hrun : p.run [] = some p := rfl
    rw [nil_mem_rest, hrun, Option.some.injEq]
  | cons t w ih => simp [cons_mem_rest, ih, Option.bind_eq_some_iff]

/-- From every place on a header can be finished. -/
theorem exists_finish (p : Place) : ∃ w, p.run w = some done := by
  have before {p q : Place} (kind : TokenKind) (hp : p.step kind = some q) (hq : ∃ w, q.run w = some done) :
      ∃ w, p.run w = some done := by
    obtain ⟨w, hw⟩ := hq
    refine ⟨⟨kind, .onLine 0 0 0⟩ :: w, ?_⟩
    rw [run_cons, hp]
    exact hw
  have hdone : ∃ w, done.run w = some done := ⟨[], rfl⟩
  have hbodyOpen := before (p := bodyOpen) .openCurlyBrace rfl hdone
  have hafter := before (p := afterParameters) .openCurlyBrace rfl hdone
  have hfirst := before (p := firstParameter) .closeParen rfl hafter
  have hafterName := before (p := afterName) .closeParen rfl hafter
  have hafterType := before (p := afterType) .closeParen rfl hafter
  have hopenParen := before (p := openParen) .openParen rfl hfirst
  cases p with
  | name => exact before (.identifier "") rfl hopenParen
  | openParen => exact hopenParen
  | firstParameter => exact hfirst
  | nextParameter => exact before (.identifier "") rfl hafterName
  | afterName => exact hafterName
  | parameterType => exact before (.identifier "") rfl hafterType
  | afterType => exact hafterType
  | afterParameters => exact hafter
  | returnType => exact before (.identifier "") rfl hbodyOpen
  | bodyOpen => exact hbodyOpen
  | done => exact hdone

def errorCode (p : Place) : TokenKind → ErrorCode
  | .keyword _ => if p = name then .P0004 else .P0001
  | .comma => if p = firstParameter ∨ p = nextParameter then .P0003 else .P0001
  | _ => .P0001

theorem step_ne_name {p q : Place} {kind : TokenKind} (h : p.step kind = some q) : q ≠ name := by
  unfold step at h
  split at h <;> cases h <;> decide

/-- The name of a parameter is expected after the bracket and after a comma. -/
theorem step_parameter {p q : Place} {kind : TokenKind} (h : p.step kind = some q) :
    q = firstParameter ∨ q = nextParameter ↔ kind = .openParen ∨ kind = .comma := by
  unfold step at h
  split at h <;> cases h <;> simp

end Place

theorem mem_header {w : List Token} : w ∈ header ↔ Place.name.run w = some .done :=
  Place.mem_rest (p := .name)

theorem viable_iff {w : List Token} : Viable w ↔ ∃ p, Place.name.run w = some p := by
  constructor
  · rintro ⟨more, hmore⟩
    rw [mem_header, Place.run_append] at hmore
    obtain ⟨p, hp, -⟩ := Option.bind_eq_some_iff.1 hmore
    exact ⟨p, hp⟩
  · rintro ⟨p, hp⟩
    obtain ⟨more, hmore⟩ := p.exists_finish
    refine ⟨more, ?_⟩
    rw [mem_header, Place.run_append, hp]
    exact hmore

theorem Viable.of_prefix {v w : List Token} (h : Viable w) (hv : v <+: w) : Viable v := by
  obtain ⟨more, hmore⟩ := h
  obtain ⟨u, rfl⟩ := hv
  exact ⟨u ++ more, List.append_assoc v u more ▸ hmore⟩

theorem not_viable_of_step {before : List Token} {p : Place} {t : Token} (h : Place.name.run before = some p)
    (ht : p.step t.kind = none) : ¬ Viable (before ++ [t]) := by
  rw [viable_iff, Place.run_append, h]
  simp [ht]

/-- The code of the error that a token makes with which the ones before it can no longer become a header:
a keyword for the name of the function, a comma for the name of a parameter, or any other. -/
def errorCode (before : List Token) : TokenKind → ErrorCode
  | .keyword _ => if before = [] then .P0004 else .P0001
  | .comma =>
    if ∃ last ∈ before.getLast?, last.kind = .openParen ∨ last.kind = .comma then .P0003 else .P0001
  | _ => .P0001

theorem errorCode_eq {before : List Token} {p : Place} (h : Place.name.run before = some p)
    (kind : TokenKind) : errorCode before kind = p.errorCode kind := by
  have hplace : (before = [] ↔ p = .name) ∧
      ((∃ last ∈ before.getLast?, last.kind = .openParen ∨ last.kind = .comma) ↔
        p = .firstParameter ∨ p = .nextParameter) := by
    rcases List.eq_nil_or_concat' before with rfl | ⟨front, last, rfl⟩
    · cases h
      simp
    · rw [Place.run_append] at h
      obtain ⟨q, -, hq⟩ := Option.bind_eq_some_iff.1 h
      obtain ⟨r, hr, hp⟩ := Option.bind_eq_some_iff.1 (Place.run_cons q last [] ▸ hq)
      cases hp
      simp [Place.step_ne_name hr, Place.step_parameter hr]
  cases kind with
  | keyword word => simp only [errorCode, Place.errorCode, hplace.1]
  | comma => simp only [errorCode, Place.errorCode, hplace.2]
  | _ => rfl

end HeaderLanguage

end Linewise
