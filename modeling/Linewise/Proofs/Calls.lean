import Linewise.Proofs.Upcoming

namespace Linewise

def finalState {ε σ α : Type} : EStateM.Result ε σ α → σ
  | .ok _ s => s
  | .error _ s => s

namespace Lexer

inductive Call where
  | advanceLine (force : Bool)
  | readChar (skipBlanks : Bool)
  | unreadChar
  | readToken (acrossLines : Bool)
  | unreadToken
  | clearTokens
deriving DecidableEq, Repr

namespace Call

def onTokens : Call → Bool
  | readToken _ | unreadToken | clearTokens => true
  | advanceLine _ | readChar _ | unreadChar => false

end Call

inductive Reply where
  /-- Whether there was what the caller asked for. -/
  | found (b : Bool)
  | done
  | failed (e : LexicalError)
  /-- The state does not allow the call. -/
  | refused (e : InternalError)
deriving DecidableEq, Repr

namespace Reply

def goesOn : Reply → Bool
  | found _ | done => true
  | failed _ | refused _ => false

end Reply

def reply (s : Lexer) : Call → Reply × Lexer
  | .advanceLine force => let (b, t) := s.advanceLine force; (.found b, t)
  | .readChar skipBlanks => let (b, t) := s.readChar skipBlanks; (.found b, t)
  | .unreadChar => match s.unreadChar with
    | .ok t => (.done, t)
    | .error e => (.refused e, s)
  | .readToken acrossLines => match s.readToken acrossLines with
    | .ok b t => (.found b, t)
    | .error e t => (.failed e, t)
  | .unreadToken => match s.unreadToken with
    | .ok t => (.done, t)
    | .error e => (.refused e, s)
  | .clearTokens => (.done, s.clearTokens)

/-- Calls one after the other, each noted with its reply. None of them fails. -/
inductive Runs : Lexer → List (Call × Reply) → Lexer → Prop
  | nil {s : Lexer} : Runs s [] s
  | cons {s t u : Lexer} {call : Call} {r : Reply} {trace : List (Call × Reply)} :
      s.reply call = (r, t) → r.goesOn = true → Runs t trace u → Runs s ((call, r) :: trace) u

theorem Runs.cons_reply {s u : Lexer} {call : Call} {r : Reply} {trace : List (Call × Reply)}
    (hr : (s.reply call).1 = r) (hgoes : r.goesOn = true) (h : Runs (s.reply call).2 trace u) :
    Runs s ((call, r) :: trace) u :=
  .cons (Prod.ext hr rfl) hgoes h

/-- The property of a state is kept whatever is found next, and on the way to a later line. -/
structure Persistent (P : Lexer → Prop) : Prop where
  lineEnd {s t : Lexer} : P s → s.find = .lineEnd t → P t
  laterLine {s t u : Lexer} {b : Bool} : P s → s.find = .lineEnd t → advanceLine false t = (b, u) → P u
  failure {s t : Lexer} {e : LexicalError} : P s → s.find = .failure e t → P t
  comment {s t : Lexer} : P s → s.find = .comment t → P t
  token {s t : Lexer} {token : Token} :
    P s → s.find = .token token t → P { t with tokens := t.tokens.push token }

namespace Persistent

variable {P : Lexer → Prop} (hP : Persistent P) {s t : Lexer} {acrossLines : Bool}
include hP

theorem again (h : P s) (ha : attempt acrossLines s = .again t) : P t := by
  rcases find_of_again ha with hf | ⟨u, hf, hu⟩
  · exact hP.comment h hf
  · exact hP.laterLine h hf hu

theorem done {result : EStateM.Result LexicalError Lexer Bool} (h : P s)
    (hd : attempt acrossLines s = .done result) : P (finalState result) := by
  rcases find_of_done hd with ⟨t, hf, rfl | ⟨u, hu, rfl⟩⟩ | ⟨e, t, hf, rfl⟩ | ⟨token, t, hf, rfl⟩
  · exact hP.lineEnd h hf
  · exact hP.laterLine h hf hu
  · exact hP.failure h hf
  · exact hP.token h hf

/-- By induction on the line ends and comments that are passed over. -/
theorem pull (h : P s) (acrossLines : Bool) : P (finalState (pull acrossLines s)) := by
  fun_induction Lexer.pull acrossLines s with
  | case1 s result hd => exact hP.done h hd
  | case2 s u ha ih => exact ih (hP.again h ha)

end Persistent

end Lexer

end Linewise
