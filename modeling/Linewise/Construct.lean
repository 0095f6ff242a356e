import Linewise.Expr

namespace Linewise

structure Parameter where
  name : Identifier
  type : Option Identifier
deriving DecidableEq, Repr

structure FunctionHeader where
  keyword : Token
  name : Identifier
  openParen : Token
  parameters : List Parameter
  closeParen : Token
  returnType : Option Identifier
  bodyOpen : Token
deriving DecidableEq, Repr

namespace FunctionHeader

def span (f : FunctionHeader) : Span := f.keyword.span.merge f.bodyOpen.span

end FunctionHeader

inductive Construct where
  | expression (e : Expr)
  | openBrace (brace : Token)
  | closeBrace (brace : Token)
  | function (header : FunctionHeader)
  | returnStatement (keyword : Token) (value : Option Expr)
  | passStatement (keyword : Token)
  | breakStatement (keyword : Token)
deriving Repr

namespace Construct

def token : Construct → Token
  | expression e => e.token
  | function f => f.keyword
  | openBrace t | closeBrace t | returnStatement t _ | passStatement t | breakStatement t => t

def span : Construct → Span
  | expression e => e.span
  | function f => f.span
  | returnStatement keyword (some value) => keyword.span.merge value.span
  | openBrace t | closeBrace t | returnStatement t none | passStatement t | breakStatement t =>
    t.span

def description : Construct → String
  | expression e => e.description
  | openBrace _ => "open curly brace"
  | closeBrace _ => "close curly brace"
  | function _ => "function definition"
  | returnStatement .. => "return"
  | passStatement _ => "pass"
  | breakStatement _ => "break"

end Construct

structure Program where
  constructs : List Construct
deriving Repr

namespace Program

def isEmpty (p : Program) : Bool := p.constructs.isEmpty

def span? (p : Program) : Option Span :=
  match p.constructs.head?, p.constructs.getLast? with
  | some first, some last => some (first.span.merge last.span)
  | _, _ => none

def functions (p : Program) : List FunctionHeader :=
  p.constructs.filterMap fun
    | .function header => some header
    | _ => none

end Program

end Linewise
