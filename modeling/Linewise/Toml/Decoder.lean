import Linewise.Toml.Value

namespace Linewise.Toml

namespace Value

/-- The key under which a date or time stands when a record is wanted. -/
def datetimeKey : String := "$__toml_private_datetime"

def entries? : Value → Option Entries
  | table _ entries => some entries
  | datetime text => some [(datetimeKey, string text)]
  | _ => none

def items? : Value → Option (List Value)
  | array _ items => some items
  | _ => none

def offer (v : Value) (i : Nat) (name : String) : Option Value :=
  match v.entries?, v.items? with
  | some entries, _ => entries.get? name
  | none, some items => items[i]?
  | none, none => none

end Value

structure Field (ε σ : Type) where
  name : String
  {α : Type}
  read : Value → Except ε α
  get : σ → α
  put : σ → α → σ
  get_put (s : σ) (a : α) : get (put s a) = a

/-- What is declared of a record: its fields, the record that absent fields are taken from, and whether keys that are
no fields are refused. -/
structure Schema (ε σ : Type) where
  name : String
  fields : List (Field ε σ)
  default : σ
  closed : Bool
  distinct : (fields.map (·.name)).Nodup
  get_put_of_ne : ∀ f ∈ fields, ∀ g ∈ fields, f.name ≠ g.name → ∀ s a, g.get (f.put s a) = g.get s
  ext : ∀ s s', (∀ f ∈ fields, f.get s = f.get s') → s = s'

/-- What a library for documents gives: the entries of a document, and what values stand for. -/
structure Decoder (ε : Type) where
  document : String → Except ε Entries
  boolean : Value → Except ε Bool
  count : Value → Except ε Nat
  record {σ : Type} : Schema ε σ → Value → Except ε σ

end Linewise.Toml
