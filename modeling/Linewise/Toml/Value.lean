import Linewise.Decimal.Binary64

namespace Linewise.Toml

inductive Origin where
  /-- It has a header of its own. -/
  | header
  /-- It is only named as a part of longer headers. -/
  | implied
  /-- It is named by a dotted key. -/
  | dotted
  /-- It is written between braces. -/
  | inline
deriving DecidableEq, Repr

inductive Value where
  | string (value : String)
  | integer (value : Int)
  | float (value : Decimal.Binary64)
  | boolean (value : Bool)
  | datetime (text : String)
  /-- An array, and whether it is one of tables with headers. -/
  | array (ofTables : Bool) (items : List Value)
  | table (origin : Origin) (entries : List (String × Value))
deriving Repr

abbrev Entries := List (String × Value)

namespace Entries

def get? (entries : Entries) (key : String) : Option Value := entries.lookup key

def replace (entries : Entries) (key : String) (value : Value) : Entries :=
  entries.map fun e ↦ if e.1 = key then (key, value) else e

def erase (entries : Entries) (key : String) : Entries := entries.filter (·.1 ≠ key)

def add (entries : Entries) (key : String) (value : Value) : Entries := entries ++ [(key, value)]

end Entries

end Linewise.Toml
