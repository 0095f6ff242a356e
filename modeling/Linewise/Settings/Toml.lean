import Linewise.Decimal.Shortest
import Linewise.Settings.Schema
import Linewise.Text.Quoted
import Linewise.Toml.Document

namespace Linewise

namespace Toml

def Value.describe : Value → String
  | string s => "string " ++ Text.quote s
  | integer n => "integer `" ++ toString n ++ "`"
  | float x => "floating point `" ++ x.toText ++ "`"
  | boolean b => "boolean `" ++ toString b ++ "`"
  | array .. => "sequence"
  | table .. | datetime _ => "map"

def boolOf (v : Value) : Except SettingsError Bool :=
  match v with
  | .boolean b => .ok b
  | v => .error (.wrongType v.describe "a boolean")

def countOf (v : Value) : Except SettingsError Nat :=
  match v with
  | .integer n => if n < 0 then .error (.outOfRange n) else .ok n.toNat
  | v => .error (.wrongType v.describe "usize")

variable {σ : Type}

def Field.set (f : Field SettingsError σ) (s : σ) (v : Value) : Except SettingsError σ := do
  return f.put s (← f.read v)

namespace Schema

def setNamed (S : Schema SettingsError σ) : σ → Entries → Except SettingsError σ
  | s, [] => .ok s
  | s, (key, value) :: more =>
    match S.fields.find? (·.name = key) with
    | none =>
      if S.closed then .error (.unknownField key (S.fields.map (·.name))) else setNamed S s more
    | some f => do setNamed S (← f.set s value) more

def setInOrder : List (Field SettingsError σ) → σ → List Value → Except SettingsError σ
  | f :: fields, s, value :: values => do setInOrder fields (← f.set s value) values
  | _, s, _ => .ok s

/-- The record that a value gives. In place of a table with named fields an array of them in order will do, and what
it has more is not looked at. -/
def read (S : Schema SettingsError σ) (v : Value) : Except SettingsError σ :=
  match v.entries?, v.items? with
  | some entries, _ => S.setNamed S.default entries
  | none, some items => setInOrder S.fields S.default items
  | none, none => .error (.wrongType v.describe ("struct " ++ S.name))

end Schema

def decoder : Decoder SettingsError where
  document text := match parse text with
    | none => .error .malformed
    | some entries => .ok entries
  boolean := boolOf
  count := countOf
  record := Schema.read

end Toml

def Settings.ofToml (text : String) : Except SettingsError Settings := Settings.decode Toml.decoder text

end Linewise
