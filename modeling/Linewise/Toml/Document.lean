import Linewise.Toml.Number
import Linewise.Toml.Table

namespace Linewise.Toml

def arrayItems (item : Reader Value) : Nat → Reader (List Value)
  | 0, _ => none
  | fuel + 1, text =>
    match skipLines false text with
    | ']' :: rest => some ([], rest)
    | text => do
      let (value, rest) ← item text
      match skipLines false rest with
      | ',' :: rest =>
        let (more, rest) ← arrayItems item fuel rest
        return (value :: more, rest)
      | ']' :: rest => return ([value], rest)
      | _ => none

def keyValue (item : Reader Value) : Reader (List String × Value) := fun text ↦ do
  let (path, rest) ← key text
  let (_, rest) ← expect '=' rest
  let (value, rest) ← item (skipSpaces rest)
  return ((path, value), rest)

def Table.insertAt (t : Table) (path : List String) (value : Value) : Option Table := do
  let key ← path.getLast?
  t.insert path.dropLast key value

def inlineEntries (item : Reader Value) : Nat → Table → Reader Entries
  | 0, _, _ => none
  | fuel + 1, t, text => do
    let ((path, value), rest) ← keyValue item text
    let t ← t.insertAt path value
    match skipSpaces rest with
    | ',' :: rest => inlineEntries item fuel t rest
    | '}' :: rest => return (t.entries, rest)
    | _ => none

def inlineTable (item : Reader Value) : Reader Value := fun text ↦
  match skipSpaces text with
  | '}' :: rest => some (.table .inline [], rest)
  | text => do
    let (entries, rest) ← inlineEntries item (text.length + 1) ⟨.inline, []⟩ text
    return (.table .inline entries, rest)

def scalar : Reader Value := fun text ↦
  match text with
  | '"' :: _ => (string '"' text).map fun (s, rest) ↦ (.string s, rest)
  | '\'' :: _ => (string '\'' text).map fun (s, rest) ↦ (.string s, rest)
  | 't' :: 'r' :: 'u' :: 'e' :: rest => some (.boolean true, rest)
  | 'f' :: 'a' :: 'l' :: 's' :: 'e' :: rest => some (.boolean false, rest)
  | _ => number text

/-- A value in which brackets nest at most so deep. -/
def value : Nat → Reader Value
  | 0, text => scalar text
  | depth + 1, text =>
    match text with
    | '[' :: rest => do
      let (items, rest) ← arrayItems (value depth) (rest.length + 1) rest
      return (.array false items, rest)
    | '{' :: rest => inlineTable (value depth) rest
    | _ => scalar text

/-- A document that is being read: the tables that are complete, and the one that takes keys. -/
structure Draft where
  root : Entries
  /-- The header of the current table, empty for the keys in front of the first header. -/
  path : List String
  /-- Whether the header is that of an array of tables. -/
  ofTables : Bool
  current : Entries

namespace Draft

def empty : Draft := ⟨[], [], false, []⟩

def close (d : Draft) : Option Entries := do
  match d.path.getLast? with
  | none => return d.current
  | some key =>
    let table := Value.table .header d.current
    let (_, root) ← within false (fun t ↦
      match t.entries.get? key with
      | some (.array true items) =>
        if d.ofTables then
          some ((), { t with entries := t.entries.replace key (.array true (items ++ [table])) })
        else none
      | some _ => none
      | none => some ((), { t with entries := t.entries.add key table }))
      d.path.dropLast ⟨.header, d.root⟩
    return root.entries

def openTable (d : Draft) (path : List String) : Option Draft := do
  let root ← d.close
  let key ← path.getLast?
  let (current, root) ← within false (fun t ↦
    match t.entries.get? key with
    | none => some ([], t)
    | some (.table .implied entries) => some (entries, { t with entries := t.entries.erase key })
    | some _ => none)
    path.dropLast ⟨.header, root⟩
  return ⟨root.entries, path, false, current⟩

def openArray (d : Draft) (path : List String) : Option Draft := do
  let root ← d.close
  let key ← path.getLast?
  let (_, root) ← within false (fun t ↦
    match t.entries.get? key with
    | none => some ((), { t with entries := t.entries.add key (.array true []) })
    | some (.array true _) => some ((), t)
    | some _ => none)
    path.dropLast ⟨.header, root⟩
  return ⟨root.entries, path, true, []⟩

def insert (d : Draft) (path : List String) (value : Value) : Option Draft := do
  let t ← Table.insertAt ⟨.header, d.current⟩ path value
  return { d with current := t.entries }

def line (d : Draft) (text : List Char) : Option (Draft × List Char) :=
  match skipSpaces text with
  | '[' :: '[' :: rest => do
    let (path, rest) ← key rest
    let (_, rest) ← expect ']' rest
    let (_, rest) ← expect ']' rest
    let d ← d.openArray path
    return (d, ← lineTail? rest)
  | '[' :: rest => do
    let (path, rest) ← key rest
    let (_, rest) ← expect ']' rest
    let d ← d.openTable path
    return (d, ← lineTail? rest)
  | text =>
    match lineTail? text with
    | some rest => some (d, rest)
    | none => do
      let ((path, value), rest) ← keyValue (value maxDepth) text
      let d ← d.insert path value
      return (d, ← lineTail? rest)

def lines : Nat → Draft → List Char → Option Entries
  | _, d, [] => d.close
  | 0, _, _ => none
  | fuel + 1, d, text => do
    let (d, rest) ← d.line text
    lines fuel d rest

end Draft

def parse (document : String) : Option Entries :=
  let text := match document.toList with
    | '\ufeff' :: rest => rest
    | text => text
  Draft.lines (text.length + 1) .empty text

end Linewise.Toml
