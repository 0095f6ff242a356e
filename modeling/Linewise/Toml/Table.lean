import Linewise.Toml.Value

namespace Linewise.Toml

structure Table where
  origin : Origin
  entries : Entries

/-- Applies `f` to the table at a path, and makes the tables on the way that do not exist yet. The
last table of an array of tables stands for the array. -/
def within {α : Type} (dotted : Bool) (f : Table → Option (α × Table)) :
    List String → Table → Option (α × Table)
  | [], t => f t
  | key :: path, t =>
    match t.entries.get? key with
    | none => do
      let (a, ⟨origin, entries⟩) ← within dotted f path ⟨if dotted then .dotted else .implied, []⟩
      return (a, { t with entries := t.entries.add key (.table origin entries) })
    | some (.table origin entries) =>
      let closed := origin == .inline || (dotted && origin == .header)
      if closed then none
      else do
        let (a, ⟨origin, entries⟩) ← within dotted f path ⟨origin, entries⟩
        return (a, { t with entries := t.entries.replace key (.table origin entries) })
    | some (.array true items) => match items.getLast? with
      | some (.table origin entries) => do
        let (a, ⟨origin, entries⟩) ← within dotted f path ⟨origin, entries⟩
        let items := items.dropLast ++ [.table origin entries]
        return (a, { t with entries := t.entries.replace key (.array true items) })
      | _ => none
    | some _ => none

/-- Adds a key with its value. A dotted key only goes into a table that dotted keys have made. -/
def Table.insert (path : List String) (key : String) (value : Value) (t : Table) : Option Table :=
  (within true (fun u ↦
    if (!path.isEmpty && u.origin != .dotted) || (u.entries.get? key).isSome then none
    else some ((), { u with entries := u.entries.add key value })) path t).map (·.2)

end Linewise.Toml
