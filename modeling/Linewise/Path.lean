namespace Linewise

structure Path where
  text : String
deriving DecidableEq, Repr

namespace Path

inductive Component where
  | root
  /-- The directory in which the path begins, named at its front. -/
  | here
  | up
  | name (text : String)
deriving DecidableEq, Repr

namespace Component

def rank : Component → Nat
  | root => 0
  | here => 1
  | up => 2
  | name _ => 3

def text : Component → String
  | root => "/"
  | here => "."
  | up => ".."
  | name text => text

instance : Ord Component := ⟨compareLex (compareOn rank) (compareOn text)⟩

instance : Std.TransOrd Component :=
  inferInstanceAs (Std.TransCmp (compareLex (compareOn rank) (compareOn text)))

/-- What stands between two slashes; nothing, or a single dot, is no step. -/
def ofText? (text : List Char) : Option Component :=
  if text = [] ∨ text = ['.'] then none
  else if text = ['.', '.'] then some up
  else some (name (String.ofList text))

end Component

def parts (p : Path) : List (List Char) := p.text.toList.splitOn '/'

def isAbsolute (p : Path) : Bool := p.text.toList.head? == some '/'

def components (p : Path) : List Component :=
  let first := if p.isAbsolute then [.root] else if p.parts.head? = some ['.'] then [.here] else []
  first ++ p.parts.filterMap Component.ofText?

/-- Paths in the order of their components; a path stands before the paths that go on from it. -/
def le (p q : Path) : Bool := (compare p.components q.components).isLE

def join (p : Path) (name : String) : Path :=
  if p.text = "" ∨ p.text.toList.getLast? = some '/' then ⟨p.text ++ name⟩
  else ⟨p.text ++ "/" ++ name⟩

/-- The part of a name after its last dot; a name that begins with its only dot has none. -/
def extensionOf? (name : String) : Option String :=
  let (after, before) := name.toList.reverse.span (· ≠ '.')
  if before.length ≤ 1 then none else some (String.ofList after.reverse)

def extension? (p : Path) : Option String :=
  match p.components.getLast? with
  | some (.name name) => extensionOf? name
  | _ => none

theorem le_total (p q : Path) : (p.le q || q.le p) = true := by
  unfold le
  rw [Std.OrientedOrd.eq_swap (a := q.components)]
  cases compare p.components q.components <;> rfl

theorem le_trans (p q r : Path) (hpq : p.le q = true) (hqr : q.le r = true) : p.le r = true :=
  Std.TransOrd.isLE_trans hpq hqr

end Path

end Linewise
