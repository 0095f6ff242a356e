import Linewise.Path

namespace Linewise

abbrev Content := Except String ByteArray

instance : Coe ByteArray Content := ⟨.ok⟩

/-- What the system says when an entry of a directory is looked up and when its entries are listed, where it
does not allow that. -/
structure Access where
  search : Option String := none
  list : Option String := none
deriving DecidableEq, Repr

inductive FileTree where
  | file (content : Content)
  | link (target : Path)
  | directory (access : Access) (entries : List (String × FileTree))
  /-- Such as a device or a socket, with what can be read from it. -/
  | special (content : Content)
  /-- An entry of which the system does not tell what it is. -/
  | unknown (reason : String)

namespace FileTree

def empty : FileTree := .directory {} []

def setEntry (name : String) (t : FileTree) :
    List (String × FileTree) → List (String × FileTree)
  | [] => [(name, t)]
  | (other, u) :: more =>
    if other = name then (name, t) :: more else (other, u) :: setEntry name t more

def update (f : FileTree → FileTree) : List String → FileTree → FileTree
  | [], t => f t
  | name :: names, t =>
    let (access, entries) := match t with
      | .directory access entries => (access, entries)
      | _ => ({}, [])
    .directory access (setEntry name (update f names ((entries.lookup name).getD empty)) entries)

inductive Fault where
  | missing
  | notDirectory
  | tooManyLinks
  | badName
  | refused (reason : String)
  | directory
  | notText
deriving DecidableEq, Repr

def maxNameLength : Nat := 255
def maxPathLength : Nat := 4096

def maxLinks : Nat := 40

/-- A tree, and the directories that it lies in, the innermost first. -/
structure Trail where
  here : FileTree
  above : List FileTree

namespace Trail

def parent : Trail → Trail
  | ⟨here, []⟩ => ⟨here, []⟩
  | ⟨_, around :: above⟩ => ⟨around, above⟩

inductive Step where
  | on (s : Trail)
  | link (target : Path)

def step (s : Trail) (part : List Char) : Except Fault Step :=
  match s.here with
  | .directory access entries =>
    if part = [] then .ok (.on s)
    else match access.search with
      | some reason => .error (.refused reason)
      | none => match Path.Component.ofText? part with
        | none => .ok (.on s)
        | some (.name name) =>
          if name.utf8ByteSize > maxNameLength then .error .badName
          else match entries.lookup name with
            | none => .error .missing
            | some (.link target) => .ok (.link target)
            | some (.unknown reason) => .error (.refused reason)
            | some t => .ok (.on ⟨t, s.here :: s.above⟩)
        | some _ => .ok (.on s.parent)
  | _ => .error .notDirectory

def walk (jump : Trail → Path → List (List Char) → Except Fault Trail) :
    Trail → List (List Char) → Except Fault Trail
  | s, [] => .ok s
  | s, part :: parts => match s.step part with
    | .error e => .error e
    | .ok (.on s') => walk jump s' parts
    | .ok (.link target) => jump s target parts

def follow (top : FileTree) : Nat → Trail → List (List Char) → Except Fault Trail
  | 0 => walk fun _ _ _ ↦ .error .tooManyLinks
  | links + 1 => walk fun s target parts ↦
    follow top links (if target.isAbsolute then ⟨top, []⟩ else s) (target.parts ++ parts)

def enter? : Trail → List String → Option Trail
  | s, [] => some s
  | ⟨.directory access entries, above⟩, name :: names =>
    match entries.lookup name with
    | some t => enter? ⟨t, .directory access entries :: above⟩ names
    | none => none
  | _, _ :: _ => none

end Trail

/-- Where a path begins: at the top of the tree, or in the working directory, to which the names in `base`
lead from the top. -/
def start? (t : FileTree) (p : Path) (base : List String) : Option Trail :=
  if p.isAbsolute then some ⟨t, []⟩ else Trail.enter? ⟨t, []⟩ base

/-- What a path leads to, which is no link. -/
def find (t : FileTree) (p : Path) (base : List String := []) : Except Fault FileTree :=
  if '\x00' ∈ p.text.toList ∨ maxPathLength ≤ p.text.utf8ByteSize then .error .badName
  else if p.text = "" then .error .missing
  else match t.start? p base with
    | none => .error .missing
    | some s => (s.follow t maxLinks p.parts).map (·.here)

def listing (t : FileTree) (p : Path) (base : List String := []) :
    Except Fault (List (String × FileTree)) :=
  match t.find p base with
  | .error e => .error e
  | .ok (.directory access entries) => match access.list with
    | some reason => .error (.refused reason)
    | none => .ok entries
  | .ok _ => .error .notDirectory

def text (t : FileTree) (p : Path) (base : List String := []) : Except Fault String :=
  match t.find p base with
  | .error e => .error e
  | .ok (.file content) | .ok (.special content) => match content with
    | .error reason => .error (.refused reason)
    | .ok bytes => match String.fromUTF8? bytes with
      | some text => .ok text
      | none => .error .notText
  | .ok _ => .error .directory

end FileTree

end Linewise
