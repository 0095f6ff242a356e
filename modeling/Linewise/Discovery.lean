import Linewise.FileTree
import Linewise.Report

namespace Linewise

def Path.isSource (p : Path) : Bool := p.extension? == some "exl"

namespace FileTree

def entrySources (inner : Path → Except Report (List Path)) (place : Path) :
    String × FileTree → Except Report (List Path)
  | (_, .link _) | (_, .special _) => .ok []
  | (_, .unknown reason) => .error (.unknownEntry reason)
  | (name, .directory ..) => inner (place.join name)
  | (name, .file _) => .ok (if (place.join name).isSource then [place.join name] else [])

/-- The source files below a path, in the order in which the directories list them. Each directory is read by
its path. On the way down the path gets longer, and one of `maxPathLength` bytes cannot be read, so a `room`
of so many steps is never used up. -/
def search (listing : Path → Except Fault (List (String × FileTree))) :
    Nat → Path → Except Report (List Path)
  | 0, place => .error (.unreadableDirectory place .badName)
  | room + 1, place =>
    match listing place with
    | .error e => .error (.unreadableDirectory place e)
    | .ok entries => (entries.mapM (entrySources (search listing room) place)).map List.flatten

def findSources (t : FileTree) (p : Path) (base : List String := []) : Except Report (List Path) :=
  match t.find p base with
  | .ok (.file _) => if p.isSource then .ok [p] else .error (.notSource p)
  | .ok (.directory ..) =>
    (search (t.listing · base) maxPathLength p).map (·.mergeSort Path.le)
  | _ => .error (.noSuchPath p)

end FileTree

end Linewise
