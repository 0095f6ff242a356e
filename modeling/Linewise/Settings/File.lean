import Linewise.FileTree
import Linewise.Report
import Linewise.Settings.Toml

namespace Linewise.Settings

def fileName : String := "exeme.toml"

def read (t : FileTree) (p : Path) (base : List String := []) : Except Report Settings :=
  match t.text p base with
  | .error e => .error (.unreadableSettings p e)
  | .ok text => (ofToml text).mapError (.malformedSettings p)

/-- The settings of the project in a directory; one without a settings file has the defaults. -/
def ofProject (t : FileTree) (directory : Path) (base : List String := []) : Except Report Settings :=
  let p := directory.join fileName
  match t.find p base with
  | .ok _ => read t p base
  | .error .missing => .ok {}
  | .error e => .error (.unreachableSettings p e)

end Linewise.Settings
