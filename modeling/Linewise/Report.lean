import Linewise.Diagnostic
import Linewise.FileTree
import Linewise.Settings.Basic

namespace Linewise

open FileTree (Fault)

/-- What a user is told when a command on files fails, with the fault of the file system behind it. -/
inductive Report where
  | diagnostic (d : Diagnostic)
  | unreadableSource (p : Path) (cause : Fault)
  | unreadableDirectory (p : Path) (cause : Fault)
  | unknownEntry (reason : String)
  | notSource (p : Path)
  | noSuchPath (p : Path)
  | unreachableSettings (p : Path) (cause : Fault)
  | unreadableSettings (p : Path) (cause : Fault)
  | malformedSettings (p : Path) (cause : SettingsError)
deriving DecidableEq, Repr

namespace Report

def message : Report → String
  | diagnostic d => d.message
  | unreadableSource p _ => "Failed to read source file '" ++ p.text ++ "'"
  | unreadableDirectory p _ => "Failed to read directory '" ++ p.text ++ "'"
  | unknownEntry reason => reason
  | notSource p => "File '" ++ p.text ++ "' is not a .exl source file"
  | noSuchPath p => "Path '" ++ p.text ++ "' does not exist"
  | unreachableSettings p _ => "Failed to stat config '" ++ p.text ++ "'"
  | unreadableSettings p _ => "Failed to read config '" ++ p.text ++ "'"
  | malformedSettings p _ => "Failed to parse config '" ++ p.text ++ "'"

end Report

end Linewise
