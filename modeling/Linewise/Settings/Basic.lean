namespace Linewise

structure Display where
  color : Bool := true
  unicode : Bool := true
  /-- The number of lines shown before and after the ones that an error is on. -/
  contextLines : Nat := 1
deriving DecidableEq, Repr

structure Settings where
  keepComments : Bool := false
  diagnostics : Display := {}
deriving DecidableEq, Repr

inductive SettingsError where
  | malformed
  | unknownField (field : String) (known : List String)
  | wrongType (found : String) (wanted : String)
  | outOfRange (found : Int)
deriving DecidableEq, Repr

namespace SettingsError

def enumerate (fields : List String) : String :=
  let quoted := fields.map fun f ↦ "`" ++ f ++ "`"
  match quoted with
  | [f, g] => f ++ " or " ++ g
  | _ => "one of " ++ ", ".intercalate quoted

def message? : SettingsError → Option String
  | malformed => none
  | unknownField field known =>
    some ("unknown field `" ++ field ++ "`, expected " ++ enumerate known)
  | wrongType found wanted => some ("invalid type: " ++ found ++ ", expected " ++ wanted)
  | outOfRange found =>
    some ("invalid value: integer `" ++ toString found ++ "`, expected usize")

end SettingsError

end Linewise
