import Linewise.Settings.Basic
import Linewise.Toml.Decoder

namespace Linewise

/-- A settings file. What it holds besides is for other programs. -/
structure SettingsFile where
  frontend : Settings := {}
deriving DecidableEq, Repr

open Toml

variable {ε : Type}

def Display.schema (D : Decoder ε) : Schema ε Display where
  name := "DiagnosticsConfig"
  fields := [
    ⟨"color", D.boolean, Display.color, fun d b ↦ { d with color := b }, fun _ _ ↦ rfl⟩,
    ⟨"unicode", D.boolean, Display.unicode, fun d b ↦ { d with unicode := b }, fun _ _ ↦ rfl⟩,
    ⟨"context_lines", D.count, Display.contextLines, fun d n ↦ { d with contextLines := n }, fun _ _ ↦ rfl⟩]
  default := {}
  closed := true
  distinct := by simp
  get_put_of_ne := by simp
  ext := by
    rintro ⟨color, unicode, lines⟩ ⟨color', unicode', lines'⟩ h
    simpa using h

def Settings.schema (D : Decoder ε) : Schema ε Settings where
  name := "FrontendConfig"
  fields := [
    ⟨"keep_comments", D.boolean, Settings.keepComments, fun s b ↦ { s with keepComments := b }, fun _ _ ↦ rfl⟩,
    ⟨"diagnostics", D.record (Display.schema D), Settings.diagnostics, fun s d ↦ { s with diagnostics := d },
      fun _ _ ↦ rfl⟩]
  default := {}
  closed := true
  distinct := by simp
  get_put_of_ne := by simp
  ext := by
    rintro ⟨keep, display⟩ ⟨keep', display'⟩ h
    simpa using h

def SettingsFile.schema (D : Decoder ε) : Schema ε SettingsFile where
  name := "ConfigFile"
  fields := [⟨"frontend", D.record (Settings.schema D), SettingsFile.frontend, fun _ s ↦ ⟨s⟩, fun _ _ ↦ rfl⟩]
  default := {}
  closed := false
  distinct := by simp
  get_put_of_ne := by simp
  ext := by
    rintro ⟨frontend⟩ ⟨frontend'⟩ h
    simpa using h

def Settings.decode (D : Decoder ε) (text : String) : Except ε Settings := do
  let document ← D.document text
  (D.record (SettingsFile.schema D) (.table .header document)).map (·.frontend)

end Linewise
