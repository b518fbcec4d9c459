import PageLocalizer.Store
-- The settings of the dashboard and their file.
namespace PageLocalizer

structure EngineSettings where
  -- The preference that holds the chosen locale.
  storageKey : String
  -- The attribute of the document element that shows the active locale.
  localeAttribute : String
  -- Whether inserted elements are translated by themselves.
  observeMutations : Bool
  deriving Repr, DecidableEq

structure Settings where
  -- The locale forced at the start, whatever the preferences say.
  language : Option String
  engine : EngineSettings
  deriving Repr, DecidableEq

def EngineSettings.standard : EngineSettings :=
  { storageKey := "dashboard-locale", localeAttribute := "data-locale", observeMutations := true }

namespace Settings

open PageLocalizer.Toml

def standard : Settings := { language := none, engine := .standard }

def readGeneral (v : Value) : Option (Option String) := do
  match ← parts? ["language"] v with
  | [language] => part (fun v => v.string?.map some) none language
  | _ => none

def readEngine (v : Value) : Option EngineSettings := do
  match ← parts? ["storage_key", "locale_attribute", "observe_mutations"] v with
  | [key, attr, observe] =>
    let storageKey ← part Value.string? EngineSettings.standard.storageKey key
    let localeAttribute ← part Value.string? EngineSettings.standard.localeAttribute attr
    let observeMutations ← part Value.boolean? EngineSettings.standard.observeMutations observe
    some { storageKey, localeAttribute, observeMutations }
  | _ => none

-- The settings that a text holds, or nothing when it is malformed.
def parse (text : String) : Option Settings := do
  let fields ← Toml.parse text
  match ← parts? ["general", "engine"] (.table .header fields) with
  | [general, engine] =>
    let language ← part readGeneral none general
    let engine ← part readEngine .standard engine
    some { language, engine }
  | _ => none

def booleanText (b : Bool) : List Char := (if b then "true" else "false").toList

-- The text of a settings file.
def text (s : Settings) : String :=
  let language := match s.language with
    | some language => stringAssignment "language" language
    | none => []
  String.ofList ("[general]\n".toList ++ language ++ "\n[engine]\n".toList ++
    stringAssignment "storage_key" s.engine.storageKey ++
    stringAssignment "locale_attribute" s.engine.localeAttribute ++
    assignment "observe_mutations" (booleanText s.engine.observeMutations))

inductive FileError where
  -- The file is missing or no text, or cannot be written.
  | inaccessible
  | malformed
  deriving Repr, DecidableEq

-- Reads a file that has to be there.
def load : FileState → Except FileError Settings
  | .absent | .blocked | .directory | .binary _ => .error .inaccessible
  | .text content =>
    match parse content with
    | some s => .ok s
    | none => .error .malformed

-- The key of the warning that comes with a file that cannot be used.
def loadWarning : String := "notification-config-load-error"

-- Reads a file that may be missing. The standard settings stand in for one that cannot be used.
def loadOrStandard (file : FileState) : Settings × Option String :=
  match file with
  | .absent | .blocked => (standard, none)
  | file =>
    match load file with
    | .ok s => (s, none)
    | .error _ => (standard, some loadWarning)

-- Writes the settings in the place of whatever the file holds.
def save (s : Settings) : FileState → Except FileError FileState
  | .blocked | .directory => .error .inaccessible
  | .absent | .text _ | .binary _ => .ok (.text s.text)

end Settings
end PageLocalizer
