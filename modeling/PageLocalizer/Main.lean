import PageLocalizer.CommandLine
import Std.Time.Format
-- The program: looks up what a run depends on, and carries out what it comes to.

namespace PageLocalizer.Program

-- The value of each variable that a run looks at.
def readEnvironment : IO Environment := do
  let values ← CommandLine.variableNames.mapM fun name => do return (name, ← IO.getEnv name)
  return fun name => (values.lookup name).bind id

def isDirectoryCode (code : UInt32) : Bool := code == 21

-- What stands at a path. Only a file that is there and can be read is more than nothing.
def readState (path : String) : IO FileState := do
  try
    let bytes ← IO.FS.readBinFile path
    return .ofBytes bytes.toList
  catch
    | .inappropriateType _ code _ => return if isDirectoryCode code then .directory else .blocked
    | _ => return .absent

def readState? : Option String → IO FileState
  | some path => readState path
  | none => return .absent

-- Writes a file that has changed, and makes its directory. Preferences that cannot be kept are no
-- reason to fail.
def keep (directory path : String) (before after : FileState) : IO Unit := do
  match after with
  | .text content =>
    if before ≠ after then
      try
        if directory ≠ "" then IO.FS.createDirAll directory
        IO.FS.writeFile path content
      catch _ => pure ()
  | _ => pure ()

def now : IO Instant := do
  let time ← Std.Time.Timestamp.now
  return { seconds := time.toSecondsSinceUnixEpoch.val
           nanoseconds := Fin.ofNat _ time.val.nano.val.toNat }

def flagsOf (args : List String) : CommandLine.Flags :=
  match CommandLine.request args with
  | .ok (.render flags) => flags
  | _ => { language := none, configDir := none, dataDir := none, latest := none }

def run (args : List String) : IO UInt32 := do
  let environment ← readEnvironment
  let flags := flagsOf args
  let settings ← readState? (CommandLine.settingsPath? environment flags)
  let preferences ← readState? (CommandLine.preferencesPath? environment flags)
  let report := CommandLine.run args { environment, settings, preferences, now := ← now }
  match CommandLine.dataDir? environment flags, CommandLine.preferencesPath? environment flags with
  | some directory, some path => keep directory path preferences report.preferences
  | _, _ => pure ()
  IO.print report.output
  IO.eprint report.errors
  return report.exit.toUInt32

end PageLocalizer.Program

def main (args : List String) : IO UInt32 := PageLocalizer.Program.run args
