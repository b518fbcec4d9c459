import PageLocalizer.Directories
import PageLocalizer.Session.Localization
import PageLocalizer.Document.Markup
import PageLocalizer.SystemLocale
-- The command line: renders the dashboard page in the locale that applies.
--
-- What a run comes to depends on its arguments, the environment, two files and the time, and on
-- nothing else.
namespace PageLocalizer.CommandLine

open PageLocalizer.Dashboard

def version : String := "0.3.0"

def help : String := "\n".intercalate [
  "dashboard-i18n: render the localized dashboard page",
  "",
  "USAGE:",
  "  dashboard-i18n [OPTIONS]",
  "",
  "OPTIONS:",
  "  --lang <LOCALE>        Force a locale (en, zh, zh-CN, ...)",
  "  --config-dir <DIR>     Override the configuration directory",
  "  --data-dir <DIR>       Override the data directory (stored preferences)",
  "  --latest <VERSION>     Release tag to compare against the running version",
  "  -h, --help             Print this help",
  ""]

structure Flags where
  language : Option String
  configDir : Option String
  dataDir : Option String
  latest : Option String
  deriving Repr, DecidableEq

inductive Request where
  | help
  | render (flags : Flags)
  deriving Repr, DecidableEq

inductive UsageError where
  | missingValue (option : String)
  deriving Repr, DecidableEq

def UsageError.message : UsageError → String
  | .missingValue option => "the '" ++ option ++ "' option doesn't have an associated value"

-- Takes an option and its value, whatever that is, out of the arguments. The first occurrence
-- counts.
def takeOption (name : String) :
    List String → Except UsageError (Option String × List String)
  | [] => .ok (none, [])
  | arg :: rest =>
    if arg = name then
      match rest with
      | [] => .error (.missingValue name)
      | value :: rest => .ok (some value, rest)
    else (takeOption name rest).map fun (value, others) => (value, arg :: others)

-- Reads the arguments. A request for help counts wherever it stands, and arguments that are left
-- over are passed over.
def request (args : List String) : Except UsageError Request := do
  if "-h" ∈ args ∨ "--help" ∈ args then return .help
  let (language, args) ← takeOption "--lang" args
  let (configDir, args) ← takeOption "--config-dir" args
  let (dataDir, args) ← takeOption "--data-dir" args
  let (latest, _) ← takeOption "--latest" args
  return .render { language, configDir, dataDir, latest }

def announced (flags : Flags) : Option Directories.Announced :=
  Directories.announce none flags.dataDir flags.configDir

def settingsPath? (env : Environment) (flags : Flags) : Option String :=
  Directories.settings? env (announced flags) none

def preferencesPath? (env : Environment) (flags : Flags) : Option String :=
  Directories.preferences? env (announced flags) none

def dataDir? (env : Environment) (flags : Flags) : Option String :=
  Directories.data? env (announced flags) none

def configDir? (env : Environment) (flags : Flags) : Option String :=
  Directories.config? env (announced flags) none

def variableNames : List String := Directories.variableNames ++ SystemLocale.variableNames

structure Surroundings where
  environment : Environment
  settings : FileState
  preferences : FileState
  now : Instant

def sampleProcesses : List ProcessInfo := [
  { pid := 1, name := "systemd", status := .sleeping, cpu := .finite false 0 0,
    memory := 12 * 1024 * 1024 },
  { pid := 412, name := "dietpi-dashboard", status := .running, cpu := .finite false 5 (-1),
    memory := 9 * 1024 * 1024 },
  { pid := 977, name := "rsync", status := .paused, cpu := .finite false 0 0,
    memory := 3 * 1024 * 1024 }]

def layoutOptions : LayoutOptions :=
  { version
    screen := .process
    backends := [{ address := "127.0.0.1:5252", name := "localhost" }]
    selected := some "127.0.0.1:5252"
    systemUpdate := none }

-- Work on a session that may fail. What was done before a failure stays done.
abbrev Work := ExceptT Failure (StateM Session)

-- Nobody but the engine listens here.
def silent : Play := fun _ s => ([], s)

def edit (e : Edit α) : Work α := fun s =>
  match s.write silent e with
  | (.ok a, s) => (.ok a, s)
  | (.error e, s) => (.error (.edit e), s)

def act (f : Session → α × Session) : Work α := fun s =>
  let done := f s
  (.ok done.1, done.2)

def change (f : Session → Session) : Work Unit := act fun s => ((), f s)

-- Looks for the catalog and takes up an engine that works with the given store.
def hire (surroundings : Option String) (settings : EngineSettings) (store : StoreId) :
    Work EngineId :=
  match Catalog.load none with
  | .error e => fun s => (.error (.catalog e), s)
  | .ok catalog => act (Session.addEngine (.create catalog surroundings settings store))

-- Switches to the forced locale, or starts with the one that applies.
def settle (engine : EngineId) (settings : EngineSettings) (forced : Option String) : Work Unit :=
  match forced with
  | some tag => do
    let _ ← act (Session.setLocale silent engine (some tag))
    if settings.observeMutations then change (Session.watch engine) else pure ()
  | none => do
    let _ ← act (Session.start silent engine)

def keepRelease (store : StoreId) (tag : String) (now : Instant) : Work Unit := fun s =>
  match UpdateCheck.standard.recordRelease (s.storeAt store) tag now with
  | .ok (_, after) => (.ok (), { s with stores := s.stores.set store after })
  | .error e => (.error (.store e), s)

-- Shows a notice when the newest release is newer than this one.
def announceRelease (engine : EngineId) (store : StoreId) (notice : NodeId) (tag : String)
    (now : Instant) : Work Unit := do
  keepRelease store tag now
  match UpdateCheck.standard.available ((← get).storeAt store) version with
  | none => pure ()
  | some newer =>
    edit (Document.setAttribute notice "data-i18n-template" UpdateCheck.templateKey)
    edit (Document.setAttribute notice "data-version" newer)
    change (Session.applyTo silent engine (some notice) none)

def addRow (table : NodeId) (p : ProcessInfo) : Edit Unit := do
  let row ← p.row
  Document.appendChild table row

def page (flags : Flags) (m : Surroundings) (settings : Settings) (store : StoreId) :
    Work String := do
  let layout ← edit (Layout.build layoutOptions)
  let table ← edit (ProcessTable.build layout.main)
  let engine ← hire (SystemLocale.detect? m.environment) settings.engine store
  settle engine settings.engine (flags.language.or settings.language)
  match flags.latest with
  | some tag => announceRelease engine store layout.updateNotice tag m.now
  | none => pure ()
  edit (Edit.each sampleProcesses (addRow table.table))
  edit (ProcessTable.setCount table.count sampleProcesses.length)
  change (Session.applyTo silent engine (some table.count) none)
  let _ ← act (Session.runFrame silent)
  return (← get).document.outerHtml Document.root

structure Report where
  exit : UInt8
  output : String
  errors : String
  -- The preference file afterwards.
  preferences : FileState
  deriving Repr, DecidableEq

-- The store of a run. Without a place for the file it is kept in memory.
def openStore (flags : Flags) (m : Surroundings) : Store :=
  match preferencesPath? m.environment flags with
  | some _ => .file m.preferences
  | none => .memory []

def fileOf (before : FileState) : Store → FileState
  | .file after => after
  | .memory _ | .failing _ _ _ => before

-- What a run comes to when its work is done, or has failed.
def conclude (before : FileState) (store : StoreId) : Except Failure String × Session → Report
  | (.ok html, s) =>
    { exit := 0, output := html ++ "\n", errors := ""
      preferences := fileOf before (s.storeAt store) }
  | (.error e, s) =>
    { exit := 1, output := "", errors := e.message ++ "\n"
      preferences := fileOf before (s.storeAt store) }

-- The settings that a run goes by.
def Surroundings.effective (m : Surroundings) : Settings := (Settings.loadOrStandard m.settings).1

-- The session that a run begins with, and its store.
def opening (flags : Flags) (m : Surroundings) : StoreId × Session :=
  Session.initial.addStore (openStore flags m)

def render (flags : Flags) (m : Surroundings) : Report :=
  let store := (opening flags m).1
  conclude m.preferences store ((page flags m m.effective store).run (opening flags m).2)

def reject (e : UsageError) (preferences : FileState) : Report :=
  { exit := 2, output := "", errors := e.message ++ "\n\n" ++ help ++ "\n", preferences }

def run (args : List String) (m : Surroundings) : Report :=
  match request args with
  | .error e => reject e m.preferences
  | .ok .help => { exit := 0, output := help, errors := "", preferences := m.preferences }
  | .ok (.render flags) => render flags m

end PageLocalizer.CommandLine
