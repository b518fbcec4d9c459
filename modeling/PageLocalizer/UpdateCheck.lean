import PageLocalizer.Store
import PageLocalizer.Text.Blank
import PageLocalizer.Version
-- The notice of new versions: when to look for one, and what was found last.
namespace PageLocalizer

-- A point in time: the whole seconds since 1970, and the nanoseconds since the last of them.
structure Instant where
  seconds : Int
  nanoseconds : Fin 1000000000
  deriving Repr, DecidableEq

-- What the last look found. The time is in seconds since 1970, zero when nobody looked yet.
structure UpdateRecord where
  newestVersion : Option String
  lastChecked : Int
  deriving Repr, DecidableEq

-- Where the record is kept, and how many seconds may pass before the next look.
structure UpdateCheck where
  key : String
  interval : Int
  deriving Repr, DecidableEq

namespace UpdateRecord

open PageLocalizer.Toml

def none : UpdateRecord := { newestVersion := .none, lastChecked := 0 }

def parse (text : String) : Option UpdateRecord := do
  let fields ← Toml.parse text
  match ← parts? ["newest_version", "last_checked"] (.table .header fields) with
  | [version, checked] =>
    let newestVersion ← part (fun v => v.string?.map some) .none version
    let lastChecked ← part Value.integer? 0 checked
    some { newestVersion, lastChecked }
  | _ => .none

def text (r : UpdateRecord) : String :=
  let version := match r.newestVersion with
    | some version => stringAssignment "newest_version" version
    | .none => []
  String.ofList (version ++ assignment "last_checked" (toString r.lastChecked).toList)

end UpdateRecord

namespace UpdateCheck

def standard : UpdateCheck := { key := "update-check", interval := 86400 }

def templateKey : String := "update_available"

-- What the store holds. What is missing or cannot be read counts as never looked.
def record (c : UpdateCheck) (store : Store) : UpdateRecord :=
  match store.get c.key with
  | .ok (some text) => (UpdateRecord.parse text).getD .none
  | _ => .none

-- Whether more than the interval has passed. Only whole seconds count.
def isDue (c : UpdateCheck) (store : Store) (now : Instant) : Bool :=
  c.interval < now.seconds - (c.record store).lastChecked

-- The version that a release tag names: without blanks around it and without a leading `v`. An
-- empty one is none.
def versionOf (tag : String) : Option String :=
  let version := match (Text.trim tag).toList with
    | 'v' :: rest => String.ofList rest
    | trimmed => String.ofList trimmed
  if version = "" then none else some version

-- Keeps what was found at the time `now`.
def recordRelease (c : UpdateCheck) (store : Store) (tag : String) (now : Instant) :
    Except StoreError (UpdateRecord × Store) :=
  let r : UpdateRecord := { newestVersion := versionOf tag, lastChecked := now.seconds }
  (store.set c.key r.text).map (r, ·)

-- The newest version, when it is newer than the present one.
def available (c : UpdateCheck) (store : Store) (current : String) : Option String :=
  (c.record store).newestVersion.filter fun newest => compareVersions newest current == .gt

end UpdateCheck
end PageLocalizer
