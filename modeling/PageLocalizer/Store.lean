import PageLocalizer.Text.Utf8
import PageLocalizer.Toml.Record
import PageLocalizer.Toml.Writer
import PageLocalizer.Locale
-- Preferences: strings under keys, held in memory or in a file.
namespace PageLocalizer

-- What stands at a path.
inductive FileState where
  | absent
  -- Nothing, and nothing can be put there, because a file stands where a directory would be.
  | blocked
  | directory
  | text (content : String)
  -- Bytes that are not UTF-8.
  | binary (bytes : List UInt8)
  deriving Repr, DecidableEq

namespace FileState

-- A file that holds the given bytes.
def ofBytes (bytes : List UInt8) : FileState :=
  match Text.ofUtf8? bytes with
  | some content => .text content
  | none => .binary bytes

-- The text of a file, with U+FFFD for what is no text.
def lossyText? : FileState → Option String
  | .text content => some content
  | .binary bytes => some (Text.ofUtf8Lossy bytes)
  | .absent | .blocked | .directory => none

end FileState

inductive StoreError where
  -- The store does not work.
  | unavailable
  -- The file is no text.
  | unreadable
  -- The text is no table of strings.
  | malformed
  -- A file is in the way of a directory.
  | blocked
  -- A directory stands in the place of the file.
  | directory
  deriving Repr, DecidableEq

def StoreError.message : StoreError → String
  | .unavailable => "Storage Error: unavailable"
  | .unreadable => "I/O Error: the file cannot be read"
  | .malformed => "Config Error: not a table of strings"
  | .blocked => "I/O Error: File exists (os error 17)"
  | .directory => "I/O Error: Is a directory (os error 21)"

inductive Store where
  | memory (entries : List (String × String))
  -- Like memory, but reading or writing may fail each time.
  | failing (entries : List (String × String)) (getFails setFails : Bool)
  | file (state : FileState)
  deriving Repr, DecidableEq

namespace Store

-- Entries in ascending order of their keys, each key once.
def insert (key value : String) : List (String × String) → List (String × String)
  | [] => [(key, value)]
  | (k, v) :: rest =>
    if key < k then (key, value) :: (k, v) :: rest
    else if key = k then (key, value) :: rest
    else (k, v) :: insert key value rest

def ofList (entries : List (String × String)) : List (String × String) :=
  entries.foldl (fun table (key, value) => insert key value table) []

-- A document whose values are all strings, as a table.
def table? (text : String) : Option (List (String × String)) := do
  let fields ← Toml.parse text
  let entries ← fields.mapM fun (key, v) => v.string?.map (key, ·)
  some (ofList entries)

-- What a preference file holds. A file that is not there holds nothing.
def readTable : FileState → Except StoreError (List (String × String))
  | .absent | .blocked => .ok []
  | .directory | .binary _ => .error .unreadable
  | .text content =>
    match table? content with
    | some entries => .ok entries
    | none => .error .malformed

def get (s : Store) (key : String) : Except StoreError (Option String) :=
  match s with
  | .memory entries => .ok (entries.lookup key)
  | .failing entries getFails _ =>
    if getFails then .error .unavailable else .ok (entries.lookup key)
  | .file state => (readTable state).map (·.lookup key)

-- A file that cannot be read is replaced.
def writeTable (state : FileState) (key value : String) : Except StoreError FileState :=
  let entries := match readTable state with
    | .ok entries => entries
    | .error _ => []
  match state with
  | .blocked => .error .blocked
  | .directory => .error .directory
  | _ => .ok (.text (Toml.stringTable (insert key value entries)))

-- Gives a key a value. A write that fails changes nothing.
def set (s : Store) (key value : String) : Except StoreError Store :=
  match s with
  | .memory entries => .ok (.memory (insert key value entries))
  | .failing entries getFails setFails =>
    if setFails then .error .unavailable
    else .ok (.failing (insert key value entries) getFails setFails)
  | .file state => (writeTable state key value).map .file

-- The number of entries held in memory.
def size? : Store → Option Nat
  | .memory entries => some entries.length
  | _ => none

-- The text of the store's file.
def fileText? : Store → Option String
  | .file state => state.lossyText?
  | _ => none

end Store

-- The stored preference, then what the surroundings say, then English. A store that cannot be read
-- counts as empty, and so does an empty preference.
def Locale.detect (store : Store) (surroundings : Option String) (key : String) : Locale :=
  let stored := match store.get key with
    | .ok value => value.filter (· ≠ "")
    | .error _ => none
  Locale.ofTag? (stored.or surroundings)

end PageLocalizer
