import PageLocalizer.Frames
import PageLocalizer.Session.Step
-- A session: a page, the engines that translate it, the frames and preferences they share, and the
-- names that a script has given.
namespace PageLocalizer

open PageLocalizer.Dashboard

-- Who has the page at the moment. One who reads it keeps others from writing, one who writes keeps
-- others from reading too.
inductive Access where
  | free
  | shared
  | exclusive
  deriving Repr, DecidableEq

inductive Listener where
  | engine (id : EngineId)
  | script (name : String) (reaction : Option (List Step))

inductive FrameJob where
  | flush (id : EngineId)
  | script (name : String) (steps : List Step)

inductive Failure where
  | edit (e : EditError)
  | store (e : StoreError)
  | catalog (e : CatalogError)
  deriving Repr, DecidableEq

def Failure.message : Failure → String
  | .edit e => "DOM Error: " ++ e.message
  | .store e => e.message
  | .catalog e => "Catalog Error: " ++ e.message

structure Portrait where
  id : NodeId
  kind : Option NodeKind
  parent : Option NodeId
  children : List NodeId
  descendants : List NodeId
  text : String
  tagName : Option String
  isElement : Bool
  isContainer : Bool
  attributes : List (String × String)
  dataset : List (String × String)
  -- Whether the node belongs to the page's tree.
  connected : Bool
  deriving Repr

inductive Answer where
  | none
  | held
  | unknownName
  | failed (why : Failure)
  | node (id : NodeId)
  | nodes (ids : List NodeId)
  | flag (b : Bool)
  | count (n : Nat)
  | text (t : String)
  | locale (l : Locale)
  | attribute (value : Option String)
  | portrait (p : Portrait)
  | params (p : Params)
  -- Whether the guard is up after a pass.
  | guardActive (b : Bool)
  | batch (scheduled : Bool) (pending : Nat)
  | storeSize (n : Nat)
  | updateRecord (r : UpdateRecord)
  | frames (pending count : Nat)
  | layout (l : Layout)
  | processTable (t : ProcessTable)
  | status (s : EngineStatus)
  | all (answers : List Answer)

namespace Answer

def optionalText : Option String → Answer
  | some t => .text t
  | .none => .none

end Answer

inductive LogEntry where
  -- An observer of the script heard of a change.
  | heard (name : String) (change : Change)
  -- A reaction or the work of a frame ran its steps.
  | ran (name : String) (answers : List Answer)

-- What the names of a script stand for.
structure Names where
  nodes : Table String NodeId
  observers : Table String ObserverId
  guards : Table String Nat
  scopes : Table String (Nat × GuardScope)
  batches : Table String Batch
  taken : Table String (List NodeId)
  stores : Table String StoreId
  engines : Table String EngineId

def Names.initial : Names :=
  { nodes := [("$root", Document.root), ("$html", Document.html), ("$head", Document.head),
      ("$title", Document.title), ("$body", Document.body)]
    observers := [], guards := [], scopes := [], batches := [], taken := [], stores := []
    engines := [] }

structure Session where
  document : Document
  access : Access
  frames : Frames FrameJob
  -- Who stands behind each registration on the page.
  listeners : Table ObserverId Listener
  engines : Table EngineId Engine
  nextEngine : EngineId
  -- Engines that are at work. They live on without a name until they are done.
  busy : List EngineId
  stores : Table StoreId Store
  -- Guards that belong to no engine.
  guards : Table Nat Guard
  names : Names
  log : List LogEntry

instance : HasFrames Session FrameJob where
  frames s := s.frames
  withFrames s frames := { s with frames }

namespace Session

def initial : Session :=
  { document := .empty, access := .free, frames := .empty, listeners := [], engines := []
    nextEngine := 0, busy := [], stores := [], guards := [], names := .initial, log := [] }

def record (entry : LogEntry) (s : Session) : Session := { s with log := s.log ++ [entry] }

def engine? (s : Session) (id : EngineId) : Option Engine := s.engines.lookup id

-- A new engine, which nobody has named yet.
def addEngine (e : Engine) (s : Session) : EngineId × Session :=
  (s.nextEngine,
    { s with engines := s.engines.set s.nextEngine e, nextEngine := s.nextEngine + 1 })

def modifyEngine (id : EngineId) (f : Engine → Engine) (s : Session) : Session :=
  { s with engines := s.engines.modify id f }

-- A store that is not there counts as an empty one.
def storeAt (s : Session) (id : StoreId) : Store := (s.stores.lookup id).getD (.memory [])

def addStore (store : Store) (s : Session) : StoreId × Session :=
  let id := s.stores.length
  (id, { s with stores := s.stores.set id store })

-- Writes to a store. A write that fails leaves it as it is.
def setPreference (id : StoreId) (key value : String) (s : Session) :
    Except StoreError Unit × Session :=
  match (s.storeAt id).set key value with
  | .ok store => (.ok (), { s with stores := s.stores.set id store })
  | .error e => (.error e, s)

-- The page, unless somebody writes to it.
def readable (s : Session) : Option Document :=
  if s.access = .exclusive then none else some s.document

end Session
end PageLocalizer
