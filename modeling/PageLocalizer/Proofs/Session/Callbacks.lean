import PageLocalizer.Proofs.Session.Course
import PageLocalizer.Proofs.Translation.Plain

-- Who is told of the writes of an engine, and in which state of the session.
namespace PageLocalizer

-- The elements and the frames that wait.
def Session.waiting (s : Session) : (EngineId → Option Batch) × Frames FrameJob :=
  (fun id => (s.engine? id).map (·.batch), s.frames)

-- An observer is told of a change. `session` is as the observer finds it.
structure Telling where
  change : Change
  observer : ObserverId
  session : Session

namespace Telling

def after (play : Play) (t : Telling) : Session := t.session.hear play t.change t.observer

-- A script stands behind the registration, and it has steps to run.
def Reacts (t : Telling) : Prop :=
  ∃ name steps, t.session.listeners.lookup t.observer = some (.script name (some steps))

end Telling

namespace Session

-- The tellings of one change, and those of several.
def tellEach (play : Play) (c : Change) : List ObserverId → Session → List Telling
  | [], _ => []
  | o :: rest, s => ⟨c, o, s⟩ :: tellEach play c rest (s.hear play c o)

def tellings (play : Play) : List Change → Session → List Telling
  | [], _ => []
  | c :: rest, s =>
    tellEach play c c.audience s ++ tellings play rest (c.audience.foldl (hear play c) s)

-- The tellings of an edit.
def writeTellings {α : Type} (play : Play) (edit : Edit α) (s : Session) : List Telling :=
  let edited := edit s.document
  tellings play edited.changes { s with document := edited.document, access := .exclusive }

-- The tellings of an edit that an engine makes under its guard.
def guardedTellings (play : Play) (id : EngineId) (edit : Edit Unit) (s : Session) :
    List Telling :=
  match s.isFree, s.engine? id with
  | true, some e =>
    writeTellings play edit (s.modifyEngine id ({ · with guard := e.guard.acquire.2 }))
  | _, _ => []

end Session

-- What an engine can be asked to do to the page.
inductive EngineCall where
  | setLocale (input : Option String)
  | toggle
  | applyTo (root : Option NodeId) (locale : Option Locale)
  | flush

namespace EngineCall

open Session

def run (play : Play) (id : EngineId) (call : EngineCall) (s : Session) : Session :=
  match call with
  | .setLocale input => (s.setLocale play id input).2
  | .toggle => (s.toggle play id).2
  | .applyTo root locale => s.applyTo play id root locale
  | .flush => s.flush play id

def applyTellings (play : Play) (id : EngineId) (root : Option NodeId) (locale : Option Locale)
    (s : Session) : List Telling :=
  match s.engine? id with
  | some e =>
    s.guardedTellings play id (e.translate (locale.getD (s.localeOf e)) (root.getD Document.root))
  | none => []

def switchTellings (play : Play) (id : EngineId) (locale : Locale) (s : Session) : List Telling :=
  match s.engine? id with
  | some e =>
    let shown := s.modifyEngine id ({ · with applied := some locale })
    let marked := shown.guardedWrite play id (e.mark locale)
    let kept := (marked.setPreference e.store e.settings.storageKey locale.tag).2
    shown.guardedTellings play id (e.mark locale) ++
      applyTellings play id none (some locale) kept
  | none => []

def translateTellings (play : Play) (id : EngineId) (e : Engine) (locale : Locale) :
    List NodeId → Session → List Telling
  | [], _ => []
  | node :: rest, s =>
    s.guardedTellings play id (e.translate locale node) ++
      translateTellings play id e locale rest (s.guardedWrite play id (e.translate locale node))

-- Whom a call tells of its writes.
def tellings (play : Play) (id : EngineId) (call : EngineCall) (s : Session) : List Telling :=
  match call with
  | .setLocale input => switchTellings play id (s.setLocale play id input).1 s
  | .toggle => switchTellings play id (s.toggle play id).1 s
  | .applyTo root locale => applyTellings play id root locale s
  | .flush =>
    match s.engine? id with
    | none => []
    | some e =>
      let taken := s.modifyEngine id ({ · with batch := .empty })
      if taken.isFree then translateTellings play id e (taken.localeOf e) e.batch.nodes taken
      else []

-- The session when a call begins to write. A flush has taken its batch by then.
def begun (id : EngineId) (call : EngineCall) (s : Session) : Session :=
  match call with
  | .flush => s.modifyEngine id ({ · with batch := .empty })
  | _ => s

end EngineCall
end PageLocalizer
