import PageLocalizer.Session.Delivery
-- What engines do to the page of a session.
--
-- An engine that finds the page in use leaves it alone. Its own writes happen under its guard.
namespace PageLocalizer.Session

def isFree (s : Session) : Bool := s.access == .free

def storeOf (s : Session) (e : Engine) : Store := s.storeAt e.store

def localeOf (s : Session) (e : Engine) : Locale := e.locale s.readable (s.storeOf e)

def detectFor (s : Session) (e : Engine) : Locale := e.detect (s.storeOf e)

-- Makes an edit under the guard of an engine, if the page is free.
def guardedWrite (play : Play) (id : EngineId) (edit : Edit Unit) (s : Session) : Session :=
  match s.isFree, s.engine? id with
  | true, some e =>
    let (scope, guard) := e.guard.acquire
    let written := (write play edit (s.modifyEngine id ({ · with guard }))).2
    written.modifyEngine id ({ · with guard := scope.finish })
  | _, _ => s

-- Translates a subtree, or the whole document, into a locale or into the active one.
def applyTo (play : Play) (id : EngineId) (root : Option NodeId) (locale : Option Locale)
    (s : Session) : Session :=
  match s.engine? id with
  | some e =>
    let locale := locale.getD (s.localeOf e)
    s.guardedWrite play id (e.translate locale (root.getD Document.root))
  | none => s

-- Switches to a locale: shows it, keeps it, and translates the whole document. A store that does
-- not take it is no obstacle.
def switchTo (play : Play) (id : EngineId) (locale : Locale) (s : Session) : Session :=
  match s.engine? id with
  | some e =>
    let s := s.modifyEngine id ({ · with applied := some locale })
    let s := s.guardedWrite play id (e.mark locale)
    let s := (s.setPreference e.store e.settings.storageKey locale.tag).2
    s.applyTo play id none (some locale)
  | none => s

-- Switches to the locale that the input names, or to the locale to start with.
def setLocale (play : Play) (id : EngineId) (input : Option String) (s : Session) :
    Locale × Session :=
  let locale := match input, s.engine? id with
    | some tag, _ => Locale.ofTag tag
    | none, some e => s.detectFor e
    | none, none => .default
  (locale, s.switchTo play id locale)

def toggle (play : Play) (id : EngineId) (s : Session) : Locale × Session :=
  match s.engine? id with
  | some e => s.setLocale play id (some (s.localeOf e).toggled.tag)
  | none => (.default, s)

-- Starts to translate what is inserted below the body. One who watches already goes on as before.
def watch (id : EngineId) (s : Session) : Session :=
  match s.engine? id with
  | some e =>
    if e.observer.isSome ∨ ¬s.isFree then s
    else
      let observer := s.document.nextObserver
      let observed := Document.observe Document.body s.document
      { s with
        document := observed.document
        listeners := s.listeners.set observer (.engine id)
        engines := s.engines.modify id ({ · with observer := some observer }) }
  | none => s

def disconnect (observer : ObserverId) (s : Session) : Session :=
  { s with document := (Document.disconnect observer s.document).document }

-- Stops translating what is inserted. A batch that waits already is still translated.
def unwatch (id : EngineId) (s : Session) : Session :=
  match (s.engine? id).bind (·.observer) with
  | some observer =>
    if s.isFree then (s.disconnect observer).modifyEngine id ({ · with observer := none }) else s
  | none => s

-- Takes up work: switches to the locale to start with, and watches if the settings say so.
def start (play : Play) (id : EngineId) (s : Session) : Locale × Session :=
  let (locale, s) := s.setLocale play id none
  match s.engine? id with
  | some e => (locale, if e.settings.observeMutations then s.watch id else s)
  | none => (locale, s)

-- An engine without a name and without work ends. If the page is in use, its registration stays
-- behind.
def endUnused (id : EngineId) (s : Session) : Session :=
  if s.names.engines.any (·.2 = id) ∨ id ∈ s.busy then s
  else match s.engine? id with
    | none => s
    | some e =>
      let ended := { s with engines := s.engines.erase id }
      match e.observer with
      | some observer => if s.isFree then ended.disconnect observer else ended
      | none => ended

-- Lets an engine do something. It lives at least until that is done.
def employ (id : EngineId) (work : Session → α × Session) (s : Session) : α × Session :=
  let done := work { s with busy := id :: s.busy }
  (done.1, endUnused id { done.2 with busy := done.2.busy.erase id })

-- Translates the elements that wait. If the page is in use they wait on, in front of those that
-- came since.
def flush (play : Play) (id : EngineId) (s : Session) : Session :=
  match s.engine? id with
  | none => s
  | some e =>
    let (nodes, batch) := e.batch.take
    let s := s.modifyEngine id ({ · with batch })
    if nodes = [] then s
    else
      let locale := s.localeOf e
      if s.isFree then
        nodes.foldl (fun s node => s.guardedWrite play id (e.translate locale node)) s
      else s.rebatch id (batch.restore nodes)

def runJob (play : Play) (job : FrameJob) (s : Session) : Session :=
  match job with
  | .flush id =>
    if (s.engine? id).isSome then (s.employ id fun s => ((), s.flush play id)).2 else s
  | .script name steps =>
    let ran := play steps s
    ran.2.record (.ran name ran.1)

def runFrame (play : Play) (s : Session) : Nat × Session := Frames.runFrame (runJob play) s

def runUntilIdle (play : Play) (limit : Nat) (s : Session) : Nat × Session :=
  Frames.runUntilIdle (runJob play) limit s

end PageLocalizer.Session
