import PageLocalizer.Session.Localization
import PageLocalizer.Session.Page
-- What each step of a script does, and whole scripts.
namespace PageLocalizer.Session

def performEdit (play : Play) (e : PageEdit) (s : Session) : Answer × Session :=
  if s.access ≠ .free then (.held, s)
  else match e.plan s.names.nodes with
    | none => (.unknownName, s)
    | some edit =>
      match s.write play edit with
      | (.ok outcome, s) => (outcome.answer, s.nameNodes outcome.names)
      | (.error e, s) => (.failed (.edit e), s)

def performQuery (q : PageQuery) (s : Session) : Answer × Session :=
  match s.readable with
  | none => (.held, s)
  | some d =>
    match q.outcome s.names.nodes d with
    | some outcome => (outcome.answer, s.nameNodes outcome.names)
    | none => (.unknownName, s)

def nameForeign (count : Nat) (name : String) (s : Session) : Answer × Session :=
  match (Document.createAll "div" count Document.root Document.empty).result with
  | .ok id => (.node id, s.nameNodes [(name, id)])
  | .error e => (.failed (.edit e), s)

def observe (target name : String) (reaction : Option (List Step)) (s : Session) :
    Answer × Session :=
  if s.access ≠ .free then (.held, s)
  else match s.nodeNamed target with
    | none => (.unknownName, s)
    | some target =>
      let observer := s.document.nextObserver
      let observed := Document.observe target s.document
      (.none, { s with
        document := observed.document
        listeners := s.listeners.set observer (.script name reaction)
        names := { s.names with observers := s.names.observers.set name observer } })

def disconnectNamed (name : String) (s : Session) : Answer × Session :=
  if s.access ≠ .free then (.held, s)
  else match s.names.observers.lookup name with
    | some observer => (.none, s.disconnect observer)
    | none => (.unknownName, s)

def guardAt (s : Session) (id : Nat) : Guard := (s.guards.lookup id).getD .idle

def setGuard (id : Nat) (g : Guard) (s : Session) : Session :=
  { s with guards := s.guards.set id g }

-- A translation pass outside of any engine.
def translateWith (play : Play) (root : String) (locale : Locale)
    (sources : Option (List CatalogSource)) (guard : Option String) (s : Session) :
    Answer × Session :=
  if s.access ≠ .free then (.held, s)
  else match Catalog.load sources, s.nodeNamed root with
    | .error e, _ => (.failed (.catalog e), s)
    | _, none => (.unknownName, s)
    | .ok catalog, some root =>
      let pass := Translation.pass catalog locale root
      match guard with
      | none => (.guardActive false, (s.write play pass).2)
      | some name =>
        match s.names.guards.lookup name with
        | none => (.unknownName, s)
        | some id =>
          let (scope, raised) := (s.guardAt id).acquire
          let s := ((s.setGuard id raised).write play pass).2.setGuard id scope.finish
          (.guardActive (s.guardAt id).active, s)

def finishScope (scope : Nat × GuardScope) (s : Session) : Session :=
  s.setGuard scope.1 scope.2.finish

def performGuard (g : GuardStep) (s : Session) : Answer × Session :=
  match g with
  | .create name =>
    let id := s.guards.length
    (.none, (s.setGuard id .idle).modifyNames fun n => { n with guards := n.guards.set name id })
  | .share name guard =>
    match s.names.guards.lookup guard with
    | some id => (.none, s.modifyNames fun n => { n with guards := n.guards.set name id })
    | none => (.unknownName, s)
  | .acquire guard scope =>
    match s.names.guards.lookup guard with
    | none => (.unknownName, s)
    | some id =>
      let (new, raised) := (s.guardAt id).acquire
      let old := s.names.scopes.lookup scope
      let s := (s.setGuard id raised).modifyNames fun n =>
        { n with scopes := n.scopes.set scope (id, new) }
      -- A scope of that name ends only now.
      (.none, match old with
        | some old => s.finishScope old
        | none => s)
  | .finish scope =>
    match s.names.scopes.lookup scope with
    | some old =>
      (.flag true,
        (s.modifyNames fun n => { n with scopes := n.scopes.erase scope }).finishScope old)
    | none => (.flag false, s)
  | .isActive guard =>
    match s.names.guards.lookup guard with
    | some id => (.flag (s.guardAt id).active, s)
    | none => (.unknownName, s)

def resolveRecord (s : Session) (r : NamedRecord) : Option Record := do
  let target ← s.nodeNamed r.target
  match r.change with
  | .children added removed =>
    some ⟨target, .children (← added.mapM s.nodeNamed) (← removed.mapM s.nodeNamed)⟩
  | .attribute name => some ⟨target, .attribute name none⟩
  | .text old => some ⟨target, .text old⟩

def setBatch (name : String) (b : Batch) (s : Session) : Session :=
  s.modifyNames fun n => { n with batches := n.batches.set name b }

def performBatch (b : BatchStep) (s : Session) : Answer × Session :=
  match b with
  | .create name => (.none, s.setBatch name .empty)
  | .record name guard records =>
    match s.readable with
    | none => (.held, s)
    | some d =>
      match s.names.batches.lookup name, s.names.guards.lookup guard,
          records.mapM s.resolveRecord with
      | some b, some guard, some records =>
        let recorded := b.record d records (s.guardAt guard)
        (.flag recorded.asksFrame, s.setBatch name recorded.batch)
      | _, _, _ => (.unknownName, s)
  | .take name label =>
    match s.names.batches.lookup name with
    | none => (.unknownName, s)
    | some b =>
      let (nodes, rest) := b.take
      let s := s.setBatch name rest
      (.nodes nodes, match label with
        | some label => s.modifyNames fun n => { n with taken := n.taken.set label nodes }
        | none => s)
  | .restore name label =>
    match s.names.batches.lookup name, s.names.taken.lookup label with
    | some b, some nodes =>
      let restored := b.restore nodes
      (.flag restored.asksFrame, s.setBatch name restored.batch)
    | _, _ => (.unknownName, s)
  | .state name =>
    match s.names.batches.lookup name with
    | some b => (.batch b.scheduled b.nodes.length, s)
    | none => (.unknownName, s)

def storeFailure (e : StoreError) : Answer := .failed (.store e)

def performAt (id : StoreId) (store : Store) (step : StoreStep) (s : Session) : Answer × Session :=
  match step with
  | .create _ _ => (.none, s)
  | .get _ key =>
    match store.get key with
    | .ok value => (.optionalText value, s)
    | .error e => (storeFailure e, s)
  | .set _ key value =>
    match s.setPreference id key value with
    | (.ok _, s) => (.none, s)
    | (.error e, s) => (storeFailure e, s)
  | .size _ =>
    (match store.size? with
      | some n => .storeSize n
      | none => .none, s)
  | .fileText _ => (.optionalText store.fileText?, s)
  | .updateRecord _ check => (.updateRecord (check.record store), s)
  | .isDue _ check now => (.flag (check.isDue store now), s)
  | .recordRelease _ check tag now =>
    match check.recordRelease store tag now with
    | .ok (r, store) => (.updateRecord r, { s with stores := s.stores.set id store })
    | .error e => (storeFailure e, s)
  | .available _ check current => (.optionalText (check.available store current), s)

def performStore (step : StoreStep) (s : Session) : Answer × Session :=
  let onStore (name : String) : Answer × Session :=
    match s.names.stores.lookup name with
    | some id => s.performAt id (s.storeAt id) step
    | none => (.unknownName, s)
  match step with
  | .create name store =>
    let (id, s) := s.addStore store
    (.none, s.modifyNames fun n => { n with stores := n.stores.set name id })
  | .get name _ | .set name _ _ | .size name | .fileText name | .updateRecord name _
  | .isDue name _ _ | .recordRelease name _ _ _ | .available name _ _ => onStore name

-- Gives an engine a name. Who had the name before loses it.
def nameEngine (name : String) (id : EngineId) (s : Session) : Session :=
  let old := s.names.engines.lookup name
  let s := s.modifyNames fun n => { n with engines := n.engines.set name id }
  match old with
  | some old => s.endUnused old
  | none => s

-- A store of its own for an engine that gets none.
def engineStore (setup : EngineSetup) (s : Session) : Option (StoreId × Session) :=
  match setup.store with
  | some name => (s.names.stores.lookup name).map (·, s)
  | none => some (s.addStore (.memory []))

def createEngine (name : String) (setup : EngineSetup) (s : Session) : Answer × Session :=
  match Catalog.load setup.sources, s.engineStore setup with
  | .error e, _ => (.failed (.catalog e), s)
  | _, none => (.unknownName, s)
  | .ok catalog, some (store, s) =>
    let (id, s) := s.addEngine (.create catalog setup.surroundings setup.settings store)
    (.none, s.nameEngine name id)

def dropEngine (name : String) (s : Session) : Answer × Session :=
  match s.names.engines.lookup name with
  | some id =>
    (.flag true,
      (s.modifyNames fun n => { n with engines := n.engines.erase name }).endUnused id)
  | none => (.flag false, s)

def named (r : Locale × Session) : Answer × Session := (.locale r.1, r.2)

def performOn (play : Play) (id : EngineId) (e : Engine) (step : EngineStep) (s : Session) :
    Answer × Session :=
  match step with
  | .share name => (.none, s.nameEngine name id)
  | .start => named (s.start play id)
  | .setLocale input => named (s.setLocale play id input)
  | .toggle => named (s.toggle play id)
  | .locale => (.locale (s.localeOf e), s)
  | .detect => (.locale (s.detectFor e), s)
  | .apply root locale =>
    match root with
    | none => (.none, s.applyTo play id none locale)
    | some name =>
      match s.nodeNamed name with
      | some root => (.none, s.applyTo play id (some root) locale)
      | none => (.unknownName, s)
  | .message key fallback => (.text (e.catalog.lookupMessage (s.localeOf e) key fallback), s)
  | .template key params => (.text (e.catalog.lookupTemplate (s.localeOf e) key params), s)
  | .updateMessage version => (.text (e.updateMessage (s.localeOf e) version), s)
  | .watch => (.none, s.watch id)
  | .unwatch => (.none, s.unwatch id)
  | .status => (.status e.status, s)

def performEngine (play : Play) (name : String) (step : EngineStep) (s : Session) :
    Answer × Session :=
  match s.names.engines.lookup name with
  | none => (.unknownName, s)
  | some id =>
    match s.engine? id with
    | some e => s.employ id (performOn play id e step)
    | none => (.unknownName, s)

-- Runs steps a number of times. The answers and the log of the last round remain.
def performRepeated (play : Play) (steps : List Step) :
    Nat → List Answer → Session → Answer × Session
  | 0, answers, s => (.all answers, s)
  | times + 1, _, s =>
    let round := play steps { s with log := [] }
    performRepeated play steps times round.1 round.2

-- Runs steps while somebody else has the page, to read it or to write to it.
def performHold (play : Play) (exclusive : Bool) (steps : List Step) (s : Session) :
    Answer × Session :=
  let wanted : Access := if exclusive then .exclusive else .shared
  if s.access = .exclusive ∨ (exclusive ∧ s.access = .shared) then (.held, s)
  else
    let held := play steps { s with access := wanted }
    (.all held.1, { held.2 with access := s.access })

-- One step. `play` runs the steps that it contains or sets off.
def perform (play : Play) (step : Step) (s : Session) : Answer × Session :=
  match step with
  | .edit e => s.performEdit play e
  | .ask q => s.performQuery q
  | .foreign count name => s.nameForeign count name
  | .observe target name reaction => s.observe target name reaction
  | .disconnect name => s.disconnectNamed name
  | .translate root locale sources guard => s.translateWith play root locale sources guard
  | .guard g => s.performGuard g
  | .batch b => s.performBatch b
  | .store st => s.performStore st
  | .requestFrame name steps => (.none, Frames.request s (FrameJob.script name steps))
  | .runFrame =>
    let ran := s.runFrame play
    (.count ran.1, ran.2)
  | .runUntilIdle limit =>
    let ran := s.runUntilIdle play limit
    (.count ran.1, ran.2)
  | .frames => (.frames s.frames.pending.length s.frames.count, s)
  | .createEngine name setup => s.createEngine name setup
  | .dropEngine name => s.dropEngine name
  | .engine name e => s.performEngine play name e
  | .repeated times steps => performRepeated play steps times [] s
  | .hold exclusive steps => s.performHold play exclusive steps

def inOrder (perform : Step → Session → Answer × Session) : Play
  | [], s => ([], s)
  | step :: rest, s =>
    let first := perform step s
    let others := inOrder perform rest first.2
    (first.1 :: others.1, others.2)

-- Runs a script. Scripts set off by scripts run to the given depth only, because a script can set
-- itself off for ever.
def play : Nat → Play
  | 0, _, s => ([], s)
  | depth + 1, steps, s => inOrder (perform (play depth)) steps s

def depthLimit : Nat := 1000

-- What came of a step: its answer, what was logged, and the page.
structure Turn where
  answer : Answer
  log : List LogEntry
  page : Document

-- Runs the steps of a script, each with a log of its own.
def turns : List Step → Session → List Turn
  | [], _ => []
  | step :: rest, s =>
    let done := perform (play depthLimit) step { s with log := [] }
    ⟨done.1, done.2.log, done.2.document⟩ :: turns rest done.2

end PageLocalizer.Session
