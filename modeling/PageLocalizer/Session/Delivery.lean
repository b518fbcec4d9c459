import PageLocalizer.Session.State
-- Changes of the page and those who hear of them.
--
-- While an edit is made and its changes are told, nobody else has the page. How scripts run is a
-- parameter here: what an engine does must not depend on it.
namespace PageLocalizer

-- Runs the steps of a script one after the other and gives their answers.
abbrev Play := List Step → Session → List Answer × Session

namespace Session

def requestFlush (id : EngineId) (s : Session) : Session := Frames.request s (FrameJob.flush id)

-- Applies a batch operation of an engine, and asks for a frame if the batch needs one.
def rebatch (id : EngineId) (b : Batched) (s : Session) : Session :=
  let s := s.modifyEngine id ({ · with batch := b.batch })
  if b.asksFrame then s.requestFlush id else s

def engineHears (id : EngineId) (c : Change) (s : Session) : Session :=
  match s.engine? id with
  | some e => s.rebatch id (e.batch.record c.seen [c.record] e.guard)
  | none => s

-- One listener hears of a change. A registration that nobody stands behind any more is passed over.
def hear (play : Play) (c : Change) (s : Session) (observer : ObserverId) : Session :=
  match s.listeners.lookup observer with
  | some (.engine id) => s.engineHears id c
  | some (.script name none) => s.record (.heard name c)
  | some (.script name (some steps)) =>
    let reacted := play steps (s.record (.heard name c))
    reacted.2.record (.ran name reacted.1)
  | none => s

-- Tells of changes in order, each to all whom it concerns.
def deliver (play : Play) (changes : List Change) (s : Session) : Session :=
  changes.foldl (fun s c => c.audience.foldl (hear play c) s) s

-- Makes an edit of a page that nobody else has.
def write (play : Play) (edit : Edit α) (s : Session) : Except EditError α × Session :=
  let edited := edit s.document
  let told := deliver play edited.changes
    { s with document := edited.document, access := .exclusive }
  (edited.result, { told with access := .free })

end Session
end PageLocalizer
