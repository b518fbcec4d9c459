import PageLocalizer.Document.Tree
-- What observers are told about a change.
namespace PageLocalizer

inductive ChangeKind where
  -- Nodes left and joined the target's children.
  | children (added removed : List NodeId)
  -- An attribute was set or removed; `old` is its value before.
  | attribute (name : String) (old : Option String)
  -- The data of a text node was replaced.
  | text (old : String)
  deriving Repr, DecidableEq

structure Record where
  target : NodeId
  kind : ChangeKind
  deriving Repr, DecidableEq

def Record.added (r : Record) : List NodeId :=
  match r.kind with
  | .children added _ => added
  | _ => []

-- A record together with the page as its observers see it.
structure Change where
  record : Record
  seen : Document
  deriving Repr, DecidableEq

-- The observers that a change to `target` concerns, in the order of registration.
def Document.audience (d : Document) (target : NodeId) : List ObserverId :=
  (d.observers.filter fun o => d.contains o.target target).map (·.id)

def Change.audience (c : Change) : List ObserverId := c.seen.audience c.record.target

end PageLocalizer
