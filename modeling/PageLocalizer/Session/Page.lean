import PageLocalizer.Document.Markup
import PageLocalizer.Session.State
-- Steps that deal with the page alone: edits and questions, with names for nodes.
namespace PageLocalizer

open PageLocalizer.Dashboard

-- What a step comes to, and the names it gives.
structure Outcome where
  answer : Answer
  names : List (String × NodeId)

namespace Outcome

def silent (_ : α) : Outcome := ⟨.none, []⟩

def just (answer : Answer) : Outcome := ⟨answer, []⟩

-- A node, which gets a name if there is one for it.
def named (name : Option String) (id : NodeId) : Outcome :=
  match name with
  | some name => ⟨.node id, [(name, id)]⟩
  | none => ⟨.node id, []⟩

def ofBuilt (b : Built) : Outcome :=
  match b.result with
  | .ok id => ⟨.node id, b.names⟩
  | .error e => ⟨.failed (.edit e), b.names⟩

def ofLayout (l : Layout) : Outcome :=
  ⟨.layout l, [("heading", l.heading), ("header", l.header), ("messages", l.messages),
    ("update_notice", l.updateNotice), ("nav", l.nav), ("main", l.main), ("footer", l.footer)]⟩

def ofTable (t : ProcessTable) : Outcome :=
  ⟨.processTable t, [("section", t.container), ("table", t.table), ("count", t.count),
    ("pager", t.pager)]⟩

end Outcome

-- An edit that turns what comes of it into an outcome. A failure is an outcome too.
def Edit.answering (x : Edit α) (f : α → Outcome) : Edit Outcome := fun d =>
  let edited := x d
  let outcome := match edited.result with
    | .ok a => f a
    | .error e => Outcome.just (.failed (.edit e))
  ⟨.ok outcome, edited.document, edited.changes⟩

-- The edit that a step asks for, when all its names stand for nodes.
def PageEdit.plan (nodes : Table String NodeId) : PageEdit → Option (Edit Outcome)
  | .create tag name => some ((Document.createElement tag).answering (.named name))
  | .createText data name => some ((Document.createText data).answering (.named name))
  | .append parent child => do
    some ((Document.appendChild (← nodes.lookup parent) (← nodes.lookup child)).answering .silent)
  | .removeChild parent child => do
    some ((Document.removeChild (← nodes.lookup parent) (← nodes.lookup child)).answering .silent)
  | .remove node => do some ((Document.remove (← nodes.lookup node)).answering .silent)
  | .release node => do some ((Document.release (← nodes.lookup node)).answering .silent)
  | .setAttribute node attr value => do
    some ((Document.setAttribute (← nodes.lookup node) attr value).answering .silent)
  | .removeAttribute node attr => do
    some ((Document.removeAttribute (← nodes.lookup node) attr).answering .silent)
  | .setText node text => do some ((Document.setText (← nodes.lookup node) text).answering .silent)
  | .setTitle text => some ((Document.setTitle text).answering .silent)
  | .build none sketch => some ((sketch.build none).answering .ofBuilt)
  | .build (some parent) sketch => do
    some ((sketch.build (some (← nodes.lookup parent))).answering .ofBuilt)
  | .nest parent count tag name => do
    some ((Document.chain tag count (← nodes.lookup parent)).answering (.named name))
  | .layout options => some ((Layout.build options).answering .ofLayout)
  | .processTable parent => do
    some ((ProcessTable.build (← nodes.lookup parent)).answering .ofTable)
  | .processRow process name => some (process.row.answering (.named name))
  | .clearRows table => do
    some ((ProcessTable.clearRows (← nodes.lookup table)).answering fun n => .just (.count n))
  | .setPage pager page total => do
    some ((ProcessTable.setPage (← nodes.lookup pager) page total).answering .silent)
  | .setCount count processes => do
    some ((ProcessTable.setCount (← nodes.lookup count) processes).answering .silent)

def Document.portrait (d : Document) (id : NodeId) : Portrait :=
  { id
    kind := d.kind? id
    parent := d.parent? id
    children := d.children id
    descendants := d.descendants id
    text := d.textContent id
    tagName := d.tagName? id
    isElement := d.isElement id
    isContainer := d.isContainer id
    attributes := d.attributes id
    dataset := d.dataset id
    connected := d.contains root id }

-- The answer to a question, when all its names stand for nodes.
def PageQuery.outcome (nodes : Table String NodeId) (d : Document) : PageQuery → Option Outcome
  | .title => some (.just (.text d.titleText))
  | .allocated => some (.just (.count d.allocated))
  | .observerCount => some (.just (.count d.observers.length))
  | .html => some (.just (.text (d.outerHtml Document.root)))
  | .outer node => do some (.just (.text (d.outerHtml (← nodes.lookup node))))
  | .inner node => do some (.just (.text (d.innerHtml (← nodes.lookup node))))
  | .textOf node => do some (.just (.text (d.textContent (← nodes.lookup node))))
  | .contains ancestor node => do
    some (.just (.flag (d.contains (← nodes.lookup ancestor) (← nodes.lookup node))))
  | .child node index name => do
    match (d.children (← nodes.lookup node))[index]? with
    | some id => some (.named name id)
    | none => some (.just .none)
  | .attribute node attr => do
    some (.just (.attribute (d.attribute? (← nodes.lookup node) attr)))
  | .look node => do some (.just (.portrait (d.portrait (← nodes.lookup node))))
  | .collect root directive => do
    some (.just (.nodes (directive.collect d (← nodes.lookup root))))
  | .params node => do some (.just (.params (d.templateParams (← nodes.lookup node))))
  | .key node directive => do
    some (.just (.optionalText (directive.key? d (← nodes.lookup node))))

namespace Session

def nodeNamed (s : Session) (name : String) : Option NodeId := s.names.nodes.lookup name

def modifyNames (f : Names → Names) (s : Session) : Session := { s with names := f s.names }

def nameNodes (named : List (String × NodeId)) (s : Session) : Session :=
  s.modifyNames fun names =>
    { names with nodes := named.foldl (fun t (name, id) => t.set name id) names.nodes }

end Session
end PageLocalizer
