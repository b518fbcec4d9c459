import PageLocalizer.Document.Basic
import PageLocalizer.Dataset
-- Walks over the node tree: up to the ancestors, and down in document order.
--
-- Both walks carry the number of steps they may take. A tree has no more levels than the table
-- has slots, so that number is enough.
namespace PageLocalizer.Document

-- The node and its ancestors, nearest first, at most `steps` of them.
def lineage (d : Document) : Nat → NodeId → List NodeId
  | 0, _ => []
  | steps + 1, id =>
    id :: match d.parent? id with
      | some parent => d.lineage steps parent
      | none => []

-- Whether `node` is `ancestor` or lies below it.
def contains (d : Document) (ancestor node : NodeId) : Bool :=
  (d.lineage (d.allocated + 1) node).contains ancestor

-- The nodes down to `levels` levels below `id`, each before what lies below it.
def below (d : Document) : Nat → NodeId → List NodeId
  | 0, _ => []
  | levels + 1, id => (d.children id).flatMap fun child => child :: d.below levels child

-- Everything below `id` in document order, `id` itself left out.
def descendants (d : Document) (id : NodeId) : List NodeId := d.below d.allocated id

def subtree (d : Document) (id : NodeId) : List NodeId := id :: d.descendants id

-- A walk down that is under way: the nodes that it has seen and not yet given, the top of its
-- stack first.
structure Descent where
  pending : List NodeId

def descent (d : Document) (root : NodeId) : Descent := ⟨d.children root⟩

-- Takes the top node off the stack and puts its children there, the first one on top.
def Descent.next? (d : Document) (walk : Descent) : Option (NodeId × Descent) :=
  match walk.pending with
  | [] => none
  | id :: rest => some (id, ⟨d.children id ++ rest⟩)

def textData? (d : Document) (id : NodeId) : Option String :=
  match d.kind? id with
  | some (.text data) => some data
  | _ => none

-- The data of a text node, or all text below a container in document order.
def textContent (d : Document) (id : NodeId) : String :=
  match d.kind? id with
  | some (.text data) => data
  | some _ => String.join ((d.descendants id).filterMap d.textData?)
  | none => ""

def titleText (d : Document) : String := d.textContent title

-- The `data-*` attributes under their dataset names, in attribute order.
def dataset (d : Document) (id : NodeId) : List (String × String) :=
  Dataset.ofAttributes (d.attributes id)

-- The nodes that the page cannot do without.
def skeleton : List NodeId := [root, html, title, body]

end PageLocalizer.Document
