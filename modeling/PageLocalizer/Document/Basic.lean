-- A page as a table of nodes: the types, and how a node is looked up.
--
-- A node id is a slot of the table and the generation of the slot's tenant. Releasing a node moves
-- its slot to the next generation, so ids of earlier tenants no longer find anything.
namespace PageLocalizer

structure NodeId where
  index : Nat
  generation : UInt32
  deriving Repr, DecidableEq, Hashable, Inhabited

-- Attributes stand in the order in which they were first set.
structure Element where
  tag : String
  attributes : List (String × String)
  deriving Repr, DecidableEq

inductive NodeKind where
  | document
  | element (e : Element)
  | text (data : String)
  deriving Repr, DecidableEq

namespace NodeKind

def isText : NodeKind → Bool
  | .text _ => true
  | _ => false

def isElement : NodeKind → Bool
  | .element _ => true
  | _ => false

def isContainer : NodeKind → Bool
  | .text _ => false
  | _ => true

end NodeKind

structure Slot where
  generation : UInt32
  parent : Option NodeId
  children : List NodeId
  kind : NodeKind
  deriving Repr, DecidableEq

-- What a slot holds when nobody lives in it.
def Slot.vacant (generation : UInt32) : Slot :=
  { generation, parent := none, children := [], kind := .text "" }

-- Identifies a registration for as long as the document exists.
abbrev ObserverId := Nat

-- Hears of every change to `target` and to whatever lies below it at the time.
structure Observer where
  id : ObserverId
  target : NodeId
  deriving Repr, DecidableEq

structure Document where
  slots : Array Slot
  -- Vacant slots, the one to be used next in front.
  free : List Nat
  -- In the order of registration.
  observers : List Observer
  nextObserver : ObserverId
  deriving Repr, DecidableEq

namespace Document

-- The nodes that every page starts with, in the slots they are created in.
def root : NodeId := ⟨0, 0⟩
def html : NodeId := ⟨1, 0⟩
def head : NodeId := ⟨2, 0⟩
def title : NodeId := ⟨3, 0⟩
def body : NodeId := ⟨4, 0⟩

-- An element as it is created.
def bareElement (tag : String) : NodeKind := .element { tag := tag.toLower, attributes := [] }

def empty : Document where
  slots := #[
    { generation := 0, parent := none, children := [html], kind := .document },
    { generation := 0, parent := some root, children := [head, body], kind := bareElement "html" },
    { generation := 0, parent := some html, children := [title], kind := bareElement "head" },
    { generation := 0, parent := some head, children := [], kind := bareElement "title" },
    { generation := 0, parent := some html, children := [], kind := bareElement "body" }]
  free := []
  observers := []
  nextObserver := 0

-- The tenant that `id` names, when it is the present tenant of its slot.
def node? (d : Document) (id : NodeId) : Option Slot :=
  (d.slots[id.index]?).filter (·.generation = id.generation)

def parent? (d : Document) (id : NodeId) : Option NodeId := (d.node? id).bind (·.parent)

def children (d : Document) (id : NodeId) : List NodeId :=
  match d.node? id with
  | some node => node.children
  | none => []

def kind? (d : Document) (id : NodeId) : Option NodeKind := (d.node? id).map (·.kind)

def isText (d : Document) (id : NodeId) : Bool := (d.kind? id).any NodeKind.isText

def isElement (d : Document) (id : NodeId) : Bool := (d.kind? id).any NodeKind.isElement

def isContainer (d : Document) (id : NodeId) : Bool := (d.kind? id).any NodeKind.isContainer

def element? (d : Document) (id : NodeId) : Option Element :=
  match d.kind? id with
  | some (.element e) => some e
  | _ => none

def tagName? (d : Document) (id : NodeId) : Option String := (d.element? id).map (·.tag)

def attributes (d : Document) (id : NodeId) : List (String × String) :=
  match d.element? id with
  | some e => e.attributes
  | none => []

def attribute? (d : Document) (id : NodeId) (name : String) : Option String :=
  (d.attributes id).lookup name

def hasAttribute (d : Document) (id : NodeId) (name : String) : Bool :=
  (d.attribute? id name).isSome

-- Slots in use or vacant. The table never shrinks.
def allocated (d : Document) : Nat := d.slots.size

end Document
end PageLocalizer
