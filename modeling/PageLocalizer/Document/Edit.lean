import PageLocalizer.Document.Change
-- Edits of a page.
--
-- An edit yields the page after it and the changes it made, each with the page as it stood when
-- the change was reported. An edit that fails keeps what it had done before the failure.
namespace PageLocalizer

inductive EditError where
  | unknownNode
  | textParent
  | documentChild
  | insertionCycle
  | notAChild
  | skeletonRelease
  | attachedRelease
  deriving Repr, DecidableEq

def EditError.message : EditError → String
  | .unknownNode => "unknown node"
  | .textParent => "text nodes cannot have children"
  | .documentChild => "the document node cannot be inserted"
  | .insertionCycle => "a node cannot be inserted into itself"
  | .notAChild => "node is not a child of the given parent"
  | .skeletonRelease => "the page skeleton cannot be released"
  | .attachedRelease => "only detached nodes can be released"

structure Edited (α : Type) where
  result : Except EditError α
  document : Document
  changes : List Change

def Edit (α : Type) : Type := Document → Edited α

namespace Edit

def pure (a : α) : Edit α := fun d => ⟨.ok a, d, []⟩

def fail (e : EditError) : Edit α := fun d => ⟨.error e, d, []⟩

-- A failure ends a sequence; the changes made so far stay made.
def bind (x : Edit α) (f : α → Edit β) : Edit β := fun d =>
  match x d with
  | ⟨.ok a, d, changes⟩ =>
    let next := f a d
    ⟨next.result, next.document, changes ++ next.changes⟩
  | ⟨.error e, d, changes⟩ => ⟨.error e, d, changes⟩

instance : Monad Edit where
  pure := pure
  bind := bind

def read (f : Document → α) : Edit α := fun d => ⟨.ok (f d), d, []⟩

def each : List β → (β → Edit Unit) → Edit Unit
  | [], _ => pure ()
  | b :: rest, f => bind (f b) fun _ => each rest f

def attempt (x : Edit α) : Edit (Except EditError α) := fun d =>
  let edited := x d
  ⟨.ok edited.result, edited.document, edited.changes⟩

end Edit

namespace Document

def modifySlot (d : Document) (index : Nat) (f : Slot → Slot) : Document :=
  { d with slots := d.slots.modify index f }

-- A vacant slot is preferred to a new one.
def create (kind : NodeKind) : Edit NodeId := fun d =>
  match d.free with
  | index :: free =>
    let generation := match d.slots[index]? with
      | some slot => slot.generation
      | none => 0
    ⟨.ok ⟨index, generation⟩, { d.modifySlot index ({ · with kind }) with free }, []⟩
  | [] =>
    let slot : Slot := { generation := 0, parent := none, children := [], kind }
    ⟨.ok ⟨d.slots.size, 0⟩, { d with slots := d.slots.push slot }, []⟩

-- A detached element without attributes. Its tag is lower case.
def createElement (tag : String) : Edit NodeId := create (bareElement tag)

def createText (data : String) : Edit NodeId := create (.text data)

def link (d : Document) (parent child : NodeId) : Document :=
  (d.modifySlot child.index ({ · with parent := some parent })).modifySlot parent.index
    fun slot => { slot with children := slot.children ++ [child] }

def unlink (d : Document) (parent child : NodeId) : Document :=
  (d.modifySlot parent.index fun slot =>
    { slot with children := slot.children.filter (· ≠ child) }).modifySlot child.index
    ({ · with parent := none })

-- Appends `child` as the last child of `parent`. A child that has a parent leaves it first, and
-- leaving and joining are two changes.
def appendChild (parent child : NodeId) : Edit Unit := fun d =>
  match d.node? parent, d.node? child with
  | some p, some c =>
    if p.kind.isText then Edit.fail .textParent d
    else if c.kind = .document then Edit.fail .documentChild d
    else if d.contains child parent then Edit.fail .insertionCycle d
    else
      let left : Document × List Change := match c.parent with
        | some old =>
          let d := d.unlink old child
          (d, [⟨⟨old, .children [] [child]⟩, d⟩])
        | none => (d, [])
      let d := left.1.link parent child
      ⟨.ok (), d, left.2 ++ [⟨⟨parent, .children [child] []⟩, d⟩]⟩
  | _, _ => Edit.fail .unknownNode d

-- Detaches `child`, which stays alive.
def removeChild (parent child : NodeId) : Edit Unit := fun d =>
  if d.parent? child = some parent then
    let d := d.unlink parent child
    ⟨.ok (), d, [⟨⟨parent, .children [] [child]⟩, d⟩]⟩
  else Edit.fail .notAChild d

-- The subtree of `id`, when nothing in it belongs to the skeleton.
def releasable (d : Document) (id : NodeId) : Except EditError (List NodeId) :=
  if (d.node? id).isNone then .error .unknownNode
  else if (d.subtree id).any skeleton.contains then .error .skeletonRelease
  else .ok (d.subtree id)

-- Ends the tenancy of a slot. Its next tenant has the next generation.
def vacate (d : Document) (id : NodeId) : Document :=
  { d.modifySlot id.index (fun slot => Slot.vacant (slot.generation + 1)) with
    free := id.index :: d.free }

def vacateAll (d : Document) (ids : List NodeId) : Document := ids.foldl vacate d

-- Detaches `id` if it is attached, and releases it with everything below it.
def remove (id : NodeId) : Edit Unit := fun d =>
  match d.releasable id with
  | .error e => Edit.fail e d
  | .ok ids =>
    let detached := match d.parent? id with
      | some parent => removeChild parent id d
      | none => ⟨.ok (), d, []⟩
    { detached with document := detached.document.vacateAll ids }

-- Releases a detached node with everything below it.
def release (id : NodeId) : Edit Unit := fun d =>
  match d.releasable id with
  | .error e => Edit.fail e d
  | .ok ids =>
    if (d.parent? id).isSome then Edit.fail .attachedRelease d
    else ⟨.ok (), d.vacateAll ids, []⟩

-- A new value takes the place of the old one; a new attribute comes last.
def setEntry (name value : String) : List (String × String) → List (String × String)
  | [] => [(name, value)]
  | (n, v) :: rest => if n = name then (n, value) :: rest else (n, v) :: setEntry name value rest

def withAttributes (d : Document) (id : NodeId) (e : Element)
    (attributes : List (String × String)) : Document :=
  d.modifySlot id.index ({ · with kind := .element { e with attributes } })

-- Nodes other than elements are left alone. Setting the value that is there is a change too.
def setAttribute (id : NodeId) (name value : String) : Edit Unit := fun d =>
  match d.element? id with
  | none => ⟨.ok (), d, []⟩
  | some e =>
    let after := d.withAttributes id e (setEntry name value e.attributes)
    ⟨.ok (), after, [⟨⟨id, .attribute name (e.attributes.lookup name)⟩, after⟩]⟩

def removeAttribute (id : NodeId) (name : String) : Edit Unit := fun d =>
  match d.element? id with
  | none => ⟨.ok (), d, []⟩
  | some e =>
    match e.attributes.lookup name with
    | none => ⟨.ok (), d, []⟩
    | some old =>
      let after := d.withAttributes id e (e.attributes.eraseP (·.1 = name))
      ⟨.ok (), after, [⟨⟨id, .attribute name (some old)⟩, after⟩]⟩

-- The text node whose data setting the text of `id` replaces, when there is one: a text node
-- itself, or the only child of a container that is given text.
def textTarget? (d : Document) (id : NodeId) (node : Slot) (text : String) : Option NodeId :=
  match node.kind, node.children with
  | .text _, _ => some id
  | _, [only] => if text ≠ "" ∧ d.isText only then some only else none
  | _, _ => none

def orphan (d : Document) (ids : List NodeId) : Document :=
  ids.foldl (fun d id => d.modifySlot id.index ({ · with parent := none })) d

def strip (d : Document) (id : NodeId) (children : List NodeId) : Document :=
  (d.modifySlot id.index ({ · with children := [] })).orphan children

-- Gives a node a new text node as its child, or nothing for the empty text. Also tells what joined.
def fill (d : Document) (id : NodeId) (text : String) : Document × List NodeId :=
  if text = "" then (d, [])
  else match createText text d with
    | ⟨.ok child, d, _⟩ => (d.link id child, [child])
    | ⟨.error _, d, _⟩ => (d, [])

-- Releases some nodes with everything below them, except those that hold a part of the skeleton.
def releaseEach (d : Document) (ids : List NodeId) : Document :=
  ids.foldl (fun d id =>
    match d.releasable id with
    | .ok ids => d.vacateAll ids
    | .error _ => d) d

-- Replaces the children of a container by one text node, or by nothing for the empty text. The
-- former children are released, except that nodes holding a part of the skeleton only lose their
-- place. It is one change.
def replaceChildren (id : NodeId) (removed : List NodeId) (text : String) : Edit Unit := fun d =>
  let filled := (d.strip id removed).fill id text
  if removed = [] ∧ filled.2 = [] then ⟨.ok (), filled.1, []⟩
  else ⟨.ok (), filled.1.releaseEach removed, [⟨⟨id, .children filled.2 removed⟩, filled.1⟩]⟩

-- Makes `text` the text content of `id`. Unknown nodes are left alone.
def setText (id : NodeId) (text : String) : Edit Unit := fun d =>
  match d.node? id with
  | none => ⟨.ok (), d, []⟩
  | some node =>
    match d.textTarget? id node text with
    | some target =>
      let old := (d.textData? target).getD ""
      let after := d.modifySlot target.index ({ · with kind := .text text })
      ⟨.ok (), after, [⟨⟨target, .text old⟩, after⟩]⟩
    | none => replaceChildren id node.children text d

def setTitle (text : String) : Edit Unit := setText title text

-- Registers an observer. Its id was never given before.
def observe (target : NodeId) : Edit ObserverId := fun d =>
  ⟨.ok d.nextObserver,
    { d with
      observers := d.observers ++ [⟨d.nextObserver, target⟩]
      nextObserver := d.nextObserver + 1 }, []⟩

-- Unknown ids are ignored.
def disconnect (id : ObserverId) : Edit Unit := fun d =>
  ⟨.ok (), { d with observers := d.observers.filter (·.id ≠ id) }, []⟩

end Document
end PageLocalizer
