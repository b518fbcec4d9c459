import PageLocalizer.Document.Edit
-- Subtrees given as data, and the building of nodes in one go.
namespace PageLocalizer

-- A subtree to be built. The name is what its node is to be called afterwards.
inductive Sketch where
  | text (data : String)
  | element (tag : String) (attributes : List (String × String)) (children : List Sketch)
    (name : Option String)
  deriving Inhabited

-- The names that were given to nodes, and the topmost node unless something failed.
structure Built where
  names : List (String × NodeId)
  result : Except EditError NodeId

namespace Document

def setAttributes (id : NodeId) (attributes : List (String × String)) : Edit Unit :=
  Edit.each attributes fun (name, value) => setAttribute id name value

-- An element that is appended once it has its attributes.
def element (parent : NodeId) (tag : String) (attributes : List (String × String)) :
    Edit NodeId := do
  let id ← createElement tag
  setAttributes id attributes
  appendChild parent id
  Edit.pure id

-- The same with a text, which is set last.
def textElement (parent : NodeId) (tag : String) (attributes : List (String × String))
    (text : String) : Edit NodeId := do
  let id ← element parent tag attributes
  setText id text
  Edit.pure id

-- A chain of elements below a node, each the child of the one before. Gives the last one.
def chain (tag : String) : Nat → NodeId → Edit NodeId
  | 0, last => Edit.pure last
  | count + 1, parent => do
    let id ← createElement tag
    appendChild parent id
    chain tag count id

def createAll (tag : String) : Nat → NodeId → Edit NodeId
  | 0, last => Edit.pure last
  | count + 1, _ => do
    let id ← createElement tag
    createAll tag count id

def appendTo (parent : Option NodeId) (child : NodeId) : Edit Unit :=
  match parent with
  | some parent => appendChild parent child
  | none => Edit.pure ()

end Document

namespace Sketch

open Document

mutual

-- Each node is attached before its children are made. The first failure ends it all.
def build (parent : Option NodeId) : Sketch → Edit Built
  | .text data => do
    let id ← createText data
    match ← Edit.attempt (appendTo parent id) with
    | .ok _ => Edit.pure ⟨[], .ok id⟩
    | .error e => Edit.pure ⟨[], .error e⟩
  | .element tag attributes children name => do
    let id ← createElement tag
    setAttributes id attributes
    let names := match name with
      | some name => [(name, id)]
      | none => []
    match ← Edit.attempt (appendTo parent id) with
    | .error e => Edit.pure ⟨names, .error e⟩
    | .ok _ =>
      let below ← buildAll id children
      match below.2 with
      | some e => Edit.pure ⟨names ++ below.1, .error e⟩
      | none => Edit.pure ⟨names ++ below.1, .ok id⟩

-- The names given, and the failure if there was one.
def buildAll (parent : NodeId) : List Sketch → Edit (List (String × NodeId) × Option EditError)
  | [] => Edit.pure ([], none)
  | first :: rest => do
    let built ← build (some parent) first
    match built.result with
    | .error e => Edit.pure (built.names, some e)
    | .ok _ =>
      let others ← buildAll parent rest
      Edit.pure (built.names ++ others.1, others.2)

end

end Sketch
end PageLocalizer
