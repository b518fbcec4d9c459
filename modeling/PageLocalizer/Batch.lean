import PageLocalizer.Document.Change
import PageLocalizer.Guard
-- The inserted elements that wait for the next frame.
--
-- However many insertions there are between two frames, only the first one asks for a frame.
namespace PageLocalizer

structure Batch where
  -- In the order of arrival, each node once.
  nodes : List NodeId
  scheduled : Bool
  deriving Repr, DecidableEq

-- A batch, and whether its owner has to ask for a frame.
structure Batched where
  batch : Batch
  asksFrame : Bool
  deriving Repr, DecidableEq

namespace Batch

def empty : Batch := { nodes := [], scheduled := false }

-- A node that waits already keeps its place.
def push (nodes : List NodeId) (id : NodeId) : List NodeId :=
  if id ∈ nodes then nodes else nodes ++ [id]

-- Gives a batch its nodes. One that has nodes needs a frame.
def fill (b : Batch) (nodes : List NodeId) : Batched :=
  if nodes = [] ∨ b.scheduled then ⟨{ b with nodes }, false⟩
  else ⟨{ nodes, scheduled := true }, true⟩

-- Takes up the elements that the records report as inserted, unless the guard is up. `d` tells
-- which nodes are elements.
def record (b : Batch) (d : Document) (records : List Record) (guard : Guard) : Batched :=
  if guard.active then ⟨b, false⟩
  else b.fill (((records.flatMap Record.added).filter d.isElement).foldl push b.nodes)

-- The waiting nodes, and the batch that starts after them.
def take (b : Batch) : List NodeId × Batch := (b.nodes, empty)

-- Puts nodes that could not be handled in front of those that came since.
def restore (b : Batch) (nodes : List NodeId) : Batched :=
  b.fill ((nodes ++ b.nodes).foldl push [])

end Batch
end PageLocalizer
