import Mathlib.Data.Finset.Dedup
import Mathlib.Data.Finset.Insert
import PageLocalizer.Proofs.Batch

-- Whatever is done with a batch, in any order: what waits in it, and when it asks for its frame.
namespace PageLocalizer.Batch

inductive Act where
  | record (d : Document) (records : List Record) (guard : Guard)
  | take
  | restore (nodes : List NodeId)

-- Whoever takes a batch has no frame to ask for.
def step (b : Batch) : Act → Batched
  | .record d records guard => b.record d records guard
  | .take => ⟨b.take.2, false⟩
  | .restore nodes => b.restore nodes

def run (b : Batch) (acts : List Act) : Batch := acts.foldl (fun b act => (b.step act).batch) b

-- What has come in, repetitions and all, told by what had come in before. A batch that is taken
-- starts again, and what is put back stands in front.
def Act.gather (arrived : List NodeId) : Act → List NodeId
  | .record d records guard =>
    if guard.active then arrived
    else arrived ++ (records.flatMap Record.added).filter d.isElement
  | .take => []
  | .restore nodes => nodes ++ arrived

-- What has come in since the batch was last taken.
def gathered (acts : List Act) : List NodeId := acts.foldl Act.gather []

variable {b : Batch} {arrived : List NodeId}

section Steps

theorem Holds.asks_iff (h : b.Holds arrived) {all : List NodeId} (hall : arrived ≠ [] → all ≠ []) :
    (b.fill all.eraseDups).asksFrame = true ↔
      b.scheduled = false ∧ (b.fill all.eraseDups).batch.scheduled = true := by
  obtain ⟨-, hwaits, hidle⟩ := h.fill hall
  constructor
  · exact fun hasks => ⟨hidle hasks, hwaits.mpr (.inr hasks)⟩
  · rintro ⟨hbefore, hafter⟩
    exact (hwaits.mp hafter).resolve_left (by simp [hbefore])

theorem Holds.step (h : b.Holds arrived) (act : Act) :
    (b.step act).batch.Holds (act.gather arrived) ∧
      ((b.step act).asksFrame = true ↔
        b.scheduled = false ∧ (b.step act).batch.scheduled = true) := by
  cases act with
  | record d records guard =>
      simp only [Batch.step, Act.gather]
      by_cases hg : guard.active = true
      · have hdeaf : b.record d records guard = ⟨b, false⟩ := if_pos hg
        rw [if_pos hg, hdeaf]
        exact ⟨h, by simp⟩
      · rw [if_neg hg, h.record_eq d records (by simpa using hg)]
        have hall {new : List NodeId} : arrived ≠ [] → arrived ++ new ≠ [] :=
          fun hne hn => hne (List.append_eq_nil_iff.mp hn).1
        exact ⟨(h.fill hall).1, h.asks_iff hall⟩
  | take => exact ⟨holds_empty, by simp [Batch.step, take, empty]⟩
  | restore nodes =>
      simp only [Batch.step, Act.gather]
      rw [h.restore_eq nodes]
      have hall : arrived ≠ [] → nodes ++ arrived ≠ [] :=
        fun hne hn => hne (List.append_eq_nil_iff.mp hn).2
      exact ⟨(h.fill hall).1, h.asks_iff hall⟩

theorem Holds.run (h : b.Holds arrived) (acts : List Act) :
    (b.run acts).Holds (acts.foldl Act.gather arrived) := by
  induction acts generalizing b arrived with
  | nil => exact h
  | cons act acts ih => exact ih (h.step act).1

end Steps

-- A batch that keeps the set of the nodes it has seen besides, and looks a node up there.
structure Indexed where
  nodes : List NodeId
  seen : Finset NodeId
  scheduled : Bool

def indexed (b : Batch) : Indexed := ⟨b.nodes, b.nodes.toFinset, b.scheduled⟩

namespace Indexed

def empty : Indexed := { nodes := [], seen := ∅, scheduled := false }

def push (x : Indexed) (id : NodeId) : Indexed :=
  if id ∈ x.seen then x else { x with nodes := x.nodes ++ [id], seen := insert id x.seen }

-- Asks for a frame if something waits and none was asked for.
def settle (x : Indexed) : Indexed × Bool :=
  if x.nodes = [] ∨ x.scheduled then (x, false) else ({ x with scheduled := true }, true)

def step (x : Indexed) : Act → Indexed × Bool
  | .record d records guard =>
    if guard.active then (x, false)
    else (((records.flatMap Record.added).filter d.isElement).foldl push x).settle
  | .take => (empty, false)
  | .restore nodes => ((nodes ++ x.nodes).foldl push { x with nodes := [], seen := ∅ }).settle

def run (x : Indexed) (acts : List Act) : Indexed := acts.foldl (fun x act => (x.step act).1) x

private theorem push_indexed (b : Batch) (id : NodeId) :
    b.indexed.push id = indexed { b with nodes := Batch.push b.nodes id } := by
  unfold push Batch.push indexed
  by_cases hid : id ∈ b.nodes
  · rw [if_pos (List.mem_toFinset.mpr hid), if_pos hid]
  · rw [if_neg (List.mem_toFinset.not.mpr hid), if_neg hid]
    have hseen : insert id b.nodes.toFinset = (b.nodes ++ [id]).toFinset := by
      ext other
      rw [Finset.mem_insert, List.mem_toFinset, List.mem_toFinset, List.mem_append,
        List.mem_singleton, or_comm]
    rw [hseen]

theorem foldl_push_indexed (b : Batch) (ids : List NodeId) :
    ids.foldl push b.indexed = indexed { b with nodes := ids.foldl Batch.push b.nodes } := by
  induction ids generalizing b with
  | nil => rfl
  | cons id ids ih => rw [List.foldl_cons, push_indexed, ih, List.foldl_cons]

theorem settle_indexed (b : Batch) (nodes : List NodeId) :
    (indexed { b with nodes }).settle =
      ((b.fill nodes).batch.indexed, (b.fill nodes).asksFrame) := by
  unfold settle fill indexed
  split <;> rfl

theorem step_indexed (b : Batch) (act : Act) :
    b.indexed.step act = ((b.step act).batch.indexed, (b.step act).asksFrame) := by
  cases act with
  | record d records guard =>
      simp only [step, Batch.step, Batch.record]
      split
      · rfl
      · rw [foldl_push_indexed, settle_indexed]
  | take => rfl
  | restore nodes =>
      have hstart : ({ b.indexed with nodes := [], seen := ∅ } : Indexed) =
          indexed { b with nodes := [] } := rfl
      simp only [step, Batch.step, Batch.restore]
      rw [hstart, foldl_push_indexed, settle_indexed]
      rfl

theorem run_indexed (b : Batch) (acts : List Act) : b.indexed.run acts = (b.run acts).indexed := by
  induction acts generalizing b with
  | nil => rfl
  | cons act acts ih =>
      unfold run at ih ⊢
      rw [List.foldl_cons, step_indexed, ih]
      rfl

end Indexed

-- What a batch shows of what has come in.
structure Accurate (b : Batch) (arrived : List NodeId) : Prop where
  scheduled_iff : b.scheduled = true ↔ 0 < b.nodes.length
  nodup : b.nodes.Nodup
  firsts : FirstOccurrences arrived b.nodes
  -- A frame is asked for when the batch begins to wait, and at no other time.
  asks_iff : ∀ act, (b.step act).asksFrame = true ↔
    b.scheduled = false ∧ (b.step act).batch.scheduled = true

theorem Holds.accurate (h : b.Holds arrived) : b.Accurate arrived where
  scheduled_iff := by
    rw [List.length_pos_iff, ne_eq, h.nodes_eq_nil_iff, Bool.not_eq_false]
  nodup := h.nodes ▸ nodup_eraseDups arrived
  firsts := h.nodes ▸ firstOccurrences_eraseDups arrived
  asks_iff act := (h.step act).2

-- Whatever is recorded, taken and put back, a batch has the first occurrences of what has come in
-- since it was last taken, and waits for a frame while it has any. One that looks its nodes up in a
-- set of their own has the same nodes, that set is always the set of them, and it asks for the same
-- frames.
theorem accurate_run (acts : List Act) :
    (empty.run acts).Accurate (gathered acts) ∧
      Indexed.empty.run acts = (empty.run acts).indexed ∧
      ∀ act, ((Indexed.empty.run acts).step act).2 = ((empty.run acts).step act).asksFrame := by
  have hindexed : Indexed.empty.run acts = (empty.run acts).indexed :=
    Indexed.run_indexed empty acts
  refine ⟨(holds_empty.run acts).accurate, hindexed, fun act => ?_⟩
  rw [hindexed, Indexed.step_indexed]

-- The head and the title come back in front of the document element, though the title came in again
-- in the meantime. The root is no element, and the body came in while the guard was up.
example :
    let inserted (ids : List NodeId) : Record := ⟨Document.body, .children ids []⟩
    let b := empty.run [.record .empty [inserted [Document.head, Document.root, Document.title],
        inserted [Document.head]] .idle, .take,
      .record .empty [inserted [Document.html, Document.title]] .idle,
      .record .empty [inserted [Document.body]] ⟨true⟩,
      .restore [Document.head, Document.title, Document.head]]
    b.nodes = [Document.head, Document.title, Document.html] ∧ b.scheduled = true := by
  decide

end PageLocalizer.Batch
