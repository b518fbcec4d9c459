import Mathlib.Data.List.Basic
import Mathlib.Data.List.Induction
import PageLocalizer.Batch

-- What waits in a batch, told by what has come in.
namespace PageLocalizer

-- The elements among the nodes that a change reports as inserted.
def Change.arrivals (c : Change) : List NodeId := c.record.added.filter c.seen.isElement

namespace Batch

variable {b : Batch} {arrived : List NodeId}

theorem push_eraseDups (xs : List NodeId) (x : NodeId) :
    push xs.eraseDups x = (xs ++ [x]).eraseDups := by
  rw [List.eraseDups_append]
  by_cases h : x ∈ xs
  · simp [push, h, List.removeAll]
  · simp [push, h, List.removeAll, List.eraseDups_cons]

theorem foldl_push (xs ys : List NodeId) :
    ys.foldl push xs.eraseDups = (xs ++ ys).eraseDups := by
  induction ys generalizing xs with
  | nil => simp
  | cons y ys ih =>
      rw [List.foldl_cons, push_eraseDups, ih, List.append_assoc, List.singleton_append]

-- The members of a list, each at the place of its first occurrence.
structure FirstOccurrences (all firsts : List NodeId) : Prop where
  mem_iff (id : NodeId) : id ∈ firsts ↔ id ∈ all
  ordered : firsts.Pairwise fun x y => all.idxOf x < all.idxOf y

theorem FirstOccurrences.nodup {all firsts : List NodeId} (h : FirstOccurrences all firsts) :
    firsts.Nodup :=
  h.ordered.imp fun hlt => ne_of_apply_ne all.idxOf (Nat.ne_of_lt hlt)

-- A new node at the end of a list moves none of the earlier occurrences.
theorem FirstOccurrences.push {all firsts : List NodeId} (h : FirstOccurrences all firsts)
    (x : NodeId) : FirstOccurrences (all ++ [x]) (push firsts x) := by
  have hmem : ∀ id, id ∈ Batch.push firsts x ↔ id ∈ all ++ [x] := by
    intro id
    rw [List.mem_append, List.mem_singleton, ← h.mem_iff id]
    unfold Batch.push
    split
    · next hx => exact ⟨.inl, fun hid => hid.elim (·) fun he => he ▸ hx⟩
    · rw [List.mem_append, List.mem_singleton]
  have hsame : ∀ id ∈ firsts, (all ++ [x]).idxOf id = all.idxOf id :=
    fun id hid => List.idxOf_append_of_mem ((h.mem_iff id).mp hid)
  have hold : firsts.Pairwise fun y z => (all ++ [x]).idxOf y < (all ++ [x]).idxOf z :=
    h.ordered.imp_of_mem fun hy hz hlt => by rwa [hsame _ hy, hsame _ hz]
  refine ⟨hmem, ?_⟩
  unfold Batch.push
  split
  · exact hold
  · next hx =>
      refine List.pairwise_append.mpr ⟨hold, List.pairwise_singleton _ _, fun y hy z hz => ?_⟩
      have hnew : x ∉ all := fun hm => hx ((h.mem_iff x).mpr hm)
      rw [List.mem_singleton.mp hz, hsame y hy, List.idxOf_append_of_notMem hnew]
      exact Nat.lt_of_lt_of_le (List.idxOf_lt_length_of_mem ((h.mem_iff y).mp hy))
        (Nat.le_add_right _ _)

theorem firstOccurrences_eraseDups (xs : List NodeId) : FirstOccurrences xs xs.eraseDups := by
  induction xs using List.reverseRecOn with
  | nil => exact ⟨fun _ => Iff.rfl, List.Pairwise.nil⟩
  | append_singleton xs x ih => exact push_eraseDups xs x ▸ ih.push x

theorem nodup_eraseDups (xs : List NodeId) : xs.eraseDups.Nodup :=
  (firstOccurrences_eraseDups xs).nodup

-- Nodes that come behind others may have lost their repetitions before.
theorem eraseDups_append_eraseDups (xs ys : List NodeId) :
    (xs ++ ys.eraseDups).eraseDups = (xs ++ ys).eraseDups := by
  induction ys using List.reverseRecOn with
  | nil => rfl
  | append_singleton ys y ih =>
      rw [← push_eraseDups ys y, ← List.append_assoc, ← push_eraseDups (xs ++ ys) y, ← ih]
      unfold push
      by_cases hy : y ∈ ys
      · rw [if_pos (List.mem_eraseDups.mpr hy), if_pos (by simp [hy])]
      · rw [if_neg (List.mem_eraseDups.not.mpr hy), ← List.append_assoc, ← push_eraseDups]
        rfl

theorem eraseDups_eq_nil_iff {xs : List NodeId} : xs.eraseDups = [] ↔ xs = [] := by
  cases xs <;> simp [List.eraseDups_cons]

-- The batch of all that has arrived since the last one was taken.
structure Holds (b : Batch) (arrived : List NodeId) : Prop where
  nodes : b.nodes = arrived.eraseDups
  scheduled : b.scheduled = true ↔ arrived ≠ []

theorem holds_empty : empty.Holds [] := ⟨rfl, by simp [empty]⟩

theorem Holds.idle_iff (h : b.Holds arrived) : b.scheduled = false ↔ arrived = [] := by
  rw [← Bool.not_eq_true, h.scheduled, not_ne_iff]

theorem Holds.nodes_eq_nil_iff (h : b.Holds arrived) : b.nodes = [] ↔ b.scheduled = false := by
  rw [h.nodes, eraseDups_eq_nil_iff, h.idle_iff]

-- A batch is given all that has arrived for it. It asks for its frame when it begins to wait.
theorem Holds.fill (h : b.Holds arrived) {all : List NodeId} (hall : arrived ≠ [] → all ≠ []) :
    (b.fill all.eraseDups).batch.Holds all ∧
      ((b.fill all.eraseDups).batch.scheduled = true ↔ b.scheduled = true ∨
        (b.fill all.eraseDups).asksFrame = true) ∧
      ((b.fill all.eraseDups).asksFrame = true → b.scheduled = false) := by
  unfold Batch.fill
  by_cases hs : b.scheduled = true
  · rw [if_pos (Or.inr hs)]
    exact ⟨⟨rfl, by simp [hs, hall (h.scheduled.mp hs)]⟩, by simp [hs], by simp⟩
  · by_cases hn : all = []
    · rw [if_pos (Or.inl (eraseDups_eq_nil_iff.mpr hn))]
      exact ⟨⟨rfl, by simp [hs, hn]⟩, by simp, by simp⟩
    · rw [if_neg (by simp [eraseDups_eq_nil_iff.not.mpr hn, hs])]
      exact ⟨⟨rfl, by simp [hn]⟩, by simp, by simp [hs]⟩

-- What is recorded comes behind what waits.
theorem Holds.record_eq (h : b.Holds arrived) (d : Document) (records : List Record)
    {guard : Guard} (hg : guard.active = false) : b.record d records guard =
      b.fill (arrived ++ (records.flatMap Record.added).filter d.isElement).eraseDups := by
  unfold Batch.record
  rw [if_neg (by simp [hg]), h.nodes, foldl_push]

-- What is put back comes before what waits.
theorem Holds.restore_eq (h : b.Holds arrived) (nodes : List NodeId) :
    b.restore nodes = b.fill (nodes ++ arrived).eraseDups := by
  have hall := foldl_push [] (nodes ++ b.nodes)
  rw [List.eraseDups_nil, List.nil_append, h.nodes, eraseDups_append_eraseDups] at hall
  unfold Batch.restore
  rw [h.nodes, hall]

theorem Holds.record (h : b.Holds arrived) (c : Change) {guard : Guard}
    (hg : guard.active = false) :
    (b.record c.seen [c.record] guard).batch.Holds (arrived ++ c.arrivals) ∧
      ((b.record c.seen [c.record] guard).batch.scheduled = true ↔ b.scheduled = true ∨
        (b.record c.seen [c.record] guard).asksFrame = true) ∧
      ((b.record c.seen [c.record] guard).asksFrame = true → b.scheduled = false) := by
  have harrivals : ([c.record].flatMap Record.added).filter c.seen.isElement = c.arrivals := by
    simp [Change.arrivals]
  rw [h.record_eq c.seen [c.record] hg, harrivals]
  exact h.fill fun hne hn => hne (List.append_eq_nil_iff.mp hn).1

-- What is taken and put back again stays as it was, and asks for a frame again.
theorem Holds.restore_take (h : b.Holds arrived) (hs : b.scheduled = true) :
    b.take.2.restore b.take.1 = ⟨b, true⟩ := by
  have hne : b.nodes ≠ [] := fun hn => by simp [h.nodes_eq_nil_iff.mp hn] at hs
  have hnodes : (b.nodes ++ []).eraseDups = b.nodes := by
    rw [List.append_nil, h.nodes]
    exact eraseDups_append_eraseDups [] arrived
  have hbatch : b = ⟨b.nodes, true⟩ := by rw [← hs]
  have hrestore : empty.restore b.nodes = empty.fill b.nodes := by
    rw [holds_empty.restore_eq, hnodes]
  unfold take
  dsimp only
  rw [hrestore, Batch.fill, if_neg (by simp [hne, empty]), ← hbatch]

end Batch
end PageLocalizer
