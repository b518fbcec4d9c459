import PageLocalizer.Proofs.Document.Chronicle
import PageLocalizer.Proofs.Edit

-- What holds of a page at every point of every run.
namespace PageLocalizer.Document

-- Both kinds of link make one forest of the nodes that live, and the free list has the slots of
-- all others.
structure Chronicle.Consistent (h : Chronicle) : Prop where
  -- An id that was handed out finds a node exactly while that node lives.
  found_iff : ∀ id ∈ h.issued, (h.document.node? id).isSome ↔ h.Lives id
  mem_children_iff : ∀ p c, h.Lives p → h.Lives c →
    (c ∈ h.document.children p ↔ h.document.parent? c = some p)
  count_children : ∀ p, ∀ c ∈ h.document.children p, (h.document.children p).count c = 1
  -- Whatever a slot refers to lives.
  stored_live : ∀ (i : Nat) (slot : Slot), h.document.slots[i]? = some slot →
    (∀ p ∈ slot.parent, h.Lives p) ∧ ∀ c ∈ slot.children, h.Lives c
  acyclic : ∀ id, ¬Relation.TransGen (fun c p => h.document.parent? c = some p) id id
  -- Walks up and walks down come to an end, and the steps they are given are enough for it.
  up_wellFounded : WellFounded fun p c => h.document.parent? c = some p
  down_wellFounded : WellFounded fun c p => c ∈ h.document.children p
  lineage_stable : ∀ id more, h.document.lineage (h.document.allocated + 1 + more) id =
    h.document.lineage (h.document.allocated + 1) id
  below_stable : ∀ id more, h.document.below (h.document.allocated + more) id =
    h.document.below h.document.allocated id
  contains_iff : ∀ a id, h.document.contains a id = true ↔
    Relation.ReflTransGen (fun c p => h.document.parent? c = some p) id a
  mem_descendants_iff : ∀ a id, id ∈ h.document.descendants a ↔
    Relation.TransGen (fun c p => h.document.parent? c = some p) id a
  text_children : ∀ id, h.Lives id → h.document.isText id → h.document.children id = []
  document_parent : ∀ id, h.Lives id → h.document.kind? id = some .document →
    h.document.parent? id = none
  attribute_names : ∀ id, ((h.document.attributes id).map Prod.fst).Nodup
  free_nodup : h.document.free.Nodup
  mem_free_iff : ∀ i, i ∈ h.document.free ↔
    i < h.document.allocated ∧ ∀ id, h.Lives id → id.index ≠ i
  free_unlinked : ∀ i ∈ h.document.free, ∃ slot, h.document.slots[i]? = some slot ∧
    slot.parent = none ∧ slot.children = []

section Consistent

variable {d : Document} {h : Chronicle} {id x a : NodeId}

theorem children_wellFounded (hf : d.links.Forest) : WellFounded fun c p => c ∈ d.children p := by
  refine Subrelation.wf (fun {c p} hc => ?_) (measure fun x => d.allocated - d.depth x).wf
  have hp := hf.parent_of_mem hc
  have hle := depth_le hf hp
  have heq := depth_of_parent hf hp
  show d.allocated - d.depth c < d.allocated - d.depth p
  omega

-- Strictly below a node is what its descendants are.
theorem mem_descendants_iff_transGen (hf : d.links.Forest) :
    x ∈ d.descendants a ↔ Relation.TransGen (fun c p => d.parent? c = some p) x a := by
  rw [mem_descendants_iff hf]
  constructor
  · rintro ⟨hu, hne⟩
    obtain ⟨p, hp, hpa⟩ := hu.parent_of_ne hne
    exact Relation.TransGen.head' hp hpa
  · intro ht
    refine ⟨ht.to_reflTransGen, ?_⟩
    rintro rfl
    exact hf.acyclic x ht

-- Every slot in use has a tenant.
theorem alive_tenant {i : Nat} {slot : Slot} (hs : d.slots[i]? = some slot) (hi : i ∉ d.free) :
    d.Alive ⟨i, slot.generation⟩ ∧ d.node? ⟨i, slot.generation⟩ = some slot := by
  have hn : d.node? ⟨i, slot.generation⟩ = some slot := node?_eq_some_iff.mpr ⟨hs, rfl⟩
  exact ⟨⟨by simp [hn], hi⟩, hn⟩

theorem Chronicle.Sound.stored_live (hs : h.Sound) {i : Nat} {slot : Slot}
    (hi : h.document.slots[i]? = some slot) :
    (∀ p ∈ slot.parent, h.Lives p) ∧ ∀ c ∈ slot.children, h.Lives c := by
  have hw := hs.wellFormed
  by_cases hfree : i ∈ h.document.free
  · obtain ⟨vacant, hv, hp, hc, -⟩ := hw.vacancies.vacant i hfree
    have he : slot = vacant := Option.some.inj (hi.symm.trans hv)
    simp [he, hp, hc]
  · obtain ⟨-, hn⟩ := alive_tenant hi hfree
    constructor
    · intro p hp
      have hpar : h.document.parent? ⟨i, slot.generation⟩ = some p := by
        rw [parent?_of_node? hn]
        exact hp
      exact (hs.alive_iff p).mp (hw.alive_of_parent? hpar).2
    · intro c hc
      rw [← children_of_node? hn] at hc
      exact (hs.alive_iff c).mp (hw.alive_of_parent? (hw.forest.parent_of_mem hc)).1

theorem Chronicle.Sound.mem_free_iff (hs : h.Sound) (i : Nat) :
    i ∈ h.document.free ↔ i < h.document.allocated ∧ ∀ id, h.Lives id → id.index ≠ i := by
  constructor
  · intro hi
    obtain ⟨slot, hslot, -⟩ := hs.wellFormed.vacancies.vacant i hi
    refine ⟨(Array.getElem?_eq_some_iff.mp hslot).1, ?_⟩
    rintro id hl rfl
    exact ((hs.alive_iff id).mpr hl).2 hi
  · rintro ⟨hlt, hne⟩
    by_contra hi
    obtain ⟨ha, -⟩ := alive_tenant (Array.getElem?_eq_getElem hlt) hi
    exact hne _ ((hs.alive_iff _).mp ha) rfl

theorem attributes_nodup (hw : d.WellFormed) (id : NodeId) :
    ((d.attributes id).map Prod.fst).Nodup := by
  unfold attributes
  cases he : d.element? id with
  | none => simp
  | some e => exact hw.attributes_nodup he

theorem consistent_of_recorded (hr : Chronicle.Recorded h) : h.Consistent := by
  have hs := Chronicle.sound_of_recorded hr
  have hw := hs.wellFormed
  have hf := hw.forest
  refine {
    found_iff := fun id hi => ⟨fun hsome => (hs.alive_iff id).mp (hs.alive_of_isSome hi hsome),
      fun hl => ((hs.alive_iff id).mpr hl).1⟩
    mem_children_iff := fun p c _ _ => hf.mem_children p c
    count_children := fun p c hc => List.count_eq_one_of_mem (hf.nodup p) hc
    stored_live := fun i slot => hs.stored_live
    acyclic := hf.acyclic
    up_wellFounded := hf.parent_wellFounded
    down_wellFounded := children_wellFounded hf
    lineage_stable := lineage_stable hf
    below_stable := below_stable hf
    contains_iff := fun a id => Document.contains_iff hf a id
    mem_descendants_iff := fun a id => mem_descendants_iff_transGen hf
    text_children := fun id hl ht => hw.leaf id ((hs.alive_iff id).mpr hl) ht
    document_parent := ?_
    attribute_names := attributes_nodup hw
    free_nodup := hw.vacancies.nodup
    mem_free_iff := hs.mem_free_iff
    free_unlinked := ?_ }
  · intro id hl hk
    rw [hw.document_eq id ((hs.alive_iff id).mpr hl) hk]
    exact hw.root_parent
  · intro i hi
    obtain ⟨slot, hslot, hp, hc, -⟩ := hw.vacancies.vacant i hi
    exact ⟨slot, hslot, hp, hc⟩

end Consistent

-- A run in which a slot gets a second tenant.
def Chronicle.reuse : Chronicle :=
  (((start.after (.createText "a")).after (.appendChild body ⟨5, 0⟩)).after
    (.setText body "")).after (.createText "b")

theorem Chronicle.releases_lt_of_length {h : Chronicle}
    (hl : h.released.length < UInt32.size) (i : Nat) : h.releases i < UInt32.size := by
  have hle : h.releases i ≤ (h.released.map (·.index)).length := List.count_le_length
  rw [List.length_map] at hle
  omega

-- Whether each of the operations is called with ids that have been handed out by then. With few
-- releases no slot comes to the end of its generations.
def Chronicle.Allows (h : Chronicle) : List Operation → Prop
  | [] => True
  | op :: ops =>
    op.mentions ⊆ h.issued ∧ (h.after op).released.length < UInt32.size ∧ (h.after op).Allows ops

instance Chronicle.decidableAllows : ∀ (h : Chronicle) (ops : List Operation),
    Decidable (h.Allows ops)
  | _, [] => isTrue trivial
  | h, op :: ops => @instDecidableAnd _ _ inferInstance
      (@instDecidableAnd _ _ inferInstance (decidableAllows (h.after op) ops))

theorem Chronicle.Recorded.foldl {h : Chronicle} {ops : List Operation} (hr : Recorded h)
    (ho : h.Allows ops) : Recorded (ops.foldl after h) := by
  induction ops generalizing h with
  | nil => exact hr
  | cons op ops ih =>
      obtain ⟨hm, hl, ho⟩ := ho
      exact ih (.step op hr hm (releases_lt_of_length hl)) ho

theorem Chronicle.recorded_reuse : Recorded reuse := by
  unfold reuse
  refine .step _ (.step _ (.step _ (.step _ .start ?_ ?_) ?_ ?_) ?_ ?_) ?_ ?_
  all_goals first
    | decide
    | exact releases_lt_of_length (by decide)

theorem consistent_reuse : Chronicle.Recorded Chronicle.reuse ∧ Chronicle.reuse.Consistent :=
  ⟨Chronicle.recorded_reuse, consistent_of_recorded Chronicle.recorded_reuse⟩

-- Nothing is known of a stale id, and nothing is done with it.
structure Stale (d : Document) (id : NodeId) : Prop where
  kind? : d.kind? id = none
  parent? : d.parent? id = none
  tagName? : d.tagName? id = none
  children : d.children id = []
  attributes : d.attributes id = []
  textContent : d.textContent id = ""
  appendChild : ∀ other,
    Edit.Refused (Document.appendChild id other) d ∧
      Edit.Refused (Document.appendChild other id) d
  removeChild : ∀ other,
    Edit.Refused (Document.removeChild id other) d ∧
      Edit.Refused (Document.removeChild other id) d
  remove : Edit.Refused (Document.remove id) d
  release : Edit.Refused (Document.release id) d
  setAttribute : ∀ name value, Edit.Skipped (Document.setAttribute id name value) d
  removeAttribute : ∀ name, Edit.Skipped (Document.removeAttribute id name) d
  setText : ∀ text, Edit.Skipped (Document.setText id text) d

section Stale

variable {d : Document} {h : Chronicle} {id : NodeId}

-- A node that is not found is nobody's parent either, for the forest has no such link.
theorem WellFormed.stale (hw : d.WellFormed) (hn : d.node? id = none) : d.Stale id := by
  have hk := kind?_of_unknown hn
  have he : d.element? id = none := by simp [element?, hk]
  have hr : d.releasable id = .error .unknownNode := by simp [releasable, hn]
  constructor
  · exact hk
  · exact parent?_of_unknown hn
  · simp [Document.tagName?, he]
  · exact children_of_unknown hn
  · simp [Document.attributes, he]
  · simp [Document.textContent, hk]
  · intro other
    constructor
    · exact ⟨.unknownNode, by simp [Document.appendChild, hn, Edit.fail]⟩
    · exact ⟨.unknownNode, by simp [Document.appendChild, hn, Edit.fail]⟩
  · intro other
    have hup : d.parent? other ≠ some id := by
      intro hp
      have hs := (hw.alive_of_parent? hp).2.1
      simp [hn] at hs
    constructor
    · exact ⟨.notAChild, by simp [Document.removeChild, hup, Edit.fail]⟩
    · exact ⟨.notAChild, by simp [Document.removeChild, parent?_of_unknown hn, Edit.fail]⟩
  · exact ⟨.unknownNode, by simp [Document.remove, hr, Edit.fail]⟩
  · exact ⟨.unknownNode, by simp [Document.release, hr, Edit.fail]⟩
  · intro name value
    simp [Edit.Skipped, Document.setAttribute, he]
  · intro name
    simp [Edit.Skipped, Document.removeAttribute, he]
  · intro text
    simp [Edit.Skipped, Document.setText, hn]

-- Released ids are stale for good, and new nodes get ids that were never handed out.
theorem stale_of_released_and_fresh (hr : Chronicle.Recorded h) :
    (∀ id ∈ h.released, h.document.Stale id) ∧
      (∀ tag, ∃ id, (createElement tag h.document).result = .ok id ∧ id ∉ h.issued) ∧
      ∀ data, ∃ id, (createText data h.document).result = .ok id ∧ id ∉ h.issued := by
  have hs := Chronicle.sound_of_recorded hr
  refine ⟨fun id hid => hs.wellFormed.stale (hs.unknown_of_released hid), fun tag => ?_,
    fun data => ?_⟩
  · exact ⟨h.document.nextId, (create_result _ _).1, hs.nextId_not_issued⟩
  · exact ⟨h.document.nextId, (create_result _ _).1, hs.nextId_not_issued⟩

theorem stale_of_released_reuse : Chronicle.Recorded Chronicle.reuse ∧
    ⟨5, 0⟩ ∈ Chronicle.reuse.released ∧ ⟨5, 1⟩ ∈ Chronicle.reuse.issued ∧
    Chronicle.reuse.document.Stale ⟨5, 0⟩ :=
  ⟨Chronicle.recorded_reuse, by decide, by decide,
    (stale_of_released_and_fresh Chronicle.recorded_reuse).1 _ (by decide)⟩

end Stale

end PageLocalizer.Document
