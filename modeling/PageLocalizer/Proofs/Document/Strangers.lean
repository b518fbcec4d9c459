import PageLocalizer.Proofs.Document.Skeleton

-- Ids that a page never handed out. An id says nothing about the page that it is from, so what is
-- done with a stranger depends on the slot that it happens to lead to.
namespace PageLocalizer.Document

-- The id that a vacant slot keeps for its next tenant.
def Reserved (d : Document) (id : NodeId) : Prop :=
  id.index ∈ d.free ∧ id.generation = d.generationAt id.index

variable {d : Document} {id : NodeId} {h : Chronicle}

-- A vacant slot is found like any other.
theorem Vacancies.node?_of_reserved (hv : d.Vacancies) (hr : d.Reserved id) :
    ∃ node, d.node? id = some node ∧ node.parent = none ∧ node.children = [] := by
  obtain ⟨slot, hs, hp, hc, -⟩ := hv.vacant id.index hr.1
  have hg : slot.generation = id.generation := by
    rw [hr.2]
    simp [generationAt, hs]
  exact ⟨slot, node?_eq_some_iff.mpr ⟨hs, hg⟩, hp, hc⟩

-- What an id can find: a node that lives, or a vacant slot.
theorem Vacancies.node?_eq_none_iff (hv : d.Vacancies) :
    d.node? id = none ↔ ¬d.Alive id ∧ ¬d.Reserved id := by
  constructor
  · intro hn
    constructor
    · intro ha
      have hsome := ha.1
      simp [hn] at hsome
    · intro hr
      obtain ⟨node, hsome, -⟩ := hv.node?_of_reserved hr
      simp [hn] at hsome
  · rintro ⟨ha, hr⟩
    cases hn : d.node? id with
    | none => rfl
    | some node =>
        by_cases hf : id.index ∈ d.free
        · exact absurd ⟨hf, (generationAt_of_node? hn).symm⟩ hr
        · exact absurd ⟨by simp [hn], hf⟩ ha

-- An id is harmless in all operations exactly when it finds nothing.
theorem WellFormed.stale_iff (hw : d.WellFormed) : d.Stale id ↔ d.node? id = none := by
  constructor
  · intro hs
    cases hn : d.node? id with
    | none => rfl
    | some node => simpa [kind?_of_node? hn] using hs.kind?
  · exact hw.stale

private theorem descendants_of_childless (hc : d.children id = []) : d.descendants id = [] := by
  unfold descendants
  cases d.allocated <;> simp [below, hc]

-- A vacant slot can be released once more, and then it stands in the free list twice.
theorem WellFormed.release_of_reserved (hw : d.WellFormed) (hr : d.Reserved id) :
    (Document.release id d).result = .ok () ∧
      (Document.release id d).document.free.count id.index = 2 := by
  obtain ⟨node, hn, hp, hc⟩ := hw.vacancies.node?_of_reserved hr
  have hsub : d.subtree id = [id] := by
    rw [subtree, descendants_of_childless (by rw [children_of_node? hn, hc])]
  have hskel : id ∉ skeleton := fun hid => (hw.skeleton_alive id hid).2 hr.1
  have hok : d.releasable id = .ok [id] := by simp [releasable, hn, hsub, hskel]
  have hdoc : Document.release id d = ⟨.ok (), d.vacateAll [id], []⟩ := by
    simp [Document.release, hok, parent?_of_node? hn, hp]
  have hcount : d.free.count id.index = 1 := List.count_eq_one_of_mem hw.vacancies.nodup hr.1
  simp [hdoc, free_vacateAll, hcount]

-- How a page treats ids, wherever they are from.
structure Chronicle.Reserves (h : Chronicle) : Prop where
  harmless_iff : ∀ id, h.document.Stale id ↔ ¬h.Lives id ∧ ¬h.document.Reserved id
  not_issued : ∀ id, h.document.Reserved id → id ∉ h.issued
  -- The harm that they can do.
  released_twice : ∀ id, h.document.Reserved id → (release id h.document).result = .ok () ∧
    (release id h.document).document.free.count id.index = 2

theorem Chronicle.Sound.not_issued (hs : h.Sound) (hr : h.document.Reserved id) :
    id ∉ h.issued := by
  intro hi
  have hrel : id ∈ h.released := by
    by_contra hn
    exact ((hs.alive_iff id).mpr ⟨hi, hn⟩).2 hr.1
  exact hs.generation_ne hrel hr.2

-- An id finds nothing and does nothing, unless it is that of a living node or the one that a vacant
-- slot keeps.
theorem reserves_of_recorded (hr : Chronicle.Recorded h) : h.Reserves := by
  have hs := Chronicle.sound_of_recorded hr
  have hw := hs.wellFormed
  refine ⟨fun id => ?_, fun id => hs.not_issued, fun id => hw.release_of_reserved⟩
  rw [hw.stale_iff, hw.vacancies.node?_eq_none_iff, hs.alive_iff]

-- A page with a title that it was given while nobody listened, and the same page without it.
def Chronicle.titled : Chronicle := start.after (.setTitle "Hi")

def Chronicle.untitled : Chronicle := titled.after (.setTitle "")

theorem Chronicle.recorded_untitled : Recorded untitled := by
  unfold untitled titled
  refine .step _ (.step _ .start ?_ ?_) ?_ ?_
  all_goals first
    | decide
    | exact releases_lt_of_length (by decide)

theorem reserves_untitled : Chronicle.Recorded Chronicle.untitled ∧
    Chronicle.untitled.Reserves ∧ Chronicle.untitled.document.Reserved ⟨5, 1⟩ ∧
    Chronicle.untitled.document.Stale ⟨7, 0⟩ := by
  have hr := reserves_of_recorded Chronicle.recorded_untitled
  refine ⟨Chronicle.recorded_untitled, hr, ⟨by decide, by decide⟩, ?_⟩
  exact (hr.harmless_iff ⟨7, 0⟩).mpr
    ⟨fun hl => absurd hl.1 (by decide), fun hres => absurd hres.1 (by decide)⟩

-- Ids of other pages that do harm. The first one is also the id of a text node that this page did
-- not tell anybody of. The second one is what a vacant slot keeps, and once it is released two
-- later nodes share an id.
theorem strangers_do_harm :
    (createText "x" empty).result = .ok ⟨5, 0⟩ ∧
    (∀ c ∈ (setTitle "Hi" empty).changes, c.audience = []) ∧
    (remove ⟨5, 0⟩ Chronicle.titled.document).result = .ok () ∧
    Chronicle.titled.document.titleText = "Hi" ∧
    (remove ⟨5, 0⟩ Chronicle.titled.document).document.titleText = "" ∧
    Chronicle.Recorded Chronicle.untitled ∧ ⟨5, 1⟩ ∉ Chronicle.untitled.issued ∧
    Chronicle.Recorded Chronicle.reuse ∧ ⟨5, 1⟩ ∈ Chronicle.reuse.issued ∧
    (release ⟨5, 1⟩ Chronicle.untitled.document).result = .ok () ∧
    let harmed := (release ⟨5, 1⟩ Chronicle.untitled.document).document
    (createText "a" harmed).result = .ok ⟨5, 2⟩ ∧
    (createText "b" (createText "a" harmed).document).result = .ok ⟨5, 2⟩ := by
  refine ⟨rfl, by decide, rfl, by decide, by decide, Chronicle.recorded_untitled, by decide,
    Chronicle.recorded_reuse, by decide, rfl, rfl, rfl⟩

end PageLocalizer.Document
