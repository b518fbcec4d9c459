import PageLocalizer.Proofs.Document.Views

namespace PageLocalizer.Document

section Create

variable {d : Document} {kind : NodeKind} {x : NodeId}

-- The two ways to find room for a node.
theorem create_of_vacancy {i : Nat} {rest : List Nat} (hf : d.free = i :: rest) :
    create kind d =
      ⟨.ok d.nextId, { d.modifySlot i ({ · with kind }) with free := rest }, []⟩ := by
  cases hs : d.slots[i]? <;> simp [create, hf, nextId, generationAt, hs]

theorem create_of_full (hf : d.free = []) :
    create kind d = ⟨.ok d.nextId, { d with
      slots := d.slots.push { generation := 0, parent := none, children := [], kind } }, []⟩ := by
  simp [create, hf, nextId, generationAt]

theorem create_result (kind : NodeKind) (d : Document) :
    (create kind d).result = .ok d.nextId ∧ (create kind d).changes = [] := by
  cases hf : d.free with
  | nil => rw [create_of_full hf]; exact ⟨rfl, rfl⟩
  | cons i rest => rw [create_of_vacancy hf]; exact ⟨rfl, rfl⟩

theorem free_create : (create kind d).document.free = d.free.tail := by
  cases hf : d.free with
  | nil => rw [create_of_full hf, hf]; rfl
  | cons i rest => rw [create_of_vacancy hf]; rfl

-- The new tenant has no links yet. Everybody else stays as they were.
theorem node?_create (hv : d.Vacancies) (x : NodeId) :
    (create kind d).document.node? x =
      if x = d.nextId then
        some { generation := x.generation, parent := none, children := [], kind }
      else d.node? x := by
  cases hf : d.free with
  | nil =>
      have hn : d.nextId = ⟨d.slots.size, 0⟩ := by simp [nextId, hf, generationAt]
      simp only [create_of_full hf, hn, node?, Array.getElem?_push]
      by_cases hx : x.index = d.slots.size
      · by_cases hg : x.generation = 0
        · have he : x = ⟨d.slots.size, 0⟩ := by cases x; simp_all
          simp [he]
        · have he : x ≠ ⟨d.slots.size, 0⟩ := by rintro rfl; exact hg rfl
          simp [hx, he, Ne.symm hg]
      · have he : x ≠ ⟨d.slots.size, 0⟩ := by rintro rfl; exact hx rfl
        simp [hx, he]
  | cons i rest =>
      obtain ⟨slot, hs, hp, hc, -⟩ := hv.vacant i (by simp [hf])
      have hn : d.nextId = ⟨i, slot.generation⟩ := by simp [nextId, hf, generationAt, hs]
      have hm : (d.modifySlot i ({ · with kind })).node? x =
          if x.index = i then (d.node? x).map ({ · with kind }) else d.node? x :=
        node?_modifySlot (fun _ => by rfl) x
      rw [create_of_vacancy hf, hn]
      refine hm.trans ?_
      by_cases hx : x.index = i
      · by_cases hg : x.generation = slot.generation
        · have he : x = ⟨i, slot.generation⟩ := by cases x; simp_all
          simp [he, node?, hs, hp, hc]
        · have he : x ≠ ⟨i, slot.generation⟩ := by rintro rfl; exact hg rfl
          simp [he, node?, hx, hs, Option.filter, Ne.symm hg]
      · have he : x ≠ ⟨i, slot.generation⟩ := by rintro rfl; exact hx rfl
        simp [hx, he]

theorem not_alive_nextId (d : Document) : ¬d.Alive d.nextId := by
  intro h
  cases hf : d.free with
  | nil =>
      obtain ⟨node, hn⟩ := Option.isSome_iff_exists.mp h.1
      have hlt := lt_allocated_of_node? hn
      simp [nextId, hf, allocated] at hlt
  | cons i rest => exact h.2 (by simp [nextId, hf])

-- Where the next node goes, nobody has links.
theorem unlinked_nextId (hv : d.Vacancies) :
    d.parent? d.nextId = none ∧ d.children d.nextId = [] := by
  constructor
  · cases hp : d.parent? d.nextId with
    | none => rfl
    | some p => exact absurd (hv.alive_of_parent? hp) d.not_alive_nextId
  · cases hc : d.children d.nextId with
    | nil => rfl
    | cons c rest =>
        exact absurd (hv.alive_of_mem_children (c := c) (by simp [hc])) d.not_alive_nextId

theorem links_create (hv : d.Vacancies) : (create kind d).document.links = d.links := by
  obtain ⟨hp, hc⟩ := unlinked_nextId hv
  simp only [links, Links.mk.injEq]
  constructor
  · funext x
    by_cases hx : x = d.nextId
    · rw [hx, hp]
      simp [parent?, node?_create hv]
    · simp [parent?, node?_create hv, hx]
  · funext x
    by_cases hx : x = d.nextId
    · rw [hx, hc]
      simp [children_eq, node?_create hv]
    · simp [children_eq, node?_create hv, hx]

theorem kind?_create (hv : d.Vacancies) (x : NodeId) :
    (create kind d).document.kind? x = if x = d.nextId then some kind else d.kind? x := by
  unfold kind?
  rw [node?_create hv]
  split <;> rfl

theorem alive_create (hv : d.Vacancies) (x : NodeId) :
    (create kind d).document.Alive x ↔ d.Alive x ∨ x = d.nextId := by
  unfold Alive
  rw [node?_create hv, free_create]
  by_cases hx : x = d.nextId
  · subst hx
    have hnot : d.nextId.index ∉ d.free.tail := by
      cases hf : d.free with
      | nil => simp
      | cons i rest =>
          have hnd := hv.nodup
          rw [hf, List.nodup_cons] at hnd
          simpa [nextId, hf] using hnd.1
    simp [hnot]
  · simp only [hx, ite_false, or_false, and_congr_right_iff]
    intro hs
    cases hf : d.free with
    | nil => simp
    | cons i rest =>
        have hxi : x.index ≠ i := by
          rintro rfl
          obtain ⟨node, hn⟩ := Option.isSome_iff_exists.mp hs
          apply hx
          have hg := generationAt_of_node? hn
          simp only [nextId, hf, List.head?_cons, Option.getD_some, hg]
        simp [hxi]

theorem generationAt_create (i : Nat) :
    (create kind d).document.generationAt i = d.generationAt i := by
  cases hf : d.free with
  | nil =>
      simp only [create_of_full hf, generationAt, Array.getElem?_push]
      by_cases hi : i = d.slots.size <;> simp [hi]
  | cons j rest =>
      have hm : d.SameTenants (d.modifySlot j ({ · with kind })) :=
        sameTenants_modifySlot fun _ => rfl
      rw [create_of_vacancy hf]
      exact hm.generationAt i

theorem Vacancies.create (hv : d.Vacancies) : (create kind d).document.Vacancies where
  nodup := by
    rw [free_create]
    exact List.Nodup.sublist (List.tail_sublist _) hv.nodup
  vacant i hi := by
    rw [free_create] at hi
    obtain ⟨slot, hs, hslot⟩ := hv.vacant i (List.mem_of_mem_tail hi)
    refine ⟨slot, ?_, hslot⟩
    cases hf : d.free with
    | nil => simp [hf] at hi
    | cons j rest =>
        have hnd := hv.nodup
        rw [hf, List.nodup_cons] at hnd
        have hij : j ≠ i := by
          rintro rfl
          exact hnd.1 (by simpa [hf] using hi)
        simp [create_of_vacancy hf, modifySlot, Array.getElem?_modify, hij, hs]

end Create

section Vacate

variable {d : Document} {gone : List NodeId} {x : NodeId}

theorem vacateAll_cons (d : Document) (id : NodeId) (rest : List NodeId) :
    d.vacateAll (id :: rest) = (d.vacate id).vacateAll rest := rfl

theorem slots_vacateAll (hnd : (gone.map (·.index)).Nodup) (i : Nat) :
    (d.vacateAll gone).slots[i]? =
      if i ∈ gone.map (·.index) then
        (d.slots[i]?).map fun slot => Slot.vacant (slot.generation + 1)
      else d.slots[i]? := by
  induction gone generalizing d with
  | nil => simp [vacateAll]
  | cons id rest ih =>
      simp only [List.map_cons, List.nodup_cons] at hnd
      rw [vacateAll_cons, ih hnd.2]
      by_cases hi : i = id.index
      · subst hi
        simp [hnd.1, vacate, modifySlot, Array.getElem?_modify]
      · simp [hi, Ne.symm hi, vacate, modifySlot, Array.getElem?_modify]

theorem free_vacateAll : (d.vacateAll gone).free = (gone.map (·.index)).reverse ++ d.free := by
  induction gone generalizing d with
  | nil => rfl
  | cons id rest ih => simp [vacateAll_cons, ih, vacate]

theorem index_nodup (hnd : gone.Nodup) (hg : ∀ x ∈ gone, d.Alive x) :
    (gone.map (·.index)).Nodup :=
  List.Nodup.map_on (fun x hx y hy hi => eq_of_index (hg y hy).1 (hg x hx).1 hi) hnd

-- A node whose slot is not vacated is found as before.
theorem node?_vacateAll_of_not_mem (hnd : (gone.map (·.index)).Nodup)
    (hx : x.index ∉ gone.map (·.index)) : (d.vacateAll gone).node? x = d.node? x := by
  simp [node?, slots_vacateAll hnd, hx]

-- Whoever is found in a vacated slot is nobody yet.
theorem node?_vacateAll_of_mem (hnd : (gone.map (·.index)).Nodup)
    (hx : x.index ∈ gone.map (·.index)) {node : Slot}
    (h : (d.vacateAll gone).node? x = some node) : node = Slot.vacant x.generation := by
  obtain ⟨hs, hg⟩ := node?_eq_some_iff.mp h
  rw [slots_vacateAll hnd] at hs
  simp only [hx, ite_true, Option.map_eq_some_iff] at hs
  obtain ⟨slot, -, rfl⟩ := hs
  simp only [Slot.vacant] at hg ⊢
  rw [hg]

theorem node?_vacateAll_self (hnd : gone.Nodup) (hg : ∀ x ∈ gone, d.Alive x) (hx : x ∈ gone) :
    (d.vacateAll gone).node? x = none := by
  obtain ⟨node, hn⟩ := Option.isSome_iff_exists.mp (hg x hx).1
  obtain ⟨hs, hgen⟩ := node?_eq_some_iff.mp hn
  have hi : x.index ∈ gone.map (·.index) := List.mem_map_of_mem hx
  simp [node?, slots_vacateAll (index_nodup hnd hg), hi, hs, Slot.vacant, hgen, Option.filter]

-- A node that stays does not live in a slot that is vacated.
theorem index_not_mem (hg : ∀ x ∈ gone, d.Alive x) (hx : (d.node? x).isSome) (hxg : x ∉ gone) :
    x.index ∉ gone.map (·.index) := by
  intro hm
  obtain ⟨y, hy, hi⟩ := List.mem_map.mp hm
  exact hxg (eq_of_index (hg y hy).1 hx hi.symm ▸ hy)

theorem links_vacateAll (hnd : gone.Nodup) (hg : ∀ x ∈ gone, d.Alive x) :
    (d.vacateAll gone).links = d.links.prune gone := by
  have hi := index_nodup hnd hg
  have hlinks : ∀ x, (d.vacateAll gone).parent? x = (if x ∈ gone then none else d.parent? x) ∧
      (d.vacateAll gone).children x = (if x ∈ gone then [] else d.children x) := by
    intro x
    by_cases hx : x ∈ gone
    · have hn := node?_vacateAll_self hnd hg hx
      simp [hx, parent?_of_unknown hn, children_of_unknown hn]
    · by_cases hxi : x.index ∈ gone.map (·.index)
      · have hold : d.node? x = none := by
          by_contra hs
          exact index_not_mem hg (Option.isSome_iff_ne_none.mpr hs) hx hxi
        simp only [hx, ite_false, parent?_of_unknown hold, children_of_unknown hold]
        cases hn : (d.vacateAll gone).node? x with
        | none => exact ⟨parent?_of_unknown hn, children_of_unknown hn⟩
        | some node =>
            have hv := node?_vacateAll_of_mem hi hxi hn
            exact ⟨by rw [parent?_of_node? hn, hv]; rfl, by rw [children_of_node? hn, hv]; rfl⟩
      · have hn := node?_vacateAll_of_not_mem (d := d) hi hxi
        simp [hx, parent?, children_eq, hn]
  simp only [links, Links.prune, Links.mk.injEq]
  exact ⟨funext fun x => (hlinks x).1, funext fun x => (hlinks x).2⟩

theorem alive_vacateAll (hnd : gone.Nodup) (hg : ∀ x ∈ gone, d.Alive x) (x : NodeId) :
    (d.vacateAll gone).Alive x ↔ d.Alive x ∧ x ∉ gone := by
  unfold Alive
  rw [free_vacateAll]
  by_cases hx : x ∈ gone
  · simp [hx, node?_vacateAll_self hnd hg hx]
  · by_cases hxi : x.index ∈ gone.map (·.index)
    · have hold : d.node? x = none := by
        by_contra hs
        exact index_not_mem hg (Option.isSome_iff_ne_none.mpr hs) hx hxi
      simp [hold, hxi]
    · simp [hx, hxi, node?_vacateAll_of_not_mem (index_nodup hnd hg) hxi]

theorem kind?_vacateAll (hnd : gone.Nodup) (hg : ∀ x ∈ gone, d.Alive x)
    (hx : (d.vacateAll gone).Alive x) : (d.vacateAll gone).kind? x = d.kind? x := by
  obtain ⟨ha, hxg⟩ := (alive_vacateAll hnd hg x).mp hx
  have hn := node?_vacateAll_of_not_mem (d := d) (index_nodup hnd hg)
    (index_not_mem hg ha.1 hxg)
  simp [kind?, hn]

theorem generationAt_vacateAll (hnd : gone.Nodup) (hg : ∀ x ∈ gone, d.Alive x) (i : Nat) :
    (d.vacateAll gone).generationAt i =
      d.generationAt i + if i ∈ gone.map (·.index) then 1 else 0 := by
  unfold generationAt
  rw [slots_vacateAll (index_nodup hnd hg)]
  by_cases hi : i ∈ gone.map (·.index)
  · obtain ⟨x, hx, rfl⟩ := List.mem_map.mp hi
    obtain ⟨node, hn⟩ := Option.isSome_iff_exists.mp (hg x hx).1
    simp [hi, (node?_eq_some_iff.mp hn).1, Slot.vacant]
  · simp [hi]

theorem Vacancies.vacateAll (hv : d.Vacancies) (hnd : gone.Nodup) (hg : ∀ x ∈ gone, d.Alive x) :
    (d.vacateAll gone).Vacancies where
  nodup := by
    rw [free_vacateAll]
    refine List.Nodup.append (List.nodup_reverse.mpr (index_nodup hnd hg)) hv.nodup ?_
    intro i hi hf
    obtain ⟨x, hx, rfl⟩ := List.mem_map.mp (List.mem_reverse.mp hi)
    exact (hg x hx).2 hf
  vacant i hi := by
    rw [free_vacateAll, List.mem_append, List.mem_reverse] at hi
    rw [slots_vacateAll (index_nodup hnd hg)]
    by_cases hm : i ∈ gone.map (·.index)
    · obtain ⟨x, hx, rfl⟩ := List.mem_map.mp hm
      obtain ⟨node, hn⟩ := Option.isSome_iff_exists.mp (hg x hx).1
      simp [hm, (node?_eq_some_iff.mp hn).1, Slot.vacant, NodeKind.isText]
    · simp only [hm, ite_false]
      exact hv.vacant i (hi.resolve_left hm)

end Vacate

-- Who joins and who leaves on the way from one page to another. Joining takes up the generation
-- that a slot has reached, and each leaving moves a slot to its next generation.
structure Turnover (d : Document) (joined left : List NodeId) (d' : Document) : Prop where
  alive_iff : ∀ x, d'.Alive x ↔ (d.Alive x ∨ x ∈ joined) ∧ x ∉ left
  generationAt : ∀ i, d'.generationAt i =
    d.generationAt i + UInt32.ofNat ((left.map (·.index)).count i)
  joined : ∀ x ∈ joined, ¬d.Alive x ∧ x.generation = d.generationAt x.index
  left : ∀ x ∈ left, d.Alive x

namespace Turnover

variable {d d' d'' : Document} {joined left more : List NodeId}

theorem of_sameTenants (h : d.SameTenants d') : d.Turnover [] [] d' where
  alive_iff x := by simp [h.alive_iff]
  generationAt i := by simp [h.generationAt]
  joined := by simp
  left := by simp

theorem refl (d : Document) : d.Turnover [] [] d := of_sameTenants (.refl d)

theorem trans_sameTenants (h : d.Turnover joined left d') (h' : d'.SameTenants d'') :
    d.Turnover joined left d'' where
  alive_iff x := (h'.alive_iff x).trans (h.alive_iff x)
  generationAt i := (h'.generationAt i).trans (h.generationAt i)
  joined := h.joined
  left := h.left

theorem sameTenants_trans (h : d.SameTenants d') (h' : d'.Turnover joined left d'') :
    d.Turnover joined left d'' where
  alive_iff x := by rw [h'.alive_iff, h.alive_iff]
  generationAt i := by rw [h'.generationAt, h.generationAt]
  joined x hx := by
    rw [← h.alive_iff, ← h.generationAt]
    exact h'.joined x hx
  left x hx := (h.alive_iff x).mp (h'.left x hx)

-- More nodes leave, and they were there from the start.
theorem trans_left (h : d.Turnover joined left d') (h' : d'.Turnover [] more d'')
    (hm : ∀ x ∈ more, d.Alive x) : d.Turnover joined (left ++ more) d'' where
  alive_iff x := by
    rw [h'.alive_iff, h.alive_iff, List.mem_append, not_or]
    simp only [List.not_mem_nil, or_false, and_assoc]
  generationAt i := by
    let gone := (left.map (·.index)).count i
    let further := (more.map (·.index)).count i
    calc d''.generationAt i
      _ = d'.generationAt i + UInt32.ofNat further := h'.generationAt i
      _ = d.generationAt i + UInt32.ofNat gone + UInt32.ofNat further := by rw [h.generationAt i]
      _ = d.generationAt i + UInt32.ofNat (gone + further) := by
          rw [UInt32.ofNat_add, UInt32.add_assoc]
      _ = d.generationAt i + UInt32.ofNat (((left ++ more).map (·.index)).count i) := by
          rw [List.map_append, List.count_append]
  joined := h.joined
  left x hx := (List.mem_append.mp hx).elim (h.left x) (hm x)

theorem create (hv : d.Vacancies) (kind : NodeKind) :
    d.Turnover [d.nextId] [] (Document.create kind d).document where
  alive_iff x := by simp [alive_create hv]
  generationAt i := by simp [generationAt_create]
  joined x hx := by
    rw [List.mem_singleton.mp hx]
    exact ⟨d.not_alive_nextId, rfl⟩
  left := by simp

theorem vacateAll {gone : List NodeId} (hnd : gone.Nodup) (hg : ∀ x ∈ gone, d.Alive x) :
    d.Turnover [] gone (d.vacateAll gone) where
  alive_iff x := by simp [alive_vacateAll hnd hg]
  generationAt i := by
    rw [generationAt_vacateAll hnd hg]
    by_cases hi : i ∈ gone.map (·.index)
    · rw [List.count_eq_one_of_mem (index_nodup hnd hg) hi]
      simp [hi]
    · rw [List.count_eq_zero_of_not_mem hi]
      simp [hi]
  joined := by simp
  left := hg

end Turnover

end PageLocalizer.Document
