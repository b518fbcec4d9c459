import PageLocalizer.Proofs.Document.Operation

-- Whole runs of operations. Released ids stay in the books, and the generations of the slots tell
-- them from those of later tenants.
namespace PageLocalizer.Document

-- A page with the ids that it has handed out so far and those that it has released.
structure Chronicle where
  document : Document
  issued : List NodeId
  released : List NodeId

namespace Chronicle

def start : Chronicle where
  document := empty
  issued := [root, html, head, title, body]
  released := []

def after (h : Chronicle) (op : Operation) : Chronicle where
  document := (op.edit h.document).document
  issued := h.issued ++ (op.edit h.document).handedOut
  released := h.released ++ op.releases h.document

-- How often a slot has been released.
def releases (h : Chronicle) (index : Nat) : Nat := (h.released.map (·.index)).count index

-- A node that was handed out and has not been released since.
def Lives (h : Chronicle) (id : NodeId) : Prop := id ∈ h.issued ∧ id ∉ h.released

-- Runs in which operations are called with ids that were handed out, live or stale, and no slot
-- comes to the end of its generations.
inductive Recorded : Chronicle → Prop where
  | start : Recorded start
  | step {h : Chronicle} (op : Operation) : Recorded h → op.mentions ⊆ h.issued →
      (∀ i, (h.after op).releases i < UInt32.size) → Recorded (h.after op)

-- What ties the page to its books.
structure Sound (h : Chronicle) : Prop where
  wellFormed : h.document.WellFormed
  alive_iff : ∀ id, h.document.Alive id ↔ h.Lives id
  generationAt : ∀ i, h.document.generationAt i = UInt32.ofNat (h.releases i)
  bounded : ∀ i, h.releases i < UInt32.size
  passed : ∀ id ∈ h.released, id.generation.toNat < h.releases id.index

section Sound

variable {h : Chronicle} {id : NodeId} {op : Operation}

theorem Sound.generation_toNat (hs : h.Sound) (i : Nat) :
    (h.document.generationAt i).toNat = h.releases i := by
  rw [hs.generationAt, UInt32.toNat_ofNat_of_lt' (hs.bounded i)]

-- Slots never go back to a generation that has passed.
theorem Sound.generation_ne (hs : h.Sound) (hid : id ∈ h.released) :
    id.generation ≠ h.document.generationAt id.index := by
  intro hg
  have hpassed := hs.passed id hid
  rw [hg, hs.generation_toNat] at hpassed
  exact Nat.lt_irrefl _ hpassed

theorem Sound.unknown_of_released (hs : h.Sound) (hid : id ∈ h.released) :
    h.document.node? id = none := by
  cases hn : h.document.node? id with
  | none => rfl
  | some node => exact absurd (generationAt_of_node? hn).symm (hs.generation_ne hid)

-- The next node gets an id that nobody has seen.
theorem Sound.nextId_not_issued (hs : h.Sound) : h.document.nextId ∉ h.issued := by
  intro hi
  have hrel : h.document.nextId ∈ h.released := by
    by_contra hn
    exact h.document.not_alive_nextId ((hs.alive_iff _).mpr ⟨hi, hn⟩)
  exact hs.generation_ne hrel rfl

theorem Sound.alive_of_isSome (hs : h.Sound) (hi : id ∈ h.issued)
    (hsome : (h.document.node? id).isSome) : h.document.Alive id := by
  refine (hs.alive_iff id).mpr ⟨hi, fun hr => ?_⟩
  simp [hs.unknown_of_released hr] at hsome

theorem sound_start : start.Sound where
  wellFormed := wellFormed_empty
  alive_iff id := by
    have hissued : ∀ x ∈ start.issued, (empty.node? x).isSome := by decide
    constructor
    · exact fun ha => ⟨node?_empty ha.1, by simp [start]⟩
    · exact fun hl => ⟨hissued id hl.1, by simp [start, empty]⟩
  generationAt i := by
    have hslots : ∀ slot ∈ empty.slots.toList, slot.generation = 0 := by decide
    have hi : empty.generationAt i = 0 := by
      unfold Document.generationAt
      split
      · rename_i slot hs
        exact hslots slot (Array.mem_toList_iff.mpr (Array.mem_of_getElem? hs))
      · rfl
    simpa [start, releases] using hi
  bounded i := by simp [start, releases]
  passed id hid := by simp [start] at hid

theorem releases_after (h : Chronicle) (op : Operation) (i : Nat) :
    (h.after op).releases i =
      h.releases i + ((op.releases h.document).map (·.index)).count i := by
  simp [releases, after]

theorem Sound.after (hs : h.Sound) (hm : op.mentions ⊆ h.issued)
    (hb : ∀ i, (h.after op).releases i < UInt32.size) : (h.after op).Sound := by
  have heff := op.effect hs.wellFormed fun x hx => hs.alive_of_isSome (hm hx)
  obtain ⟨joined, hturn, hout, hin⟩ := heff.turnover
  refine ⟨heff.wellFormed, fun x => ?_, fun i => ?_, hb, fun x hx => ?_⟩
  · refine (hturn.alive_iff x).trans ?_
    simp only [Lives, Chronicle.after, List.mem_append, not_or]
    constructor
    · rintro ⟨hx | hx, hleft⟩
      · have hl := (hs.alive_iff x).mp hx
        exact ⟨Or.inl hl.1, hl.2, hleft⟩
      · have hrel : x ∉ h.released := fun hr => hs.generation_ne hr (hturn.joined x hx).2
        exact ⟨Or.inr (hout hx), hrel, hleft⟩
    · rintro ⟨hx, hrel, hleft⟩
      refine ⟨?_, hleft⟩
      rcases hx with hx | hx
      · exact Or.inl ((hs.alive_iff x).mpr ⟨hx, hrel⟩)
      · rcases List.mem_append.mp (hin hx) with hx | hx
        · exact Or.inr hx
        · exact Or.inl ((hs.alive_iff x).mpr ⟨hm hx, hrel⟩)
  · rw [releases_after, UInt32.ofNat_add, ← hs.generationAt i]
    exact hturn.generationAt i
  · rw [releases_after]
    simp only [Chronicle.after, List.mem_append] at hx
    rcases hx with hx | hx
    · have hlt := hs.passed x hx
      omega
    · obtain ⟨node, hn⟩ := Option.isSome_iff_exists.mp (hturn.left x hx).1
      have hgen := hs.generation_toNat x.index
      rw [generationAt_of_node? hn] at hgen
      have hpos : 0 < ((op.releases h.document).map (·.index)).count x.index :=
        List.count_pos_iff.mpr (List.mem_map_of_mem hx)
      omega

theorem sound_of_recorded (hr : Recorded h) : h.Sound := by
  induction hr with
  | start => exact sound_start
  | step op _ hm hb ih => exact ih.after hm hb

end Sound

end Chronicle
end PageLocalizer.Document
