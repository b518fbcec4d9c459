import Mathlib.Data.Finset.Card
import Mathlib.Order.Bounds.Basic
import PageLocalizer.Proofs.Document.Account
import PageLocalizer.Proofs.Document.TextEdits

-- A page has as many slots as nodes have lived at once at the fullest moment of its run.
namespace PageLocalizer.Document

variable {d d' : Document} {id x parent child : NodeId} {ids : List NodeId} {op : Operation}
  {text : String}

section Tenants

-- The nodes that live in a page, one for each slot that is not vacant.
def tenants (d : Document) : Finset NodeId :=
  (Finset.range d.allocated \ d.free.toFinset).image fun i => ⟨i, d.generationAt i⟩

theorem mem_tenants_iff : x ∈ d.tenants ↔ d.Alive x := by
  simp only [tenants, Finset.mem_image, Finset.mem_sdiff, Finset.mem_range, List.mem_toFinset]
  constructor
  · rintro ⟨i, ⟨hlt, hfree⟩, rfl⟩
    obtain ⟨ha, -⟩ := alive_tenant (Array.getElem?_eq_getElem hlt) hfree
    simpa [generationAt, Array.getElem?_eq_getElem hlt] using ha
  · rintro ⟨hsome, hfree⟩
    obtain ⟨node, hn⟩ := Option.isSome_iff_exists.mp hsome
    exact ⟨x.index, ⟨lt_allocated_of_node? hn, hfree⟩, by rw [generationAt_of_node? hn]⟩

theorem Vacancies.card_tenants (hv : d.Vacancies) :
    d.tenants.card + d.free.length = d.allocated := by
  have hinj : Function.Injective fun i => (⟨i, d.generationAt i⟩ : NodeId) := fun i j h =>
    congrArg NodeId.index h
  have hsub : d.free.toFinset ⊆ Finset.range d.allocated := by
    intro i hi
    obtain ⟨slot, hs, -⟩ := hv.vacant i (List.mem_toFinset.mp hi)
    exact Finset.mem_range.mpr (Array.getElem?_eq_some_iff.mp hs).1
  rw [tenants, Finset.card_image_of_injective _ hinj, ← List.toFinset_card_of_nodup hv.nodup,
    Finset.card_sdiff_add_card_eq_card hsub, Finset.card_range]

end Tenants

section Slots

@[simp] theorem allocated_link : (d.link parent child).allocated = d.allocated :=
  sameTenants_link.allocated

@[simp] theorem allocated_unlink : (d.unlink parent child).allocated = d.allocated :=
  sameTenants_unlink.allocated

-- What is shown of an edit has as many slots as what is left by it. When these are more than
-- before, no slot was vacant at some point.
structure Fits (d : Document) (edited : Edited α) : Prop where
  grows : d.allocated ≤ edited.document.allocated
  seen : ∀ c ∈ edited.changes, c.seen.allocated = edited.document.allocated
  full : edited.document.allocated = d.allocated ∨ edited.document.free = [] ∨
    ∃ c ∈ edited.changes, c.seen.free = []

theorem Fits.of_same {edited : Edited α} (h : edited.document.allocated = d.allocated)
    (hseen : ∀ c ∈ edited.changes, c.seen.allocated = d.allocated) : Fits d edited where
  grows := h.ge
  seen c hc := (hseen c hc).trans h.symm
  full := .inl h

theorem Fits.giving {edit : Edit α} {f : α → List NodeId} (h : Fits d (edit d)) :
    Fits d (edit.giving f d) := ⟨h.grows, h.seen, h.full⟩

theorem fits_fail (e : EditError) (d : Document) : Fits d (Edit.fail (α := α) e d) :=
  .of_same rfl (by simp [Edit.fail])

theorem fits_create (kind : NodeKind) (d : Document) : Fits d (create kind d) := by
  have halloc := allocated_create kind d
  refine ⟨by omega, by simp [(create_result kind d).2], ?_⟩
  by_cases hf : d.free = []
  · exact .inr (.inl (by simp [free_create, hf]))
  · exact .inl (by simpa [hf] using halloc)

theorem fits_appendChild (parent child : NodeId) (d : Document) :
    Fits d (appendChild parent child d) := by
  unfold appendChild
  split
  · split_ifs
    · exact fits_fail _ d
    · exact fits_fail _ d
    · exact fits_fail _ d
    · split <;> exact .of_same (by simp) (by simp)
  · exact fits_fail _ d

theorem fits_removeChild (parent child : NodeId) (d : Document) :
    Fits d (removeChild parent child d) := by
  unfold removeChild
  split
  · exact .of_same (by simp) (by simp)
  · exact fits_fail _ d

theorem fits_remove (id : NodeId) (d : Document) : Fits d (remove id d) := by
  unfold remove
  split
  · exact fits_fail _ d
  · split
    · next parent hp => exact .of_same (by simp [removeChild, hp]) (by simp [removeChild, hp])
    · exact .of_same (by simp) (by simp)

theorem fits_release (id : NodeId) (d : Document) : Fits d (release id d) := by
  unfold release
  split
  · exact fits_fail _ d
  · split
    · exact fits_fail _ d
    · exact .of_same (by simp) (by simp)

theorem fits_setAttribute (id : NodeId) (name value : String) (d : Document) :
    Fits d (setAttribute id name value d) := by
  unfold setAttribute
  split <;> exact .of_same (by simp [withAttributes]) (by simp [withAttributes])

theorem fits_removeAttribute (id : NodeId) (name : String) (d : Document) :
    Fits d (removeAttribute id name d) := by
  unfold removeAttribute
  split
  · exact .of_same rfl (by simp)
  · split <;> exact .of_same (by simp [withAttributes]) (by simp [withAttributes])

-- The text node is there before the children go, so it cannot take one of their slots.
theorem fits_replaceChildren (id : NodeId) (removed : List NodeId) (text : String)
    (d : Document) : Fits d (replaceChildren id removed text d) := by
  have hstrip : d.SameTenants (d.strip id removed) := sameTenants_strip
  have halloc := allocated_fill (d.strip id removed) id text
  rw [hstrip.allocated, hstrip.free] at halloc
  rw [WellFormed.replaceChildren_eq]
  by_cases hroom : text = "" ∨ d.free ≠ []
  · rw [if_pos hroom] at halloc
    refine .of_same (allocated_releaseEach.trans halloc) fun c hc => ?_
    split at hc
    · simp at hc
    · rw [List.mem_singleton.mp hc]
      exact halloc
  · rw [if_neg hroom] at halloc
    obtain ⟨htext, hfull⟩ := not_or.mp hroom
    have hnew : ((d.strip id removed).fill id text).2 ≠ [] := by
      simp [fill_eq _ id htext]
    have hfree : ((d.strip id removed).fill id text).1.free = [] := by
      rw [fill_eq _ id htext, sameTenants_link.free, free_create, hstrip.free, not_not.mp hfull]
      rfl
    simp only [hnew, and_false, if_false]
    refine ⟨?_, ?_, .inr (.inr ⟨_, List.mem_singleton_self _, hfree⟩)⟩
    · rw [allocated_releaseEach]
      omega
    · simp [allocated_releaseEach]

theorem fits_setText (id : NodeId) (text : String) (d : Document) : Fits d (setText id text d) := by
  unfold setText
  split
  · exact .of_same rfl (by simp)
  · split
    · exact .of_same (by simp) (by simp)
    · exact fits_replaceChildren id _ text d

theorem Operation.fits (op : Operation) (d : Document) : Fits d (op.edit d) := by
  cases op with
  | createElement tag => exact (fits_create _ d).giving
  | createText data => exact (fits_create _ d).giving
  | appendChild parent child => exact (fits_appendChild parent child d).giving
  | removeChild parent child => exact (fits_removeChild parent child d).giving
  | remove id => exact (fits_remove id d).giving
  | release id => exact (fits_release id d).giving
  | setAttribute id name value => exact (fits_setAttribute id name value d).giving
  | removeAttribute id name => exact (fits_removeAttribute id name d).giving
  | setText id text => exact (fits_setText id text d).giving
  | setTitle text => exact (fits_setText title text d).giving
  | observe target => exact .of_same rfl (by simp [edit, Edit.giving, Document.observe])
  | disconnect observer => exact .of_same rfl (by simp [edit, Edit.giving, Document.disconnect])

end Slots

section Joining

variable {w : Write}

private theorem mem_arrivals_of_textWrites (hwr : w ∈ d.textWrites id text) (hx : x ∈ w.added) :
    x ∈ d.arrivals text := by
  unfold textWrites at hwr
  split at hwr
  · obtain rfl := List.mem_singleton.mp hwr
    simp [Write.added] at hx
  · split at hwr
    · split at hwr
      · split at hwr
        · simp at hwr
        · obtain rfl := List.mem_singleton.mp hwr
          exact hx
      · split at hwr
        · obtain rfl := List.mem_singleton.mp hwr
          simp [Write.added] at hx
        · obtain rfl := List.mem_singleton.mp hwr
          exact hx
      · obtain rfl := List.mem_singleton.mp hwr
        exact hx
    · simp at hwr

private theorem eq_nextId_of_mem_arrivals (hx : x ∈ d.arrivals text) : x = d.nextId := by
  unfold arrivals at hx
  split at hx
  · simp at hx
  · exact List.mem_singleton.mp hx

-- Whoever joins the children of a node lives already, or is the next node.
private theorem alive_or_next_of_added (hw : d.WellFormed)
    (hm : ∀ x ∈ op.mentions, (d.node? x).isSome → d.Alive x) (hwr : w ∈ op.writes d)
    (hx : x ∈ w.added) : d.Alive x ∨ x = d.nextId := by
  have htext : ∀ id text, w ∈ d.textWrites id text → d.Alive x ∨ x = d.nextId :=
    fun id text hwr => .inr (eq_nextId_of_mem_arrivals (mem_arrivals_of_textWrites hwr hx))
  cases op with
  | appendChild parent child =>
      simp only [Operation.writes] at hwr
      split at hwr
      · next hadmits =>
        have hc := (hw.alive_of_admits hadmits (hm parent (by simp [Operation.mentions]))
          (hm child (by simp [Operation.mentions]))).2.2.1
        left
        split at hwr
        · rcases List.mem_pair.mp hwr with rfl | rfl
          · simp [Write.added] at hx
          · rwa [List.mem_singleton.mp hx]
        · obtain rfl := List.mem_singleton.mp hwr
          rwa [List.mem_singleton.mp hx]
      · simp at hwr
  | setText id text => exact htext id text hwr
  | setTitle text => exact htext title text hwr
  | removeChild parent child =>
      simp only [Operation.writes] at hwr
      split at hwr <;> simp_all [Write.added]
  | remove id =>
      simp only [Operation.writes] at hwr
      split at hwr <;> simp_all [Write.added]
  | setAttribute id name value =>
      simp only [Operation.writes] at hwr
      split at hwr <;> simp_all [Write.added]
  | removeAttribute id name =>
      simp only [Operation.writes] at hwr
      split at hwr <;> simp_all [Write.added]
  | _ => simp [Operation.writes] at hwr

end Joining

namespace Chronicle

variable {h m : Chronicle} {past : List Chronicle} {changes : List Change} {ws : List Write}

-- The nodes that were created and have not been released since.
def living (h : Chronicle) : Finset NodeId := h.issued.toFinset \ h.released.toFinset

theorem mem_living_iff : id ∈ h.living ↔ h.Lives id := by
  simp [living, Lives]

-- The page and its books while a change is told. What joins is there by then, and nothing that the
-- operation releases has gone yet.
def hearing (h : Chronicle) (c : Change) : Chronicle where
  document := c.seen
  issued := h.issued ++ c.record.added
  released := h.released

-- The moments at which changes are told, one after the other.
def moments (h : Chronicle) : List Change → List Chronicle
  | [] => []
  | c :: rest => h.hearing c :: (h.hearing c).moments rest

private theorem map_document_moments (h : Chronicle) (changes : List Change) :
    (h.moments changes).map (·.document) = changes.map (·.seen) := by
  induction changes generalizing h with
  | nil => rfl
  | cons c rest ih => simp [moments, hearing, ih]

-- Recorded runs with all their moments: the start, the end of each operation, and whenever an
-- operation tells of a change.
inductive Traced : Chronicle → List Chronicle → Prop where
  | start : Traced start [start]
  | step {h : Chronicle} {past : List Chronicle} (op : Operation) : Traced h past →
      op.mentions ⊆ h.issued → (∀ i, (h.after op).releases i < UInt32.size) →
      Traced (h.after op) (h.after op :: (h.moments (op.edit h.document).changes ++ past))

theorem Traced.recorded (ht : Traced h past) : Recorded h := by
  induction ht with
  | start => exact .start
  | step op _ hm hb ih => exact .step op ih hm hb

theorem Recorded.exists_traced (hr : Recorded h) : ∃ past, Traced h past := by
  induction hr with
  | start => exact ⟨_, .start⟩
  | step op _ hm hb ih =>
      obtain ⟨past, ht⟩ := ih
      exact ⟨_, .step op ht hm hb⟩

-- The books tell who lives in the page.
structure Agrees (m : Chronicle) : Prop where
  wellFormed : m.document.WellFormed
  alive_iff : ∀ id, m.document.Alive id ↔ m.Lives id

theorem Sound.agrees (hs : h.Sound) : h.Agrees := ⟨hs.wellFormed, hs.alive_iff⟩

theorem Agrees.card_living (hm : m.Agrees) :
    m.living.card + m.document.free.length = m.document.allocated := by
  have heq : m.living = m.document.tenants := by
    ext id
    rw [mem_living_iff, mem_tenants_iff, hm.alive_iff]
  rw [heq, hm.wellFormed.vacancies.card_tenants]

private theorem added_record (w : Write) (d : Document) : (w.record d).added = w.added := by
  cases w <;> rfl

-- The books agree while an operation goes on, if it brings nobody back who has been released.
theorem agrees_of_account (ha : Account d ws changes d') (hd : h.document = d) (hh : h.Agrees)
    (hnew : ∀ w ∈ ws, ∀ x ∈ w.added, x ∉ h.released) : ∀ m ∈ h.moments changes, m.Agrees := by
  induction ha generalizing h with
  | done _ => simp [moments]
  | @write d w seen ws changes d' hmade _ ih =>
      subst hd
      have hnow : (h.hearing ⟨w.record h.document, seen⟩).Agrees := by
        refine ⟨hmade.wellFormed, fun id => ?_⟩
        have hfirst := hnew w List.mem_cons_self id
        refine (hmade.alive_iff id).trans ?_
        rw [hh.alive_iff]
        simp only [Lives, hearing, added_record, List.mem_append]
        constructor
        · rintro (⟨hi, hr⟩ | hi)
          · exact ⟨.inl hi, hr⟩
          · exact ⟨.inr hi, hfirst hi⟩
        · rintro ⟨hi | hi, hr⟩
          · exact .inl ⟨hi, hr⟩
          · exact .inr hi
      intro m hm
      rcases List.mem_cons.mp hm with rfl | hm
      · exact hnow
      · exact ih rfl hnow (fun w hw => hnew w (List.mem_cons_of_mem _ hw)) m hm

theorem Sound.agrees_moments (hs : h.Sound) (hm : op.mentions ⊆ h.issued) :
    ∀ m ∈ h.moments (op.edit h.document).changes, m.Agrees := by
  have hfound : ∀ x ∈ op.mentions, (h.document.node? x).isSome → h.document.Alive x :=
    fun x hx => hs.alive_of_isSome (hm hx)
  refine agrees_of_account (accounted_edit op hs.wellFormed hfound).account rfl hs.agrees ?_
  intro w hw x hx hreleased
  rcases alive_or_next_of_added hs.wellFormed hfound hw hx with ha | rfl
  · exact ((hs.alive_iff x).mp ha).2 hreleased
  · exact hs.generation_ne hreleased rfl

-- There was room for everybody at every moment, and there was a moment without any to spare.
private theorem exists_full (ht : Traced h past) :
    (∀ m ∈ past, m.Agrees ∧ m.document.allocated ≤ h.document.allocated) ∧
      ∃ m ∈ past, m.document.free = [] ∧ m.document.allocated = h.document.allocated := by
  induction ht with
  | start =>
      refine ⟨fun m hm => ?_, start, List.mem_singleton_self _, rfl, rfl⟩
      rw [List.mem_singleton.mp hm]
      exact ⟨sound_start.agrees, Nat.le_refl _⟩
  | @step h past op ht hm hb ih =>
      obtain ⟨hall, full, hfull, hfree, hsize⟩ := ih
      have hs := sound_of_recorded ht.recorded
      have hfits := op.fits h.document
      have hdocuments := h.map_document_moments (op.edit h.document).changes
      constructor
      · intro m hmem
        rcases List.mem_cons.mp hmem with rfl | hmem
        · exact ⟨(hs.after hm hb).agrees, Nat.le_refl _⟩
        · rcases List.mem_append.mp hmem with hmem | hmem
          · refine ⟨hs.agrees_moments hm m hmem, ?_⟩
            have hseen : m.document ∈ (op.edit h.document).changes.map (·.seen) :=
              hdocuments ▸ List.mem_map_of_mem hmem
            obtain ⟨c, hc, he⟩ := List.mem_map.mp hseen
            exact (he ▸ hfits.seen c hc).le
          · exact ⟨(hall m hmem).1, (hall m hmem).2.trans hfits.grows⟩
      · rcases hfits.full with hsame | hleft | ⟨c, hc, hshown⟩
        · exact ⟨full, by simp [hfull], hfree, hsize.trans hsame.symm⟩
        · exact ⟨h.after op, List.mem_cons_self, hleft, rfl⟩
        · have hseen : c.seen ∈ (h.moments (op.edit h.document).changes).map (·.document) :=
            hdocuments ▸ List.mem_map_of_mem hc
          obtain ⟨m, hmem, he⟩ := List.mem_map.mp hseen
          exact ⟨m, by simp [hmem], he ▸ hshown, he ▸ hfits.seen c hc⟩

-- The number of slots is the largest number of nodes that lived at one moment of the run. At each
-- moment these are the nodes that can be found in the page as it is then.
theorem allocated_isGreatest (ht : Traced h past) :
    (∀ m ∈ past, ∀ id, id ∈ m.living ↔ m.document.Alive id) ∧
      IsGreatest {n | ∃ m ∈ past, m.living.card = n} h.document.allocated := by
  obtain ⟨hall, full, hfull, hfree, hsize⟩ := exists_full ht
  refine ⟨fun m hm id => ?_, ⟨full, hfull, ?_⟩, ?_⟩
  · rw [mem_living_iff, (hall m hm).1.alive_iff]
  · have hcard := (hall full hfull).1.card_living
    rw [hfree, List.length_nil, Nat.add_zero] at hcard
    exact hcard.trans hsize
  · rintro _ ⟨m, hm, rfl⟩
    have hcard := (hall m hm).1.card_living
    have hle := (hall m hm).2
    omega

-- A run that is fullest inside its last operation, where the new text node and the child that it
-- replaces are both there.
def crowded : Chronicle :=
  ((start.after (.createElement "b")).after (.appendChild body ⟨5, 0⟩)).after (.setText body "x")

theorem recorded_crowded : Recorded crowded := by
  unfold crowded
  refine .step _ (.step _ (.step _ .start ?_ ?_) ?_ ?_) ?_ ?_
  all_goals first
    | decide
    | exact releases_lt_of_length (by decide)

theorem allocated_isGreatest_crowded : ∃ past, Traced crowded past ∧
    (∀ m ∈ past, ∀ id, id ∈ m.living ↔ m.document.Alive id) ∧
    IsGreatest {n | ∃ m ∈ past, m.living.card = n} crowded.document.allocated ∧
    crowded.document.allocated = 7 ∧ crowded.living.card = 6 := by
  obtain ⟨past, ht⟩ := recorded_crowded.exists_traced
  obtain ⟨hliving, hgreatest⟩ := allocated_isGreatest ht
  exact ⟨past, ht, hliving, hgreatest, by decide, by decide⟩

end Chronicle
end PageLocalizer.Document
