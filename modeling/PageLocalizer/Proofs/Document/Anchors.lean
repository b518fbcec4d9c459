import PageLocalizer.Proofs.Document.Operation
import PageLocalizer.Proofs.Document.Retention

-- Nodes that hold their slots against all operations, also against those that are called with ids
-- the page never gave. Nothing is asked of the rest of the page, for such ids can put it in
-- disorder.
namespace PageLocalizer

-- The ids that a slot stores.
def Slot.links (slot : Slot) : List NodeId := slot.parent.toList ++ slot.children

namespace Document

-- A living node, where no id that the page stores leads to its slot and is not its own.
structure Anchored (d : Document) (id : NodeId) : Prop where
  alive : d.Alive id
  own : ∀ (i : Nat) (slot : Slot), d.slots[i]? = some slot →
    ∀ x ∈ slot.links, x.index = id.index → x = id

-- What an anchored node keeps. `touched` tells which of its attributes may differ.
structure Keeps (id : NodeId) (touched : String → Prop) (d d' : Document) : Prop where
  anchored : d'.Anchored id
  isElement : d'.isElement id = d.isElement id
  attribute? : ∀ name, ¬touched name → d'.attribute? id name = d.attribute? id name

end Document

-- An edit that keeps an anchored node, whatever the page.
def Edit.Keeping (id : NodeId) (touched : String → Prop) (edit : Edit α) : Prop :=
  ∀ d, d.Anchored id → Document.Keeps id touched d (edit d).document

namespace Document

variable {d d' d'' : Document} {id x p c : NodeId} {ids : List NodeId} {index : Nat}
  {f : Slot → Slot} {touched : String → Prop}

namespace Keeps

theorem refl (h : d.Anchored id) : Keeps id touched d d := ⟨h, rfl, fun _ _ => rfl⟩

theorem trans (h : Keeps id touched d d') (h' : Keeps id touched d' d'') :
    Keeps id touched d d'' where
  anchored := h'.anchored
  isElement := h'.isElement.trans h.isElement
  attribute? name hn := (h'.attribute? name hn).trans (h.attribute? name hn)

theorem of_kind? (h : d'.Anchored id) (hk : d'.kind? id = d.kind? id) : Keeps id touched d d' where
  anchored := h
  isElement := by simp [Document.isElement, hk]
  attribute? name _ := attribute?_congr hk name

-- A node that is no element before and after has no attributes to lose.
theorem of_not_element (h : d'.Anchored id) (hd : d.isElement id = false)
    (hd' : d'.isElement id = false) : Keeps id touched d d' where
  anchored := h
  isElement := hd'.trans hd.symm
  attribute? name _ := by
    have hnone : ∀ e : Document, e.isElement id = false → e.attribute? id name = none := by
      intro e he
      cases ha : e.attribute? id name with
      | none => rfl
      | some value => simp [isElement_of_attribute? ha] at he
    rw [hnone d hd, hnone d' hd']

end Keeps

namespace Anchored

-- Whoever is found in the slot of an anchored node is that node.
theorem eq_of_isSome (h : d.Anchored id) (hx : (d.node? x).isSome) (hi : x.index = id.index) :
    x = id := eq_of_index h.alive.1 hx hi

theorem lt_allocated (h : d.Anchored id) : id.index < d.allocated := by
  obtain ⟨node, hn⟩ := Option.isSome_iff_exists.mp h.alive.1
  exact lt_allocated_of_node? hn

private theorem eq_of_mem_children (h : d.Anchored id) (hc : x ∈ d.children p)
    (hi : x.index = id.index) : x = id := by
  obtain ⟨node, hn⟩ := Option.isSome_iff_exists.mp (isSome_of_mem_children hc)
  rw [children_of_node? hn] at hc
  exact h.own p.index node (node?_eq_some_iff.mp hn).1 x (by simp [Slot.links, hc]) hi

private theorem eq_of_mem_below {n : Nat} (h : d.Anchored id) (hx : x ∈ d.below n p)
    (hi : x.index = id.index) : x = id := by
  induction n generalizing p with
  | zero => simp [below] at hx
  | succ n ih =>
      obtain ⟨c, hc, hx⟩ := mem_below_succ.mp hx
      rcases hx with rfl | hx
      · exact h.eq_of_mem_children hc hi
      · exact ih hx

-- What can be released does not live in the slots of the skeleton.
theorem index_ne_of_releasable (h : d.Anchored id) (hid : id ∈ skeleton)
    (hr : d.releasable p = .ok ids) : ∀ x ∈ ids, x.index ≠ id.index := by
  obtain ⟨hp, rfl, hs⟩ := releasable_eq_ok hr
  intro x hx hi
  have he : x = id := by
    rcases List.mem_cons.mp hx with rfl | hx
    · exact h.eq_of_isSome hp hi
    · exact h.eq_of_mem_below hx hi
  exact hs id hid (he ▸ hx)

end Anchored

section Slots

theorem anchored_modifySlot (h : d.Anchored id) (hf : ∀ s, (f s).generation = s.generation)
    (hl : ∀ s, ∀ x ∈ (f s).links, x.index = id.index → x ∈ s.links ∨ x = id) :
    (d.modifySlot index f).Anchored id where
  alive := ((sameTenants_modifySlot hf).alive_iff id).mpr h.alive
  own i slot hs x hx hi := by
    simp only [modifySlot, Array.getElem?_modify] at hs
    by_cases hindex : index = i
    · simp only [hindex, ite_true, Option.map_eq_some_iff] at hs
      obtain ⟨old, hold, rfl⟩ := hs
      exact (hl old x hx hi).elim (fun hm => h.own i old hold x hm hi) fun he => he
    · rw [if_neg hindex] at hs
      exact h.own i slot hs x hx hi

-- The ids of a slot change, and its tenant does not.
theorem keeps_modifyLinks (h : d.Anchored id) (hf : ∀ s, (f s).generation = s.generation)
    (hk : ∀ s, (f s).kind = s.kind)
    (hl : ∀ s, ∀ x ∈ (f s).links, x.index = id.index → x ∈ s.links ∨ x = id) :
    Keeps id touched d (d.modifySlot index f) :=
  .of_kind? (anchored_modifySlot h hf hl) (kind?_modifySlot hf hk id)

-- Whatever happens to the kind in some other slot.
theorem keeps_modifyKind (h : d.Anchored id) (hi : index ≠ id.index) (kind : NodeKind) :
    Keeps id touched d (d.modifySlot index ({ · with kind })) := by
  refine .of_kind? (anchored_modifySlot h (fun _ => by rfl) fun _ _ hx _ => .inl hx) ?_
  unfold kind?
  rw [node?_modifySlot (fun _ => by rfl), if_neg hi.symm]

theorem keeps_link (h : d.Anchored id) (hp : p.index = id.index → p = id)
    (hc : c.index = id.index → c = id) : Keeps id touched d (d.link p c) := by
  have hjoin : Keeps id touched d (d.modifySlot c.index ({ · with parent := some p })) := by
    refine keeps_modifyLinks h (fun _ => rfl) (fun _ => rfl) fun s x hx hi => ?_
    simp only [Slot.links, Option.toList_some, List.mem_append, List.mem_singleton] at hx ⊢
    exact hx.elim (fun he => .inr (he ▸ hp (he ▸ hi))) fun hm => .inl (.inr hm)
  refine hjoin.trans (keeps_modifyLinks hjoin.anchored (fun _ => rfl) (fun _ => rfl) ?_)
  intro s x hx hi
  simp only [Slot.links, List.mem_append, List.mem_singleton] at hx ⊢
  rcases hx with hx | hx | he
  · exact .inl (.inl hx)
  · exact .inl (.inr hx)
  · exact .inr (he ▸ hc (he ▸ hi))

theorem keeps_clearParent (h : d.Anchored id) :
    Keeps id touched d (d.modifySlot index ({ · with parent := none })) :=
  keeps_modifyLinks h (fun _ => rfl) (fun _ => rfl) fun s x hx _ => by
    simp only [Slot.links, Option.toList_none, List.nil_append] at hx
    simp [Slot.links, hx]

theorem keeps_unlink (h : d.Anchored id) : Keeps id touched d (d.unlink p c) := by
  have hleave : Keeps id touched d (d.modifySlot p.index fun slot =>
      { slot with children := slot.children.filter (· ≠ c) }) := by
    refine keeps_modifyLinks h (fun _ => rfl) (fun _ => rfl) fun s x hx _ => .inl ?_
    simp only [Slot.links, List.mem_append, List.mem_filter] at hx ⊢
    exact hx.imp (fun hm => hm) And.left
  exact hleave.trans (keeps_clearParent hleave.anchored)

private theorem keeps_strip (h : d.Anchored id) : Keeps id touched d (d.strip x ids) := by
  have horphan : ∀ (ids : List NodeId) {d : Document}, d.Anchored id →
      Keeps id touched d (d.orphan ids) := by
    intro ids
    induction ids with
    | nil => exact fun h => .refl h
    | cons c rest ih =>
        intro d h
        have hc : Keeps id touched d (d.modifySlot c.index ({ · with parent := none })) :=
          keeps_clearParent h
        exact hc.trans (ih hc.anchored)
  have hclear : Keeps id touched d (d.modifySlot x.index ({ · with children := [] })) := by
    refine keeps_modifyLinks h (fun _ => rfl) (fun _ => rfl) fun s x hx _ => .inl ?_
    simp only [Slot.links, List.append_nil] at hx
    simp [Slot.links, hx]
  exact hclear.trans (horphan ids hclear.anchored)

-- A new node goes where nobody lives.
private theorem nextId_index_ne (h : d.Anchored id) : d.nextId.index ≠ id.index := by
  cases hf : d.free with
  | nil =>
      have hlt := h.lt_allocated
      simp only [nextId, hf, List.head?_nil, Option.getD_none]
      exact fun he => by simp [allocated, he] at hlt
  | cons i rest =>
      have hfree := h.alive.2
      simp only [nextId, hf, List.head?_cons, Option.getD_some]
      exact fun he => hfree (by simp [hf, he])

theorem keeps_create (h : d.Anchored id) (kind : NodeKind) :
    Keeps id touched d (create kind d).document := by
  cases hf : d.free with
  | nil =>
      rw [create_of_full hf]
      have hlt : id.index < d.slots.size := h.lt_allocated
      have hne : id.index ≠ d.slots.size := Nat.ne_of_lt hlt
      refine .of_kind? ⟨⟨?_, h.alive.2⟩, fun i slot hs x hx hi => ?_⟩ ?_
      · simpa [node?, Array.getElem?_push, hne] using h.alive.1
      · simp only [Array.getElem?_push] at hs
        split at hs
        · rw [Option.some.injEq] at hs
          simp [← hs, Slot.links] at hx
        · exact h.own i slot hs x hx hi
      · simp [kind?, node?, Array.getElem?_push, hne]
  | cons j rest =>
      rw [create_of_vacancy hf]
      have hfree := h.alive.2
      rw [hf, List.mem_cons, not_or] at hfree
      have hk : Keeps id touched d (d.modifySlot j ({ · with kind })) :=
        keeps_modifyKind h (Ne.symm hfree.1) kind
      exact ⟨⟨⟨hk.anchored.alive.1, hfree.2⟩, hk.anchored.own⟩, hk.isElement, hk.attribute?⟩

private theorem keeps_vacate (h : d.Anchored id) (hx : x.index ≠ id.index) :
    Keeps id touched d (d.vacate x) := by
  have hnode : (d.vacate x).node? id = d.node? id := by
    simp [node?, vacate, modifySlot, Array.getElem?_modify, hx]
  refine .of_kind? ⟨⟨hnode ▸ h.alive.1, ?_⟩, fun i slot hs y hy hi => ?_⟩
    (by simp only [kind?, hnode])
  · simpa [vacate, hx.symm] using h.alive.2
  · simp only [vacate, modifySlot, Array.getElem?_modify] at hs
    by_cases hindex : x.index = i
    · simp only [hindex, ite_true, Option.map_eq_some_iff] at hs
      obtain ⟨old, -, rfl⟩ := hs
      simp [Slot.links, Slot.vacant] at hy
    · rw [if_neg hindex] at hs
      exact h.own i slot hs y hy hi

theorem keeps_vacateAll (h : d.Anchored id) (hids : ∀ x ∈ ids, x.index ≠ id.index) :
    Keeps id touched d (d.vacateAll ids) := by
  induction ids generalizing d with
  | nil => exact .refl h
  | cons x rest ih =>
      have hx : Keeps id touched d (d.vacate x) := keeps_vacate h (hids x (by simp))
      rw [vacateAll_cons]
      exact hx.trans (ih hx.anchored fun y hy => hids y (List.mem_cons_of_mem x hy))

private theorem keeps_releaseEach (h : d.Anchored id) (hid : id ∈ skeleton) :
    Keeps id touched d (d.releaseEach ids) := by
  induction ids generalizing d with
  | nil => exact .refl h
  | cons x rest ih =>
      have hx : Keeps id touched d (d.releaseEach [x]) := by
        unfold releaseEach
        simp only [List.foldl_cons, List.foldl_nil]
        split
        · rename_i gone hr
          exact keeps_vacateAll h (h.index_ne_of_releasable hid hr)
        · exact .refl h
      rw [WellFormed.releaseEach_cons]
      exact hx.trans (ih hx.anchored)

-- An observer takes no part in any of this.
theorem keeps_of_observers (h : d.Anchored id) (hs : d'.slots = d.slots) (hf : d'.free = d.free) :
    Keeps id touched d d' := by
  have hnode : d'.node? id = d.node? id := by simp [node?, hs]
  refine .of_kind? ⟨⟨hnode ▸ h.alive.1, hf ▸ h.alive.2⟩, ?_⟩ (by simp only [kind?, hnode])
  rw [hs]
  exact h.own

end Slots

section Edits

theorem keeping_appendChild (parent child : NodeId) :
    Edit.Keeping id touched (appendChild parent child) := by
  intro d h
  unfold appendChild
  split
  · rename_i p c hp hc
    have hpid := h.eq_of_isSome (x := parent) (by simp [hp])
    have hcid := h.eq_of_isSome (x := child) (by simp [hc])
    split_ifs
    · exact .refl h
    · exact .refl h
    · exact .refl h
    · cases hold : c.parent with
      | none => exact keeps_link h hpid hcid
      | some old =>
          have hleft : Keeps id touched d (d.unlink old child) := keeps_unlink h
          exact hleft.trans (keeps_link hleft.anchored hpid hcid)
  · exact .refl h

theorem keeping_removeChild (parent child : NodeId) :
    Edit.Keeping id touched (removeChild parent child) := by
  intro d h
  unfold removeChild
  split
  · exact keeps_unlink h
  · exact .refl h

theorem keeping_remove (hid : id ∈ skeleton) (x : NodeId) :
    Edit.Keeping id touched (remove x) := by
  intro d h
  unfold remove
  split
  · exact .refl h
  · rename_i ids hr
    have hne := h.index_ne_of_releasable hid hr
    cases d.parent? x with
    | none => exact keeps_vacateAll h hne
    | some parent =>
        have hleft : Keeps id touched d (removeChild parent x d).document :=
          keeping_removeChild parent x d h
        exact hleft.trans (keeps_vacateAll hleft.anchored hne)

theorem keeping_release (hid : id ∈ skeleton) (x : NodeId) :
    Edit.Keeping id touched (release x) := by
  intro d h
  unfold release
  split
  · exact .refl h
  · rename_i ids hr
    split
    · exact .refl h
    · exact keeps_vacateAll h (h.index_ne_of_releasable hid hr)

-- The attribute that an element is given is the one that may differ.
theorem keeps_withAttributes {e : Element} (h : d.Anchored id) (he : d.element? x = some e)
    {entries : List (String × String)}
    (ht : x = id → ∀ name, ¬touched name → entries.lookup name = e.attributes.lookup name) :
    Keeps id touched d (d.withAttributes x e entries) := by
  obtain ⟨node, hn, hnk⟩ := node?_of_element? he
  have hanchored : (d.withAttributes x e entries).Anchored id :=
    anchored_modifySlot h (fun _ => by rfl) fun _ _ hy _ => .inl hy
  have hkind := kind?_withAttributes he entries id
  by_cases hx : x = id
  · subst hx
    rw [if_pos rfl] at hkind
    have hold : d.kind? x = some (.element e) := by rw [kind?_of_node? hn, hnk]
    refine ⟨hanchored, by simp [isElement, hkind, hold, NodeKind.isElement], fun name hname => ?_⟩
    simp only [attribute?, attributes, element?_of_kind? hkind, he]
    exact ht rfl name hname
  · rw [if_neg (Ne.symm hx)] at hkind
    exact .of_kind? hanchored hkind

theorem keeping_setAttribute {name : String} (ht : x = id → touched name) (value : String) :
    Edit.Keeping id touched (setAttribute x name value) := by
  intro d h
  unfold setAttribute
  split
  · exact .refl h
  · rename_i e he
    refine keeps_withAttributes h he fun hx n hn => ?_
    rw [lookup_setEntry, if_neg]
    rintro rfl
    exact hn (ht hx)

private theorem lookup_eraseP {name n : String} (hn : n ≠ name) (entries : List (String × String)) :
    (entries.eraseP (·.1 = name)).lookup n = entries.lookup n := by
  induction entries with
  | nil => rfl
  | cons entry rest ih =>
      obtain ⟨m, v⟩ := entry
      by_cases hm : m = name
      · have hb : (n == m) = false := by simp [hm, hn]
        simp [hm, List.lookup_cons, hm ▸ hb]
      · simp [hm, List.lookup_cons, ih]

theorem keeping_removeAttribute {name : String} (ht : x = id → touched name) :
    Edit.Keeping id touched (removeAttribute x name) := by
  intro d h
  unfold removeAttribute
  split
  · exact .refl h
  · rename_i e he
    split
    · exact .refl h
    · refine keeps_withAttributes h he fun hx n hn => lookup_eraseP ?_ _
      rintro rfl
      exact hn (ht hx)

-- A text node that gets new data had data before, so it is no element that this happens to.
private theorem keeps_reword {target : NodeId} {old : String} (h : d.Anchored id)
    (hk : d.kind? target = some (.text old)) (text : String) :
    Keeps id touched d (d.modifySlot target.index ({ · with kind := .text text })) := by
  by_cases hi : target.index = id.index
  · have hsome := isSome_of_kind? hk
    have he := h.eq_of_isSome hsome hi
    subst he
    refine .of_not_element (anchored_modifySlot h (fun _ => by rfl) fun _ _ hx _ => .inl hx) ?_ ?_
    · simp [isElement, hk, NodeKind.isElement]
    · simp [isElement, kind?_modifyKind hsome, NodeKind.isElement]
  · exact keeps_modifyKind h hi _

theorem keeping_setText (hid : id ∈ skeleton) (x : NodeId) (text : String) :
    Edit.Keeping id touched (setText x text) := by
  intro d h
  unfold setText
  split
  · exact .refl h
  · rename_i node hn
    split
    · rename_i target ht
      obtain ⟨old, hk⟩ := kind?_of_textTarget? hn ht
      exact keeps_reword h hk text
    · rw [WellFormed.replaceChildren_eq]
      have hstrip : Keeps id touched d (d.strip x node.children) := keeps_strip h
      have hfill : Keeps id touched (d.strip x node.children)
          ((d.strip x node.children).fill x text).1 := by
        by_cases htext : text = ""
        · simpa [fill, htext] using .refl hstrip.anchored
        · rw [fill_eq _ x htext]
          have hnew : Keeps id touched _ _ := keeps_create hstrip.anchored (.text text)
          refine hnew.trans (keeps_link hnew.anchored (h.eq_of_isSome (by simp [hn])) ?_)
          exact fun hi => absurd hi (nextId_index_ne hstrip.anchored)
      have hfilled := hstrip.trans hfill
      exact hfilled.trans (keeps_releaseEach hfilled.anchored hid)

end Edits

namespace Operation

-- The attribute of a node that an operation writes or removes.
def Writes (id : NodeId) (name : String) : Operation → Prop
  | .setAttribute x n _ => x = id ∧ n = name
  | .removeAttribute x n => x = id ∧ n = name
  | _ => False

-- No operation harms the skeleton.
theorem keeping (op : Operation) (hid : id ∈ skeleton) :
    Edit.Keeping id (fun name => op.Writes id name) op.edit := by
  intro d h
  cases op with
  | createElement tag => exact keeps_create h _
  | createText data => exact keeps_create h _
  | appendChild parent child => exact keeping_appendChild parent child d h
  | removeChild parent child => exact keeping_removeChild parent child d h
  | remove x => exact keeping_remove hid x d h
  | release x => exact keeping_release hid x d h
  | setAttribute x name value => exact keeping_setAttribute (fun hx => ⟨hx, rfl⟩) value d h
  | removeAttribute x name => exact keeping_removeAttribute (fun hx => ⟨hx, rfl⟩) d h
  | setText x text => exact keeping_setText hid x text d h
  | setTitle text => exact keeping_setText hid title text d h
  | observe target => exact keeps_of_observers h rfl rfl
  | disconnect observer => exact keeps_of_observers h rfl rfl

end Operation

theorem anchored_empty (hid : id ∈ skeleton) : empty.Anchored id where
  alive := wellFormed_empty.skeleton_alive id hid
  own i slot hs x hx hi := by
    have hstored : ∀ slot ∈ empty.slots.toList, ∀ x ∈ slot.links, x.generation = 0 := by decide
    have hgen := hstored slot (Array.mem_toList_iff.mpr (Array.mem_of_getElem? hs)) x hx
    have hzero : ∀ id ∈ skeleton, id.generation = 0 := by decide
    exact congrArg₂ NodeId.mk hi (hgen.trans (hzero id hid).symm)

end Document
end PageLocalizer
