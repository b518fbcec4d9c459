import PageLocalizer.Proofs.Document.Skeleton

-- No element ever has two attributes of one name, whatever ids operations are called with.
namespace PageLocalizer.Document

-- Said of slots, so that nodes need not be found to keep it.
def Distinct (d : Document) : Prop :=
  ∀ (i : Nat) (slot : Slot), d.slots[i]? = some slot → slot.kind.names.Nodup

variable {d d' : Document} {id x p c : NodeId} {ids : List NodeId} {index : Nat}
  {f : Slot → Slot} {kind : NodeKind} {e : Element} {entries : List (String × String)}

section Slots

theorem distinct_modifySlot (h : d.Distinct)
    (hf : ∀ s, s.kind.names.Nodup → (f s).kind.names.Nodup) : (d.modifySlot index f).Distinct := by
  intro i slot hs
  simp only [modifySlot, Array.getElem?_modify] at hs
  by_cases hi : index = i
  · simp only [hi, ite_true, Option.map_eq_some_iff] at hs
    obtain ⟨old, hold, rfl⟩ := hs
    exact hf old (h i old hold)
  · rw [if_neg hi] at hs
    exact h i slot hs

theorem distinct_foldl {step : Document → α → Document}
    (hstep : ∀ d a, d.Distinct → (step d a).Distinct) (as : List α) (h : d.Distinct) :
    (as.foldl step d).Distinct := by
  induction as generalizing d with
  | nil => exact h
  | cons a rest ih => exact ih (hstep d a h)

theorem distinct_create (h : d.Distinct) (hn : kind.names.Nodup) :
    (create kind d).document.Distinct := by
  cases hf : d.free with
  | nil =>
      rw [create_of_full hf]
      intro i slot hs
      simp only [Array.getElem?_push] at hs
      split at hs
      · rwa [← Option.some.inj hs]
      · exact h i slot hs
  | cons j rest =>
      rw [create_of_vacancy hf]
      exact distinct_modifySlot h fun _ _ => hn

theorem distinct_link (h : d.Distinct) : (d.link p c).Distinct :=
  distinct_modifySlot (distinct_modifySlot h fun _ hs => hs) fun _ hs => hs

theorem distinct_unlink (h : d.Distinct) : (d.unlink p c).Distinct :=
  distinct_modifySlot (distinct_modifySlot h fun _ hs => hs) fun _ hs => hs

theorem distinct_vacate (h : d.Distinct) (id : NodeId) : (d.vacate id).Distinct :=
  distinct_modifySlot h fun _ _ => List.nodup_nil

theorem distinct_vacateAll (h : d.Distinct) : (d.vacateAll ids).Distinct :=
  distinct_foldl (fun _ id h => distinct_vacate h id) ids h

theorem distinct_strip (h : d.Distinct) : (d.strip x ids).Distinct := by
  have hx : (d.modifySlot x.index ({ · with children := [] })).Distinct :=
    distinct_modifySlot h fun _ hs => hs
  unfold strip orphan
  refine distinct_foldl (fun d id h => ?_) ids hx
  exact distinct_modifySlot h fun _ hs => hs

theorem distinct_releaseEach (h : d.Distinct) : (d.releaseEach ids).Distinct := by
  refine distinct_foldl (fun d id h => ?_) ids h
  split
  · exact distinct_vacateAll h
  · exact h

theorem distinct_fill (h : d.Distinct) (text : String) : (d.fill x text).1.Distinct := by
  by_cases htext : text = ""
  · simpa [fill, htext] using h
  · rw [fill_eq d x htext]
    exact distinct_link (distinct_create h List.nodup_nil)

theorem Distinct.attributes_nodup (h : d.Distinct) (id : NodeId) :
    ((d.attributes id).map Prod.fst).Nodup := by
  unfold attributes
  split
  · next e he =>
    obtain ⟨node, hn, hk⟩ := node?_of_element? he
    have hnames := h id.index node (node?_eq_some_iff.mp hn).1
    rwa [hk] at hnames
  · exact List.nodup_nil

end Slots

section Edits

theorem distinct_appendChild (h : d.Distinct) (parent child : NodeId) :
    (appendChild parent child d).document.Distinct := by
  unfold appendChild
  split
  · split_ifs
    · exact h
    · exact h
    · exact h
    · split
      · exact distinct_link (distinct_unlink h)
      · exact distinct_link h
  · exact h

theorem distinct_removeChild (h : d.Distinct) (parent child : NodeId) :
    (removeChild parent child d).document.Distinct := by
  unfold removeChild
  split
  · exact distinct_unlink h
  · exact h

theorem distinct_remove (h : d.Distinct) (id : NodeId) : (remove id d).document.Distinct := by
  unfold remove
  split
  · exact h
  · split
    · next parent _ => exact distinct_vacateAll (distinct_removeChild h parent id)
    · exact distinct_vacateAll h

theorem distinct_release (h : d.Distinct) (id : NodeId) : (release id d).document.Distinct := by
  unfold release
  split
  · exact h
  · split
    · exact h
    · exact distinct_vacateAll h

theorem distinct_withAttributes (h : d.Distinct) (hn : (entries.map Prod.fst).Nodup) :
    (d.withAttributes id e entries).Distinct :=
  distinct_modifySlot h fun _ _ => hn

theorem distinct_setAttribute (h : d.Distinct) (id : NodeId) (name value : String) :
    (setAttribute id name value d).document.Distinct := by
  have hold := h.attributes_nodup id
  unfold setAttribute
  split
  · exact h
  · next e he =>
    simp only [attributes, he] at hold
    exact distinct_withAttributes h (nodup_setEntry hold)

theorem distinct_removeAttribute (h : d.Distinct) (id : NodeId) (name : String) :
    (removeAttribute id name d).document.Distinct := by
  have hold := h.attributes_nodup id
  unfold removeAttribute
  split
  · exact h
  · next e he =>
    simp only [attributes, he] at hold
    split
    · exact h
    · exact distinct_withAttributes h (hold.sublist (List.eraseP_sublist.map _))

theorem distinct_setText (h : d.Distinct) (id : NodeId) (text : String) :
    (setText id text d).document.Distinct := by
  unfold setText
  split
  · exact h
  · split
    · exact distinct_modifySlot h fun _ _ => List.nodup_nil
    · rw [WellFormed.replaceChildren_eq]
      exact distinct_releaseEach (distinct_fill (distinct_strip h) text)

theorem Operation.distinct (op : Operation) (h : d.Distinct) : (op.edit d).document.Distinct := by
  cases op with
  | createElement tag => exact distinct_create h List.nodup_nil
  | createText data => exact distinct_create h List.nodup_nil
  | appendChild parent child => exact distinct_appendChild h parent child
  | removeChild parent child => exact distinct_removeChild h parent child
  | remove id => exact distinct_remove h id
  | release id => exact distinct_release h id
  | setAttribute id name value => exact distinct_setAttribute h id name value
  | removeAttribute id name => exact distinct_removeAttribute h id name
  | setText id text => exact distinct_setText h id text
  | setTitle text => exact distinct_setText h title text
  | observe target => exact h
  | disconnect observer => exact h

end Edits

theorem distinct_after (ops : List Operation) : (empty.after ops).Distinct := by
  have hempty : empty.Distinct := by
    intro i slot hs
    have hslots : ∀ slot ∈ empty.slots.toList, slot.kind.names = [] := by decide
    rw [hslots slot (Array.mem_toList_iff.mpr (Array.mem_of_getElem? hs))]
    exact List.nodup_nil
  exact distinct_foldl (fun _ op => op.distinct) ops hempty

end PageLocalizer.Document
