import PageLocalizer.Proofs.Document.Edits

-- What elements keep when texts and attributes are set: their place, for as long as they have one,
-- and all attributes but those that are set.
namespace PageLocalizer.Document

-- `touched` tells which attributes of which elements may differ.
structure Retains (touched : NodeId → String → Prop) (d d' : Document) : Prop where
  isElement : ∀ e, d'.isElement e → d.isElement e
  isContainer : ∀ x, d'.isContainer x → d.isContainer x
  parent? : ∀ e p, d'.isElement e → d'.parent? e = some p → d.parent? e = some p
  attribute? : ∀ e name, d'.isElement e → ¬touched e name →
    d'.attribute? e name = d.attribute? e name

variable {d d' d'' : Document} {id x e p root : NodeId} {touched more : NodeId → String → Prop}

section Kinds

theorem isElement_iff : d.isElement x ↔ ∃ e, d.kind? x = some (.element e) := by
  unfold isElement
  cases d.kind? x with
  | none => simp
  | some k => cases k <;> simp [NodeKind.isElement]

theorem isContainer_iff : d.isContainer x ↔ ∃ k, d.kind? x = some k ∧ k.isText = false := by
  unfold isContainer
  cases d.kind? x with
  | none => simp
  | some k => cases k <;> simp [NodeKind.isContainer, NodeKind.isText]

theorem isElement_of_attribute? {name value : String} (h : d.attribute? x name = some value) :
    d.isElement x := by
  unfold attribute? attributes at h
  cases he : d.element? x with
  | none => simp [he] at h
  | some e =>
      obtain ⟨node, hn, hk⟩ := node?_of_element? he
      exact isElement_iff.mpr ⟨e, by rw [kind?_of_node? hn, hk]⟩

theorem attribute?_congr (h : d'.kind? x = d.kind? x) (name : String) :
    d'.attribute? x name = d.attribute? x name := by
  simp [attribute?, attributes, element?, h]

-- A node with a child and a parent of its own is an element.
theorem WellFormed.isElement_of_parent (hw : d.WellFormed) {c q : NodeId}
    (hc : d.parent? c = some x) (hx : d.parent? x = some q) : d.isElement x := by
  obtain ⟨ha, -⟩ := hw.alive_of_parent? hx
  obtain ⟨node, hn⟩ := Option.isSome_iff_exists.mp ha.1
  have hk := kind?_of_node? hn
  refine isElement_iff.mpr ?_
  cases hkind : node.kind with
  | document =>
      rw [hkind] at hk
      have hroot := hw.document_eq x ha hk
      rw [hroot, hw.root_parent] at hx
      simp at hx
  | text data =>
      have ht : d.isText x := by simp [isText, hk, hkind, NodeKind.isText]
      have hm := hw.forest.mem_of_parent hc
      simp [links, hw.leaf x ha ht] at hm
  | element e => exact ⟨e, by rw [hk, hkind]⟩

end Kinds

namespace Retains

theorem refl (touched : NodeId → String → Prop) (d : Document) : Retains touched d d :=
  ⟨fun _ => id, fun _ => id, fun _ _ _ => id, fun _ _ _ _ => rfl⟩

theorem trans (h : Retains touched d d') (h' : Retains touched d' d'') :
    Retains touched d d'' where
  isElement e he := h.isElement e (h'.isElement e he)
  isContainer x hx := h.isContainer x (h'.isContainer x hx)
  parent? e p he hp := h.parent? e p (h'.isElement e he) (h'.parent? e p he hp)
  attribute? e name he hn :=
    (h'.attribute? e name he hn).trans (h.attribute? e name (h'.isElement e he) hn)

theorem mono (h : Retains touched d d') (hm : ∀ e name, touched e name → more e name) :
    Retains more d d' where
  isElement := h.isElement
  isContainer := h.isContainer
  parent? := h.parent?
  attribute? e name he hn := h.attribute? e name he fun ht => hn (hm e name ht)

theorem of_kind? (hk : ∀ x k, d'.kind? x = some k → k.isText = false → d.kind? x = some k)
    (hp : ∀ e p, d'.isElement e → d'.parent? e = some p → d.parent? e = some p) :
    Retains touched d d' where
  isElement e he := by
    obtain ⟨el, hel⟩ := isElement_iff.mp he
    exact isElement_iff.mpr ⟨el, hk e _ hel rfl⟩
  isContainer x hx := by
    obtain ⟨k, hkx, ht⟩ := isContainer_iff.mp hx
    exact isContainer_iff.mpr ⟨k, hk x k hkx ht, ht⟩
  parent? := hp
  attribute? e name he _ := by
    obtain ⟨el, hel⟩ := isElement_iff.mp he
    exact attribute?_congr (hel.trans (hk e _ hel rfl).symm) name

-- An element that is still below `root` was there before.
theorem mem_subtree (h : Retains touched d d') (hw : d.WellFormed) (hw' : d'.WellFormed)
    (he : d'.isElement e) (hm : e ∈ d'.subtree root) : e ∈ d.subtree root := by
  rw [mem_subtree_iff hw.forest]
  rw [mem_subtree_iff hw'.forest] at hm
  induction hm using Relation.ReflTransGen.head_induction_on with
  | refl => exact Links.Under.refl _ _
  | @head c q hp hu ih =>
      have hup : d.links.Under c q := Links.under_of_parent (h.parent? c q he hp)
      cases hq : d'.parent? q with
      | none =>
          have heq : q = root := Links.Under.eq_of_parent_none hu hq
          exact heq ▸ hup
      | some r => exact hup.trans (ih (hw'.isElement_of_parent hp hq))

end Retains

theorem WellFormed.retains_setText (hw : d.WellFormed) (id : NodeId) (text : String) :
    Retains touched d (Document.setText id text d).document := by
  rcases hw.setText_cases id text with ⟨-, he⟩ | ⟨node, target, -, -, hr, -⟩ |
    ⟨-, -, -, hr, -⟩
  · rw [he]
    exact .refl touched d
  · refine .of_kind? (fun x k hk ht => ?_) fun e p _ hp => ?_
    · rw [hr.kind?] at hk
      by_cases hx : x = target
      · rw [if_pos hx, Option.some.injEq] at hk
        simp [← hk, NodeKind.isText] at ht
      · rwa [if_neg hx] at hk
    · rwa [parent?_of_links hr.links] at hp
  · have hkind : ∀ x k, (Document.setText id text d).document.kind? x = some k →
        k.isText = false → x ∉ d.arrivals text ∧ d.kind? x = some k := by
      intro x k hk ht
      rw [hr.kind? x (hr.wellFormed.alive_of_kind? hk ht)] at hk
      by_cases hx : x ∈ d.arrivals text
      · rw [if_pos hx, Option.some.injEq] at hk
        simp [← hk, NodeKind.isText] at ht
      · exact ⟨hx, by rwa [if_neg hx] at hk⟩
    refine .of_kind? (fun x k hk ht => (hkind x k hk ht).2) fun e p he hp => ?_
    obtain ⟨el, hel⟩ := isElement_iff.mp he
    rw [hr.parent? e, if_neg (hkind e _ hel rfl).1] at hp
    split at hp
    · simp at hp
    · exact hp

section Attributes

theorem lookup_setEntry (name value n : String) (entries : List (String × String)) :
    (setEntry name value entries).lookup n =
      if n = name then some value else entries.lookup n := by
  induction entries with
  | nil =>
      by_cases hn : n = name
      · simp [setEntry, hn]
      · have hb : (n == name) = false := by simp [hn]
        simp [setEntry, List.lookup_cons, hn, hb]
  | cons entry rest ih =>
      obtain ⟨m, v⟩ := entry
      by_cases hm : m = name
      · by_cases hn : n = name
        · simp [setEntry, hm, hn]
        · have hb : (n == name) = false := by simp [hn]
          simp [setEntry, hm, hn, hb, List.lookup_cons]
      · by_cases hnm : n = m
        · subst hnm
          simp [setEntry, hm]
        · have hb : (n == m) = false := by simp [hnm]
          simp [setEntry, hm, List.lookup_cons, hb, ih]

theorem kind?_withAttributes {el : Element} (he : d.element? id = some el)
    (entries : List (String × String)) (x : NodeId) :
    (d.withAttributes id el entries).kind? x =
      if x = id then some (.element { el with attributes := entries }) else d.kind? x := by
  obtain ⟨node, hn, -⟩ := node?_of_element? he
  exact kind?_modifyKind (Option.isSome_iff_exists.mpr ⟨node, hn⟩) _ x

theorem links_withAttributes {el : Element} (entries : List (String × String)) :
    (d.withAttributes id el entries).links = d.links :=
  links_modifyKind _

theorem attribute?_setAttribute (hel : d.isElement id) (name value : String) (n : String) :
    (Document.setAttribute id name value d).document.attribute? id n =
      if n = name then some value else d.attribute? id n := by
  obtain ⟨el, hk⟩ := isElement_iff.mp hel
  have he := element?_of_kind? hk
  have hk' := kind?_withAttributes he (setEntry name value el.attributes) id
  rw [if_pos rfl] at hk'
  have hdoc : (Document.setAttribute id name value d).document =
      d.withAttributes id el (setEntry name value el.attributes) := by
    simp [Document.setAttribute, he]
  rw [hdoc]
  simp [attribute?, attributes, he, element?_of_kind? hk', lookup_setEntry]

theorem retains_setAttribute (id : NodeId) (name value : String) :
    Retains (fun e n => e = id ∧ n = name) d (Document.setAttribute id name value d).document := by
  cases he : d.element? id with
  | none =>
      have hdoc : (Document.setAttribute id name value d).document = d := by
        simp [Document.setAttribute, he]
      rw [hdoc]
      exact .refl _ d
  | some el =>
      obtain ⟨node, hn, hnk⟩ := node?_of_element? he
      have hk : d.kind? id = some (.element el) := by rw [kind?_of_node? hn, hnk]
      have hel : d.isElement id := isElement_iff.mpr ⟨el, hk⟩
      have hdoc : (Document.setAttribute id name value d).document =
          d.withAttributes id el (setEntry name value el.attributes) := by
        simp [Document.setAttribute, he]
      have hkind := kind?_withAttributes he (setEntry name value el.attributes)
      have hl : (Document.setAttribute id name value d).document.links = d.links := by
        rw [hdoc]
        exact links_withAttributes _
      rw [← hdoc] at hkind
      constructor
      · intro e h
        by_cases hx : e = id
        · exact hx ▸ hel
        · simpa [isElement, hkind, hx] using h
      · intro x h
        by_cases hx : x = id
        · exact hx ▸ isContainer_iff.mpr ⟨_, hk, rfl⟩
        · simpa [isContainer, hkind, hx] using h
      · intro e p _ hp
        rwa [parent?_of_links hl] at hp
      · intro e n _ ht
        by_cases hx : e = id
        · have hne : n ≠ name := fun hn => ht ⟨hx, hn⟩
          rw [hx, attribute?_setAttribute hel, if_neg hne]
        · exact attribute?_congr (by rw [hkind, if_neg hx]) n

end Attributes

section TextContent

variable {data : String}

theorem textContent_of_childless (hf : d.links.Forest) (hk : d.isContainer id)
    (hc : d.children id = []) : d.textContent id = "" := by
  obtain ⟨k, hk, ht⟩ := isContainer_iff.mp hk
  have hnil : d.descendants id = [] := by simp [descendants_eq hf, hc]
  cases k with
  | text data => simp [NodeKind.isText] at ht
  | document => simp [textContent, hk, hnil]
  | element el => simp [textContent, hk, hnil]

theorem textContent_of_only (hf : d.links.Forest) (hk : d.isContainer id)
    (hc : d.children id = [x]) (hx : d.kind? x = some (.text data)) (hxc : d.children x = []) :
    d.textContent id = data := by
  obtain ⟨k, hk, ht⟩ := isContainer_iff.mp hk
  have honly : d.descendants id = [x] := by
    simp [descendants_eq hf, hc, subtree, hxc]
  have hdata : d.textData? x = some data := by simp [textData?, hx]
  cases k with
  | text data => simp [NodeKind.isText] at ht
  | document => simp [textContent, hk, honly, hdata, String.join]
  | element el => simp [textContent, hk, honly, hdata, String.join]

-- A container shows the text that it was given.
theorem WellFormed.textContent_setText (hw : d.WellFormed) (hid : d.isContainer id)
    (text : String) : (Document.setText id text d).document.textContent id = text := by
  obtain ⟨k, hk, hkt⟩ := isContainer_iff.mp hid
  have ht : d.isText id = false := (isText_of_kind? hk).trans hkt
  rcases hw.setText_cases id text with ⟨hn, -⟩ | ⟨node, target, hn, htarget, hr, -⟩ |
    ⟨ha, -, -, hr, -⟩
  · simp [kind?_of_unknown hn] at hk
  · have hne : id ≠ target := by
      rintro rfl
      simp [hr.wasText] at ht
    have honly : d.children id = [target] := by
      rcases textTarget?_eq_some hn htarget with ⟨he, -⟩ | ⟨-, -, honly, -⟩
      · exact absurd he.symm hne
      · exact honly
    have hp : d.parent? target = some id :=
      hw.forest.parent_of_mem (by simp [links, honly])
    have hleaf := hw.leaf target (hw.alive_of_parent? hp).1 hr.wasText
    have hlinks := children_of_links hr.links
    refine textContent_of_only hr.wellFormed.forest ?_ ((hlinks id).trans honly) ?_
      ((hlinks target).trans hleaf)
    · exact isContainer_iff.mpr ⟨k, by rw [hr.kind?, if_neg hne, hk], hkt⟩
    · rw [hr.kind?, if_pos rfl]
  · have hid' : (Document.setText id text d).document.isContainer id := by
      have ha' : (Document.setText id text d).document.Alive id :=
        (hr.turnover.alive_iff id).mpr ⟨Or.inl ha, hw.not_mem_goneBelow id⟩
      refine isContainer_iff.mpr ⟨k, ?_, hkt⟩
      rw [hr.kind? id ha', if_neg (not_mem_arrivals ha text), hk]
    have hchildren := hr.children id
    rw [if_pos rfl] at hchildren
    by_cases htext : text = ""
    · have hnil : d.arrivals text = [] := if_pos htext
      rw [htext] at hnil hchildren hid' hr ⊢
      exact textContent_of_childless hr.wellFormed.forest hid' (hchildren.trans hnil)
    · have hnew : d.arrivals text = [d.nextId] := if_neg htext
      have hne : d.nextId ≠ id := by
        rintro he
        exact d.not_alive_nextId (he ▸ ha)
      have halive : (Document.setText id text d).document.Alive d.nextId := by
        refine (hr.turnover.alive_iff d.nextId).mpr ⟨Or.inr (by simp [hnew]), fun hm => ?_⟩
        exact d.not_alive_nextId (hw.alive_of_mem_goneBelow hm)
      refine textContent_of_only hr.wellFormed.forest hid' (hchildren.trans hnew) ?_ ?_
      · rw [hr.kind? _ halive, if_pos (by simp [hnew])]
      · rw [hr.children, if_neg hne, (unlinked_nextId hw.vacancies).2, ite_self]

end TextContent

end PageLocalizer.Document
