import Mathlib.Logic.Function.Basic
import PageLocalizer.Proofs.Document.Retention

-- Pages that differ in what they show only: in the attributes of their elements, and in the texts
-- that stand alone in an element. Elements stay where they are, while text nodes may be replaced.
namespace PageLocalizer.Document

-- Nothing but text nodes below `x`.
def HoldsText (d : Document) (x : NodeId) : Prop := ∀ t ∈ d.children x, d.isText t = true

-- The text that a node holds itself, without that of the elements in it.
def ownText (d : Document) (x : NodeId) : String :=
  String.join ((d.children x).filterMap d.textData?)

variable {d d' d'' : Document} {e x t p : NodeId} {v : String}

section Kinds

theorem isText_of_isContainer (h : d.isContainer x = true) : d.isText x = false := by
  obtain ⟨k, hk, ht⟩ := isContainer_iff.mp h
  exact (WellFormed.isText_of_kind? hk).trans ht

theorem isContainer_of_isElement (h : d.isElement x = true) : d.isContainer x = true := by
  obtain ⟨e, hk⟩ := isElement_iff.mp h
  exact isContainer_iff.mpr ⟨_, hk, rfl⟩

theorem isContainer_congr (h : d'.kind? x = d.kind? x) : d'.isContainer x = d.isContainer x := by
  simp [isContainer, h]

theorem isText_congr (h : d'.kind? x = d.kind? x) : d'.isText x = d.isText x := by
  simp [isText, h]

theorem WellFormed.alive_of_isContainer (hw : d.WellFormed) (h : d.isContainer x = true) :
    d.Alive x := by
  obtain ⟨k, hk, ht⟩ := isContainer_iff.mp h
  exact hw.alive_of_kind? hk ht

-- A child is a text node or an element.
theorem isContainer_of_parent (hp : d.parent? t = some p)
    (ht : d.isText t = false) : d.isContainer t = true := by
  obtain ⟨node, hn⟩ := Option.isSome_iff_exists.mp (isSome_of_parent? hp)
  have hk := kind?_of_node? hn
  refine isContainer_iff.mpr ⟨node.kind, hk, ?_⟩
  rwa [← WellFormed.isText_of_kind? hk]

theorem WellFormed.isElement_of_child (hw : d.WellFormed) (hp : d.parent? t = some p)
    (ht : d.isText t = false) : d.isElement t = true := by
  obtain ⟨k, hk, hkt⟩ := isContainer_iff.mp (isContainer_of_parent hp ht)
  cases k with
  | document =>
      have hroot := hw.document_eq t (hw.alive_of_parent? hp).1 hk
      simp [hroot, hw.root_parent] at hp
  | element e => exact isElement_iff.mpr ⟨e, hk⟩
  | text data => simp [NodeKind.isText] at hkt

theorem WellFormed.isContainer_of_mem_children (hw : d.WellFormed) (h : t ∈ d.children x) :
    d.isContainer x = true := by
  have ha := (hw.alive_of_parent? (hw.forest.parent_of_mem h)).2
  obtain ⟨node, hn⟩ := Option.isSome_iff_exists.mp ha.1
  have hk := kind?_of_node? hn
  refine isContainer_iff.mpr ⟨node.kind, hk, ?_⟩
  rw [← WellFormed.isText_of_kind? hk]
  by_contra htext
  rw [hw.leaf x ha (by simpa using htext)] at h
  simp at h

theorem WellFormed.children_of_not_isContainer (hw : d.WellFormed)
    (hx : ¬d.isContainer x = true) : d.children x = [] :=
  List.eq_nil_iff_forall_not_mem.mpr fun _ hc => hx (hw.isContainer_of_mem_children hc)

-- Where there are only text nodes, the text is theirs.
theorem WellFormed.textContent_of_texts (hw : d.WellFormed) (hx : d.isContainer x = true)
    (h : d.HoldsText x) : d.textContent x = d.ownText x := by
  have hleaf : ∀ t ∈ d.children x, d.subtree t = [t] := by
    intro t ht
    have hp := hw.forest.parent_of_mem ht
    have hnil := hw.leaf t (hw.alive_of_parent? hp).1 (h t ht)
    simp [subtree, descendants_eq hw.forest, hnil]
  have hdesc : d.descendants x = d.children x := by
    rw [descendants_eq hw.forest, List.flatMap_congr hleaf]
    simp
  obtain ⟨k, hk, hkt⟩ := isContainer_iff.mp hx
  cases k with
  | text data => simp [NodeKind.isText] at hkt
  | document => simp [textContent, ownText, hk, hdesc]
  | element e => simp [textContent, ownText, hk, hdesc]

theorem ownText_congr (hc : d'.children x = d.children x)
    (hk : ∀ t ∈ d.children x, d'.kind? t = d.kind? t) : d'.ownText x = d.ownText x := by
  unfold ownText
  rw [hc]
  congr 1
  refine List.filterMap_congr fun t ht => ?_
  simp [textData?, hk t ht]

-- The same text nodes with the same data.
theorem WellFormed.textContent_congr (hw : d.WellFormed) (hw' : d'.WellFormed)
    (hx : d.isContainer x = true) (hx' : d'.isContainer x = true) (h : d.HoldsText x)
    (hc : d'.children x = d.children x) (hk : ∀ t ∈ d.children x, d'.kind? t = d.kind? t) :
    d'.HoldsText x ∧ d'.textContent x = d.textContent x := by
  have h' : d'.HoldsText x := by
    intro t ht
    rw [hc] at ht
    rw [isText_congr (hk t ht)]
    exact h t ht
  refine ⟨h', ?_⟩
  rw [hw'.textContent_of_texts hx' h', hw.textContent_of_texts hx h, ownText_congr hc hk]

end Kinds

-- An element that holds nothing but text gets another text.
structure Retexted (d : Document) (e : NodeId) (v : String) (d' : Document) : Prop where
  wellFormed : d'.WellFormed
  isContainer : ∀ x, d'.isContainer x = d.isContainer x
  kind? : ∀ x, d.isContainer x = true → d'.kind? x = d.kind? x
  children : ∀ x, d.isContainer x = true → x ≠ e → d'.children x = d.children x
  texts : ∀ x, x ≠ e → ∀ t ∈ d.children x, d'.kind? t = d.kind? t
  holdsText : d'.HoldsText e
  textContent : d'.textContent e = v

theorem Reworded.retexted (hr : d.Reworded t v d') (hf : d.links.Forest)
    (hc : d.children e = [t]) (hv : d'.textContent e = v) : d.Retexted e v d' := by
  have hkind : ∀ x, x ≠ t → d'.kind? x = d.kind? x := fun x hx => by rw [hr.kind?, if_neg hx]
  have hne : ∀ x, d.isContainer x = true → x ≠ t := by
    rintro x hx rfl
    have htext := hr.wasText
    simp [isText_of_isContainer hx] at htext
  constructor
  · exact hr.wellFormed
  · intro x
    by_cases hx : x = t
    · obtain ⟨data, hk⟩ := isText_iff.mp hr.wasText
      subst hx
      simp [Document.isContainer, hr.kind?, hk, NodeKind.isContainer]
    · exact isContainer_congr (hkind x hx)
  · exact fun x hx => hkind x (hne x hx)
  · exact fun x _ _ => children_of_links hr.links x
  · intro x hxe y hy
    have hyt : y ≠ t := by
      rintro rfl
      have hm : y ∈ d.children e := by simp [hc]
      exact hxe (Option.some.inj ((hf.parent_of_mem hy).symm.trans (hf.parent_of_mem hm)))
    exact hkind y hyt
  · intro y hy
    have hsame : d'.children e = d.children e := children_of_links hr.links e
    rw [hsame, hc, List.mem_singleton] at hy
    simp [hy, isText, hr.kind?, NodeKind.isText]
  · exact hv

-- The text nodes that made room are gone, and nobody else is.
theorem Refilled.retexted (hr : d.Refilled e v d') (hw : d.WellFormed) (h : d.HoldsText e)
    (hv : d'.textContent e = v) : d.Retexted e v d' := by
  have hgone : ∀ x ∈ d.goneBelow e, x ∈ d.children e := by
    intro x hx
    obtain ⟨c, hc, hu⟩ := hw.under_of_mem_goneBelow hx
    have hp := hw.forest.parent_of_mem hc
    have hnil := hw.leaf c (hw.alive_of_parent? hp).1 (h c hc)
    exact hw.forest.eq_of_children_nil hu hnil ▸ hc
  have hcontainer : ∀ x, d.isContainer x = true → x ∉ d.goneBelow e := by
    intro x hx hg
    have ht := h x (hgone x hg)
    simp [isText_of_isContainer hx] at ht
  have halive : ∀ x, d.Alive x → x ∉ d.goneBelow e → d'.Alive x := fun x hx hg =>
    (hr.turnover.alive_iff x).mpr ⟨Or.inl hx, hg⟩
  have hkind : ∀ x, d.Alive x → x ∉ d.goneBelow e → d'.kind? x = d.kind? x := fun x hx hg => by
    rw [hr.kind? x (halive x hx hg), if_neg (WellFormed.not_mem_arrivals hx v)]
  constructor
  · exact hr.wellFormed
  · intro x
    rw [Bool.eq_iff_iff]
    constructor
    · intro hx
      have ha' := hr.wellFormed.alive_of_isContainer hx
      have hk := hr.kind? x ha'
      split at hk
      · obtain ⟨k, hk', ht⟩ := isContainer_iff.mp hx
        rw [hk, Option.some.injEq] at hk'
        simp [← hk', NodeKind.isText] at ht
      · rwa [← isContainer_congr hk]
    · intro hx
      rwa [isContainer_congr (hkind x (hw.alive_of_isContainer hx) (hcontainer x hx))]
  · exact fun x hx => hkind x (hw.alive_of_isContainer hx) (hcontainer x hx)
  · intro x hx hxe
    rw [hr.children, if_neg hxe, if_neg (hcontainer x hx)]
  · intro x hxe y hy
    have hp := hw.forest.parent_of_mem hy
    refine hkind y (hw.alive_of_parent? hp).1 fun hg => ?_
    exact hxe (Option.some.inj (hp.symm.trans (hw.forest.parent_of_mem (hgone y hg))))
  · intro y hy
    rw [hr.children, if_pos rfl] at hy
    have ha' : d'.Alive y := by
      refine (hr.turnover.alive_iff y).mpr ⟨Or.inr hy, fun hg => ?_⟩
      exact WellFormed.not_mem_arrivals (hw.alive_of_mem_goneBelow hg) v hy
    simp [isText, hr.kind? y ha', hy, NodeKind.isText]
  · exact hv

theorem WellFormed.retexted_setText (hw : d.WellFormed) (hcon : d.isContainer e = true)
    (h : d.HoldsText e) (v : String) : d.Retexted e v (Document.setText e v d).document := by
  have hv := hw.textContent_setText hcon v
  rcases hw.setText_cases e v with ⟨hn, -⟩ | ⟨node, t, hn, htarget, hr, -⟩ | ⟨-, -, -, hr, -⟩
  · obtain ⟨k, hk, -⟩ := isContainer_iff.mp hcon
    simp [kind?_of_unknown hn] at hk
  · refine hr.retexted hw.forest ?_ hv
    rcases textTarget?_eq_some hn htarget with ⟨-, ht⟩ | ⟨-, -, honly, -⟩
    · simp [isText_of_isContainer hcon] at ht
    · exact honly
  · exact hr.retexted hw h hv

-- `style` gives the attributes of each element. `words` gives the new text of those that get one.
-- They hold nothing but text, before and after.
structure Redrawn (d : Document) (style : NodeId → List (String × String))
    (words : NodeId → Option String) (d' : Document) : Prop where
  wellFormed : d'.WellFormed
  isContainer : ∀ x, d'.isContainer x = d.isContainer x
  element : ∀ x e, d.kind? x = some (.element e) →
    d'.kind? x = some (.element { e with attributes := style x })
  kept : ∀ x, d.isContainer x = true → words x = none → d'.children x = d.children x ∧
    ∀ t ∈ d.children x, d.isText t = true → d'.kind? t = d.kind? t
  worded : ∀ x v, d.isContainer x = true → words x = some v →
    d.HoldsText x ∧ d'.HoldsText x ∧ d'.textContent x = v

-- Who goes up in one page goes up in the other, for as long as he comes by places where the two
-- have the same parents.
private theorem under_of_steps {way : NodeId → Prop} {a : NodeId}
    (hstep : ∀ c q, way c → d.parent? c = some q → d'.parent? c = some q ∧ way q) (hx : way x)
    (hu : d.links.Under x a) : d'.links.Under x a := by
  induction hu using Relation.ReflTransGen.head_induction_on with
  | refl => exact .refl _ a
  | @head c q hp _ ih =>
      obtain ⟨hp', hq⟩ := hstep c q hx hp
      exact (Links.under_of_parent hp').trans (ih hq)

namespace Redrawn

variable {style more : NodeId → List (String × String)} {words others : NodeId → Option String}

theorem refl (hw : d.WellFormed) : Redrawn d d.attributes (fun _ => none) d where
  wellFormed := hw
  isContainer _ := rfl
  element x e hk := by simp [attributes, element?, hk]
  kept _ _ _ := ⟨rfl, fun _ _ _ => rfl⟩
  worded _ _ _ h := by simp at h

theorem isElement (h : Redrawn d style words d') (hw : d.WellFormed) (x : NodeId) :
    d'.isElement x = d.isElement x := by
  rw [Bool.eq_iff_iff]
  constructor
  · intro hx
    have hcon := (h.isContainer x).symm.trans (isContainer_of_isElement hx)
    obtain ⟨k, hk, hkt⟩ := isContainer_iff.mp hcon
    cases k with
    | text data => simp [NodeKind.isText] at hkt
    | element e => exact isElement_iff.mpr ⟨e, hk⟩
    | document =>
        rw [hw.document_eq x (hw.alive_of_isContainer hcon) hk] at hx
        obtain ⟨e, he⟩ := isElement_iff.mp hx
        simp [h.wellFormed.root_kind] at he
  · intro hx
    obtain ⟨e, hk⟩ := isElement_iff.mp hx
    exact isElement_iff.mpr ⟨_, h.element x e hk⟩

theorem document (h : Redrawn d style words d') (hw : d.WellFormed)
    (hk : d.kind? x = some .document) : d'.kind? x = some .document := by
  rw [hw.document_eq x (hw.alive_of_kind? hk rfl) hk]
  exact h.wellFormed.root_kind

theorem attributes (h : Redrawn d style words d') (hx : d.isElement x = true) :
    d'.attributes x = style x := by
  obtain ⟨e, hk⟩ := isElement_iff.mp hx
  simp [Document.attributes, element?, h.element x e hk]

-- Containers have the same containers below them.
theorem mem_children (h : Redrawn d style words d') (hw : d.WellFormed)
    (hx : d.isContainer x = true) : x ∈ d'.children p ↔ x ∈ d.children p := by
  have hx' : d'.isContainer x = true := (h.isContainer x).trans hx
  by_cases hp : d.isContainer p = true
  · cases hn : words p with
    | none => rw [(h.kept p hp hn).1]
    | some v =>
        -- There is only text, now as before.
        obtain ⟨htext, htext', -⟩ := h.worded p v hp hn
        constructor
        · intro hm
          have ht := htext' x hm
          simp [isText_of_isContainer hx'] at ht
        · intro hm
          have ht := htext x hm
          simp [isText_of_isContainer hx] at ht
  · constructor
    · intro hm
      have hp' := h.wellFormed.isContainer_of_mem_children hm
      rw [h.isContainer] at hp'
      exact absurd hp' hp
    · exact fun hm => absurd (hw.isContainer_of_mem_children hm) hp

theorem parent? (h : Redrawn d style words d') (hw : d.WellFormed) (hx : d.isContainer x = true) :
    d'.parent? x = some p ↔ d.parent? x = some p := by
  calc d'.parent? x = some p ↔ x ∈ d'.children p := (h.wellFormed.forest.mem_children p x).symm
    _ ↔ x ∈ d.children p := h.mem_children hw hx
    _ ↔ d.parent? x = some p := hw.forest.mem_children p x

theorem under_iff (h : Redrawn d style words d') (hw : d.WellFormed) {a : NodeId}
    (hx : d.isContainer x = true) : d'.links.Under x a ↔ d.links.Under x a := by
  have hup : ∀ {c q}, d.parent? c = some q → d.isContainer q = true := fun hp =>
    hw.isContainer_of_mem_children (hw.forest.mem_of_parent hp)
  have hback : ∀ c q, d.isContainer c = true → d'.parent? c = some q →
      d.parent? c = some q ∧ d.isContainer q = true := by
    intro c q hc hp
    have hp' := (h.parent? hw hc).mp hp
    exact ⟨hp', hup hp'⟩
  have hforth : ∀ c q, d.isContainer c = true → d.parent? c = some q →
      d'.parent? c = some q ∧ d.isContainer q = true := fun _ _ hc hp =>
    ⟨(h.parent? hw hc).mpr hp, hup hp⟩
  exact ⟨under_of_steps hback hx, under_of_steps hforth hx⟩

theorem mem_subtree (h : Redrawn d style words d') (hw : d.WellFormed) {a : NodeId}
    (hx : d.isContainer x = true) : x ∈ d'.subtree a ↔ x ∈ d.subtree a := by
  calc x ∈ d'.subtree a ↔ d'.links.Under x a := mem_subtree_iff h.wellFormed.forest
    _ ↔ d.links.Under x a := h.under_iff hw hx
    _ ↔ x ∈ d.subtree a := (mem_subtree_iff hw.forest).symm

-- A text that stands alone is kept with its text nodes, or it is given anew.
theorem text (h : Redrawn d style words d') (hw : d.WellFormed) (hx : d.isContainer x = true)
    (ht : d.HoldsText x) :
    d'.HoldsText x ∧ d'.textContent x = (words x).getD (d.textContent x) := by
  cases hn : words x with
  | some v => exact (h.worded x v hx hn).2
  | none =>
      obtain ⟨hc, hk⟩ := h.kept x hx hn
      exact hw.textContent_congr h.wellFormed hx ((h.isContainer x).trans hx) ht hc
        fun t hm => hk t hm (ht t hm)

theorem holdsText_iff (h : Redrawn d style words d') (hw : d.WellFormed)
    (hx : d.isContainer x = true) : d'.HoldsText x ↔ d.HoldsText x := by
  refine ⟨fun ht t hm => ?_, fun ht => (h.text hw hx ht).1⟩
  cases hn : words x with
  | some v => exact (h.worded x v hx hn).1 t hm
  | none =>
      by_contra htext
      have hp := hw.forest.parent_of_mem hm
      have hcon := isContainer_of_parent hp (by simpa using htext)
      have ht' := ht t ((h.mem_children hw hcon).mpr hm)
      rw [← h.isContainer] at hcon
      simp [isText_of_isContainer hcon] at ht'

-- Only what is said of elements and containers matters.
theorem congr (h : Redrawn d style words d') (hs : ∀ x, d.isElement x = true → more x = style x)
    (hn : ∀ x, d.isContainer x = true → others x = words x) : Redrawn d more others d' where
  wellFormed := h.wellFormed
  isContainer := h.isContainer
  element x e hk := by
    rw [hs x (isElement_iff.mpr ⟨e, hk⟩)]
    exact h.element x e hk
  kept x hx hnone := h.kept x hx ((hn x hx).symm.trans hnone)
  worded x v hx hsome := h.worded x v hx ((hn x hx).symm.trans hsome)

-- What is drawn twice looks as it was drawn last, if nothing is left out then.
theorem trans (h : Redrawn d style words d') (h' : Redrawn d' more others d'')
    (hw : d.WellFormed) (hn : ∀ x, d.isContainer x = true → others x = none → words x = none) :
    Redrawn d more others d'' where
  wellFormed := h'.wellFormed
  isContainer x := (h'.isContainer x).trans (h.isContainer x)
  element x e hk := by
    have hk' := h'.element x _ (h.element x e hk)
    exact hk'
  kept x hx hnone := by
    have hx' : d'.isContainer x = true := (h.isContainer x).trans hx
    obtain ⟨hc, hk⟩ := h.kept x hx (hn x hx hnone)
    obtain ⟨hc', hk'⟩ := h'.kept x hx' hnone
    refine ⟨hc'.trans hc, fun t hm ht => ?_⟩
    have hkt := hk t hm ht
    calc d''.kind? t = d'.kind? t := hk' t (hc ▸ hm) ((isText_congr hkt).trans ht)
      _ = d.kind? t := hkt
  worded x v hx hsome := by
    have hx' : d'.isContainer x = true := (h.isContainer x).trans hx
    obtain ⟨ht', hlast⟩ := h'.worded x v hx' hsome
    exact ⟨(h.holdsText_iff hw hx).mp ht', hlast⟩

section Steps

variable (h : Redrawn d style words d') (hw : d.WellFormed)

include h hw

-- A text that is there already counts as drawn.
theorem setSame (hx : d.isContainer e = true) (ht : d.HoldsText e) :
    Redrawn d style (Function.update words e (some (d'.textContent e))) d' where
  wellFormed := h.wellFormed
  isContainer := h.isContainer
  element := h.element
  kept x hxc hnone := by
    by_cases hxe : x = e
    · simp [hxe] at hnone
    · exact h.kept x hxc (by simpa [hxe] using hnone)
  worded x v hxc hsome := by
    by_cases hxe : x = e
    · subst hxe
      have hv : d'.textContent x = v := by simpa using hsome
      exact ⟨ht, (h.text hw hx ht).1, hv⟩
    · exact h.worded x v hxc (by simpa [hxe] using hsome)

theorem setText (hx : d.isContainer e = true) (ht : d.HoldsText e) (v : String) :
    Redrawn d style (Function.update words e (some v)) (Document.setText e v d').document := by
  have hx' : ∀ {x}, d.isContainer x = true → d'.isContainer x = true := fun hx =>
    (h.isContainer _).trans hx
  have hr := h.wellFormed.retexted_setText (hx' hx) ((h.text hw hx ht).1) v
  constructor
  · exact hr.wellFormed
  · exact fun x => (hr.isContainer x).trans (h.isContainer x)
  · intro x el hk
    have hk' := h.element x el hk
    rw [hr.kind? x (isContainer_iff.mpr ⟨_, hk', rfl⟩), hk']
  · intro x hxc hnone
    by_cases hxe : x = e
    · simp [hxe] at hnone
    · obtain ⟨hc, hk⟩ := h.kept x hxc (by simpa [hxe] using hnone)
      refine ⟨(hr.children x (hx' hxc) hxe).trans hc, fun t hm htext => ?_⟩
      exact (hr.texts x hxe t (hc ▸ hm)).trans (hk t hm htext)
  · intro x u hxc hsome
    by_cases hxe : x = e
    · subst hxe
      have hu : v = u := by simpa using hsome
      exact ⟨ht, hr.holdsText, hu ▸ hr.textContent⟩
    · obtain ⟨hd, hd', hu⟩ := h.worded x u hxc (by simpa [hxe] using hsome)
      obtain ⟨hkeep, hsame⟩ := h.wellFormed.textContent_congr hr.wellFormed (hx' hxc)
        ((hr.isContainer x).trans (hx' hxc)) hd' (hr.children x (hx' hxc) hxe) (hr.texts x hxe)
      exact ⟨hd, hkeep, hsame.trans hu⟩

end Steps

theorem setAttribute (h : Redrawn d style words d') (hel : d.isElement e = true)
    (name v : String) :
    Redrawn d (Function.update style e (setEntry name v (style e))) words
      (Document.setAttribute e name v d').document := by
  obtain ⟨el, hk⟩ := isElement_iff.mp hel
  have hk' := h.element e el hk
  have he := element?_of_kind? hk'
  have hdoc : (Document.setAttribute e name v d').document =
      d'.withAttributes e { el with attributes := style e } (setEntry name v (style e)) := by
    simp [Document.setAttribute, he]
  have hkind := kind?_withAttributes he (setEntry name v (style e))
  have hlinks : (Document.setAttribute e name v d').document.links = d'.links := by
    rw [hdoc]
    exact links_withAttributes _
  have hchildren : ∀ x, (Document.setAttribute e name v d').document.children x = d'.children x :=
    children_of_links hlinks
  rw [← hdoc] at hkind
  have hother : ∀ x, x ≠ e → (Document.setAttribute e name v d').document.kind? x = d'.kind? x :=
    fun x hx => by rw [hkind, if_neg hx]
  have htext : ∀ x, d'.isText x = true → x ≠ e := by
    rintro x hx rfl
    simp [isText, hk', NodeKind.isText] at hx
  have hwf := (h.wellFormed.setAttribute e name v).1
  have hcon : ∀ x, (Document.setAttribute e name v d').document.isContainer x =
      d'.isContainer x := by
    intro x
    by_cases hx : x = e
    · simp [hx, Document.isContainer, hkind, hk', NodeKind.isContainer]
    · exact isContainer_congr (hother x hx)
  constructor
  · exact hwf
  · exact fun x => (hcon x).trans (h.isContainer x)
  · intro x el' hkx
    by_cases hx : x = e
    · subst hx
      have hel' : el = el' := by simpa [hk] using hkx
      simp [hkind, hel']
    · rw [hother x hx, h.element x el' hkx]
      simp [hx]
  · intro x hxc hnone
    obtain ⟨hc, hkeep⟩ := h.kept x hxc hnone
    refine ⟨(hchildren x).trans hc, fun t hm ht => ?_⟩
    have hkt := hkeep t hm ht
    rw [hother t (htext t ((isText_congr hkt).trans ht)), hkt]
  · intro x u hxc hsome
    obtain ⟨hd, hd', hu⟩ := h.worded x u hxc hsome
    have hx' : d'.isContainer x = true := (h.isContainer x).trans hxc
    obtain ⟨hkeep, hsame⟩ := h.wellFormed.textContent_congr hwf hx' ((hcon x).trans hx') hd'
      (hchildren x) fun t hm => hother t (htext t (hd' t hm))
    exact ⟨hd, hkeep, hsame.trans hu⟩

end Redrawn

end PageLocalizer.Document
