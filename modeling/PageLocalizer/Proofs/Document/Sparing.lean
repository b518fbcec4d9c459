import PageLocalizer.Proofs.Document.Redrawing

-- Edits that rewrite the texts of some nodes, and attributes, and spare all that is not below one
-- of these nodes.
namespace PageLocalizer

-- The same node, but for those attributes of an element that are told of.
inductive NodeKind.SameBut (restyled : String → Bool) : NodeKind → NodeKind → Prop where
  | refl (kind : NodeKind) : SameBut restyled kind kind
  | element {e : Element} {attributes : List (String × String)} :
      (attributes.filter fun entry => !restyled entry.1) =
        (e.attributes.filter fun entry => !restyled entry.1) →
      SameBut restyled (.element e) (.element { e with attributes })

namespace Document

variable {d d' : Document} {id n p x : NodeId} {name value text : String}
  {hosts : NodeId → Prop} {restyled : NodeId → String → Bool}

section Entries

variable {touched : String → Bool} {entries others : List (String × String)}

private theorem filter_setEntry (h : touched name = true) (value : String)
    (entries : List (String × String)) :
    (setEntry name value entries).filter (fun entry => !touched entry.1) =
      entries.filter fun entry => !touched entry.1 := by
  induction entries with
  | nil => simp [setEntry, h]
  | cons entry rest ih =>
      obtain ⟨other, held⟩ := entry
      unfold setEntry
      split
      · next heq =>
          subst heq
          simp [h]
      · simp only [List.filter_cons, ih]

theorem lookup_filter (h : touched name = false) (entries : List (String × String)) :
    (entries.filter fun entry => !touched entry.1).lookup name = entries.lookup name := by
  induction entries with
  | nil => rfl
  | cons entry rest ih =>
      obtain ⟨other, held⟩ := entry
      by_cases hname : name = other
      · subst hname
        simp [h]
      · have hb : (name == other) = false := by simp [hname]
        simp only [List.filter_cons]
        split <;> simp [List.lookup_cons, hb, ih]

end Entries

-- The node is there, and it is no part of what one of the hosts holds.
def Spared (d : Document) (hosts : NodeId → Prop) (n : NodeId) : Prop :=
  d.Alive n ∧ ∀ e, hosts e → d.links.Under n e → n = e

-- Whatever is spared is where it was and what it was, and hosts may hold something else.
structure Spares (hosts : NodeId → Prop) (restyled : NodeId → String → Bool) (d d' : Document) :
    Prop where
  wellFormed : d'.WellFormed
  alive : ∀ n, d.Spared hosts n → d'.Alive n
  parent? : ∀ n, d.Spared hosts n → d'.parent? n = d.parent? n
  children : ∀ n, d.Spared hosts n → ¬hosts n → d'.children n = d.children n
  kind? : ∀ n, d.Spared hosts n → ∃ kind kind', d.kind? n = some kind ∧ d'.kind? n = some kind' ∧
    kind.SameBut (restyled n) kind'

theorem Spared.parent (h : d.Spared hosts n) (hw : d.WellFormed) (hp : d.parent? n = some p) :
    d.Spared hosts p := by
  refine ⟨(hw.alive_of_parent? hp).2, fun e he hu => ?_⟩
  have heq : n = e := h.2 e he ((Links.under_of_parent hp).trans hu)
  exact absurd (heq ▸ hu) (hw.forest.not_under_of_parent hp)

namespace Spares

theorem refl (hw : d.WellFormed) : Spares hosts restyled d d where
  wellFormed := hw
  alive _ h := h.1
  parent? _ _ := rfl
  children _ _ _ := rfl
  kind? n h := by
    obtain ⟨node, hn⟩ := Option.isSome_iff_exists.mp h.1.1
    exact ⟨node.kind, node.kind, kind?_of_node? hn, kind?_of_node? hn, .refl _⟩

variable (h : Spares hosts restyled d d') (hw : d.WellFormed)

include h

theorem isText (hn : d.Spared hosts n) : d'.isText n = d.isText n := by
  obtain ⟨kind, kind', hk, hk', hsame⟩ := h.kind? n hn
  rw [Document.isText, Document.isText, hk, hk']
  cases hsame <;> rfl

theorem attribute? (hn : d.Spared hosts n) (hname : restyled n name = false) :
    d'.attribute? n name = d.attribute? n name := by
  obtain ⟨kind, kind', hk, hk', hsame⟩ := h.kind? n hn
  cases hsame with
  | refl => exact attribute?_congr (hk'.trans hk.symm) name
  | element hattributes =>
      have hlookup := congrArg (List.lookup name) hattributes
      rw [lookup_filter hname, lookup_filter hname] at hlookup
      simpa [Document.attribute?, attributes, element?, hk, hk'] using hlookup

include hw

-- All that is above a spared node is spared, and it is what was above that node before.
theorem under (hn : d.Spared hosts n) (hu : d'.links.Under n x) :
    d.Spared hosts x ∧ d.links.Under n x := by
  induction hu using Relation.ReflTransGen.head_induction_on with
  | refl => exact ⟨hn, Links.Under.refl _ x⟩
  | @head c q hp _ ih =>
      have hp' : d.parent? c = some q := (h.parent? c hn).symm.trans hp
      obtain ⟨hx, hu⟩ := ih (hn.parent hw hp')
      exact ⟨hx, (Links.under_of_parent hp').trans hu⟩

-- What a host holds by now is not spared.
theorem eq_of_under (hn : d.Spared hosts n) (hid : d.Spared hosts id → hosts id)
    (hu : d'.links.Under n id) : n = id := by
  obtain ⟨hspared, hu⟩ := h.under hw hn hu
  exact hn.2 id (hid hspared) hu

private theorem reworded {d'' : Document} {target : NodeId} (hr : d'.Reworded target text d'')
    (hu : d'.links.Under target id) (hid : d.Spared hosts id → hosts id ∧ d.isText id = false) :
    Spares hosts restyled d d'' := by
  have hne : ∀ n, d.Spared hosts n → n ≠ target := by
    rintro n hn rfl
    have heq := h.eq_of_under hw hn (fun hs => (hid hs).1) hu
    have htext := hr.wasText
    rw [h.isText hn, heq, (hid (heq ▸ hn)).2] at htext
    exact Bool.false_ne_true htext
  refine ⟨hr.wellFormed, fun n hn => ?_, fun n hn => ?_, fun n hn hhost => ?_, fun n hn => ?_⟩
  · exact (hr.sameTenants.alive_iff n).mpr (h.alive n hn)
  · exact (parent?_of_links hr.links n).trans (h.parent? n hn)
  · exact (children_of_links hr.links n).trans (h.children n hn hhost)
  · rw [hr.kind?, if_neg (hne n hn)]
    exact h.kind? n hn

theorem refilled {d'' : Document} (hr : d'.Refilled id text d'')
    (hid : d.Spared hosts id → hosts id) : Spares hosts restyled d d'' := by
  have hw' := h.wellFormed
  have hproper : ∀ n c, d.Spared hosts n → c ∈ d'.children id → ¬d'.links.Under n c := by
    intro n c hn hc hu
    have hp := hw'.forest.parent_of_mem hc
    have heq := h.eq_of_under hw hn hid (hu.trans (Links.under_of_parent hp))
    exact hw'.forest.not_under_of_parent hp (heq ▸ hu)
  have hgone : ∀ n, d.Spared hosts n → n ∉ d'.goneBelow id := by
    intro n hn hm
    obtain ⟨c, hc, hu⟩ := hw'.under_of_mem_goneBelow hm
    exact hproper n c hn hc hu
  have hchild : ∀ n, d.Spared hosts n → n ∉ d'.children id := fun n hn hm =>
    hproper n n hn hm (Links.Under.refl _ n)
  have hnew : ∀ n, d.Spared hosts n → n ∉ d'.arrivals text := fun n hn =>
    WellFormed.not_mem_arrivals (h.alive n hn) text
  have halive : ∀ n, d.Spared hosts n → d''.Alive n := fun n hn =>
    (hr.turnover.alive_iff n).mpr ⟨.inl (h.alive n hn), hgone n hn⟩
  refine ⟨hr.wellFormed, halive, fun n hn => ?_, fun n hn hhost => ?_, fun n hn => ?_⟩
  · rw [hr.parent?, if_neg (hnew n hn), if_neg (not_or.mpr ⟨hchild n hn, hgone n hn⟩),
      h.parent? n hn]
  · have hne : n ≠ id := by
      rintro rfl
      exact hhost (hid hn)
    rw [hr.children, if_neg hne, if_neg (hgone n hn), h.children n hn hhost]
  · rw [hr.kind? n (halive n hn), if_neg (hnew n hn)]
    exact h.kind? n hn

end Spares

-- A text goes to the node itself or to its only child.
theorem under_of_textTarget? (hf : d.links.Forest) {node : Slot} {target : NodeId}
    (hn : d.node? id = some node) (h : d.textTarget? id node text = some target) :
    d.links.Under target id := by
  rcases textTarget?_eq_some hn h with ⟨rfl, -⟩ | ⟨-, -, honly, -⟩
  · exact Links.Under.refl _ target
  · exact Links.under_of_parent (hf.parent_of_mem (by simp [links, honly]))

namespace Spares

variable (h : Spares hosts restyled d d') (hw : d.WellFormed)

include h hw

theorem setText (hid : d.Spared hosts id → hosts id ∧ d.isText id = false) (text : String) :
    Spares hosts restyled d (Document.setText id text d').document := by
  have hw' := h.wellFormed
  rcases hw'.setText_cases id text with ⟨-, he⟩ | ⟨node, target, hn, htarget, hr, -⟩ |
    ⟨-, -, -, hr, -⟩
  · rw [he]
    exact h
  · exact h.reworded hw hr (under_of_textTarget? hw'.forest hn htarget) hid
  · exact h.refilled hw hr fun hs => (hid hs).1

omit hw

theorem setAttribute (hid : d.Spared hosts id → restyled id name = true) (value : String) :
    Spares hosts restyled d (Document.setAttribute id name value d').document := by
  obtain ⟨hw', hsame⟩ := h.wellFormed.setAttribute id name value
  cases he : d'.element? id with
  | none =>
      have hdoc : (Document.setAttribute id name value d').document = d' := by
        simp [Document.setAttribute, he]
      rw [hdoc]
      exact h
  | some e =>
      have hdoc : (Document.setAttribute id name value d').document =
          d'.withAttributes id e (setEntry name value e.attributes) := by
        simp [Document.setAttribute, he]
      have hlinks : (Document.setAttribute id name value d').document.links = d'.links := by
        rw [hdoc]
        exact links_withAttributes _
      have hkind := kind?_withAttributes he (setEntry name value e.attributes)
      rw [← hdoc] at hkind
      refine ⟨hw', fun n hn => ?_, fun n hn => ?_, fun n hn hhost => ?_, fun n hn => ?_⟩
      · exact (hsame.alive_iff n).mpr (h.alive n hn)
      · exact (parent?_of_links hlinks n).trans (h.parent? n hn)
      · exact (children_of_links hlinks n).trans (h.children n hn hhost)
      · obtain ⟨kind, kind', hk, hk', hbut⟩ := h.kind? n hn
        rw [hkind]
        split
        · next heq =>
            subst heq
            obtain ⟨node, hnode, hnk⟩ := node?_of_element? he
            have hsome : some kind' = some (NodeKind.element e) :=
              calc some kind' = d'.kind? _ := hk'.symm
                _ = some node.kind := kind?_of_node? hnode
                _ = some (.element e) := congrArg some hnk
            obtain rfl : kind' = .element e := Option.some.inj hsome
            have hfilter := filter_setEntry (hid hn) value e.attributes
            cases hbut with
            | refl => exact ⟨_, _, hk, rfl, .element hfilter⟩
            | element hattributes => exact ⟨_, _, hk, rfl, .element (hfilter.trans hattributes)⟩
        · exact ⟨kind, kind', hk, hk', hbut⟩

end Spares

end Document
end PageLocalizer
