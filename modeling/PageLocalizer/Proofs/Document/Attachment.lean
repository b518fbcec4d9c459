import PageLocalizer.Proofs.Document.Account
import PageLocalizer.Proofs.Document.Redrawing

-- The tree of the page among all its nodes, and edits from outside that touch it in one place at
-- most.
namespace PageLocalizer.Document

open Links

-- A node of the tree that the page shows.
def Attached (d : Document) (x : NodeId) : Prop := d.contains root x = true

instance (d : Document) (x : NodeId) : Decidable (d.Attached x) :=
  inferInstanceAs (Decidable (_ = _))

-- The tree is the same. What is detached may have changed.
structure SameTree (d d' : Document) : Prop where
  wellFormed : d'.WellFormed
  children : ∀ x, d.Attached x → d'.children x = d.children x
  kind? : ∀ x, d.Attached x → d'.kind? x = d.kind? x

-- The nodes that every page starts with are where they were.
structure InPlace (d : Document) : Prop where
  htmlParent : d.parent? html = some root
  headParent : d.parent? head = some html
  titleParent : d.parent? title = some head
  bodyParent : d.parent? body = some html

def fixtures : List NodeId := [html, head, title, body]

variable {d d' d'' seen : Document} {x a b p parent child : NodeId} {w : Write} {ws : List Write}
  {changes : List Change}

section Attached

theorem attached_iff (hw : d.WellFormed) : d.Attached x ↔ d.links.Under x root :=
  contains_iff hw.forest root x

theorem attached_root (hw : d.WellFormed) : d.Attached root := (attached_iff hw).mpr (.refl _ root)

theorem attached_of_parent (hw : d.WellFormed) (hp : d.parent? x = some p) :
    d.Attached x ↔ d.Attached p := by
  rw [attached_iff hw, attached_iff hw]
  constructor
  · intro hu
    obtain ⟨q, hq, hqr⟩ := hu.parent_of_ne fun hx => by
      simp [hx, hw.root_parent] at hp
    exact Option.some.inj (hp.symm.trans hq) ▸ hqr
  · exact fun hu => (under_of_parent hp).trans hu

theorem WellFormed.alive_of_attached (hw : d.WellFormed) (h : d.Attached x) : d.Alive x :=
  hw.alive_of_under ((attached_iff hw).mp h) (hw.skeleton_alive root (by simp [skeleton]))

-- Induction down the tree, from the root on to children.
theorem attached_induction (hw : d.WellFormed) {P : NodeId → Prop} (hroot : P root)
    (hstep : ∀ p x, d.Attached p → x ∈ d.children p → P p → P x) (hx : d.Attached x) : P x := by
  have hu := (attached_iff hw).mp hx
  induction hu using Relation.ReflTransGen.head_induction_on with
  | refl => exact hroot
  | @head y p hp hpr ih =>
      have hpa := (attached_iff hw).mpr hpr
      exact hstep p y hpa (hw.forest.mem_of_parent hp) (ih hpa)

theorem WellFormed.isContainer_of_under (hw : d.WellFormed) (hu : d.links.Under x a)
    (hx : d.isContainer x = true) : d.isContainer a = true := by
  rcases Relation.ReflTransGen.cases_tail hu with he | ⟨y, -, hp⟩
  · exact he ▸ hx
  · exact hw.isContainer_of_mem_children (hw.forest.mem_of_parent hp)

-- Going up in a tree that is part of both pages, one meets the same nodes in both.
theorem under_along {e : Document} (he : e.WellFormed) (hw : d.WellFormed) (hw' : d'.WellFormed)
    (h : ∀ p x, e.Attached p → x ∈ e.children p → x ∈ d.children p ∧ x ∈ d'.children p)
    (hx : e.Attached x) (hu : d.links.Under x b) : d'.links.Under x b := by
  refine attached_induction he (P := fun x => d.links.Under x b → d'.links.Under x b)
    (fun hu => ?_) (fun p x hp hx ih hu => ?_) hx hu
  · rw [hu.eq_of_parent_none hw.root_parent]
    exact .refl _ b
  · obtain ⟨hxd, hxd'⟩ := h p x hp hx
    by_cases hxb : x = b
    · exact hxb ▸ .refl _ x
    · obtain ⟨q, hq, hqb⟩ := hu.parent_of_ne hxb
      have hpq : q = p := Option.some.inj (hq.symm.trans (hw.forest.parent_of_mem hxd))
      exact (under_of_parent (hw'.forest.parent_of_mem hxd')).trans (ih (hpq ▸ hqb))

end Attached

namespace SameTree

theorem refl (hw : d.WellFormed) : SameTree d d := ⟨hw, fun _ _ => rfl, fun _ _ => rfl⟩

theorem under (h : SameTree d d') (hw : d.WellFormed) (hx : d.Attached x)
    (hu : d.links.Under x b) : d'.links.Under x b :=
  under_along hw hw h.wellFormed (fun p _ hp hx => ⟨hx, (h.children p hp).symm ▸ hx⟩) hx hu

theorem attached_iff (h : SameTree d d') (hw : d.WellFormed) : d'.Attached x ↔ d.Attached x := by
  constructor
  · intro hx
    refine attached_induction h.wellFormed (P := d.Attached) (attached_root hw)
      (fun p x _ hx hp => ?_) hx
    rw [h.children p hp] at hx
    exact (attached_of_parent hw (hw.forest.parent_of_mem hx)).mpr hp
  · intro hx
    exact (Document.attached_iff h.wellFormed).mpr
      (h.under hw hx ((Document.attached_iff hw).mp hx))

theorem trans (h : SameTree d d') (h' : SameTree d' d'') (hw : d.WellFormed) : SameTree d d'' where
  wellFormed := h'.wellFormed
  children x hx := (h'.children x ((h.attached_iff hw).mpr hx)).trans (h.children x hx)
  kind? x hx := (h'.kind? x ((h.attached_iff hw).mpr hx)).trans (h.kind? x hx)

end SameTree

section Account

theorem Quiet.sameTree (h : d.Quiet d') (hw : d.WellFormed) : SameTree d d' := by
  have hroot : ∀ {e : Document}, e.WellFormed → e.Alive root := fun he =>
    he.skeleton_alive root (by simp [skeleton])
  have halive : ∀ x, d.Attached x → d'.Alive x := by
    intro x hx
    have hu := (h.under_iff hw (hroot hw) (hroot h.wellFormed)).mpr ((attached_iff hw).mp hx)
    exact h.wellFormed.alive_of_under hu (hroot h.wellFormed)
  exact ⟨h.wellFormed, fun x hx => h.children x (hw.alive_of_attached hx) (halive x hx),
    fun x hx => h.kind? x (hw.alive_of_attached hx) (halive x hx)⟩

theorem Made.sameTree (h : Made d w d') (hw : d.WellFormed) (hout : ¬d.Attached w.target) :
    SameTree d d' := by
  have hne : ∀ x, d.Attached x → x ≠ w.target := fun x hx he => hout (he ▸ hx)
  refine ⟨h.wellFormed, fun x hx => ?_, fun x hx => ?_⟩
  · rw [h.children, Write.childrenAfter_of_ne (hne x hx)]
  · rw [h.kind? x (hw.alive_of_attached hx)]
    cases d.kind? x with
    | none => rfl
    | some kind => exact congrArg some (Write.kindAfter_of_ne (hne x hx) kind)

theorem Account.quiet (h : Account d [] changes d') : d.Quiet d' := by
  cases h with
  | done hq => exact hq

theorem Account.uncons (h : Account d (w :: ws) changes d') : ∃ seen rest,
    changes = ⟨w.record d, seen⟩ :: rest ∧ Made d w seen ∧ Account seen ws rest d' := by
  cases h with
  | write hm hrest => exact ⟨_, _, rfl, hm, hrest⟩

-- Writes to detached nodes leave the tree alone.
theorem Account.sameTree (h : Account d ws changes d') (hw : d.WellFormed)
    (hout : ∀ w ∈ ws, ¬d.Attached w.target) : SameTree d d' := by
  induction h with
  | done hq => exact hq.sameTree hw
  | @write d w seen ws changes d' hm _ ih =>
      have hfirst := hm.sameTree hw (hout w List.mem_cons_self)
      have hrest := ih hm.wellFormed fun w hws => by
        rw [hfirst.attached_iff hw]
        exact hout w (List.mem_cons_of_mem _ hws)
      exact hfirst.trans hrest hw

-- A text for a detached node is written below it.
theorem detached_of_textWrites (hw : d.WellFormed) {id : NodeId} (hid : ¬d.Attached id)
    (text : String) : ∀ w ∈ d.textWrites id text, ¬d.Attached w.target := by
  intro w hm
  unfold textWrites at hm
  split at hm
  · rw [List.mem_singleton.mp hm]
    exact hid
  · split at hm
    · split at hm
      · split at hm
        · simp at hm
        · rw [List.mem_singleton.mp hm]
          exact hid
      · rename_i only hc
        split at hm
        · rw [List.mem_singleton.mp hm]
          have hp : d.parent? only = some id := hw.forest.parent_of_mem (by simp [links, hc])
          exact fun ha => hid ((attached_of_parent hw hp).mp ha)
        · rw [List.mem_singleton.mp hm]
          exact hid
      · rw [List.mem_singleton.mp hm]
        exact hid
    · simp at hm

theorem detached_of_setAttribute {id : NodeId} {name value : String} (hid : ¬d.Attached id) :
    ∀ w ∈ (Operation.setAttribute id name value).writes d, ¬d.Attached w.target := by
  intro w hm
  simp only [Operation.writes] at hm
  split at hm
  · rwa [List.mem_singleton.mp hm]
  · simp at hm

theorem detached_of_removeAttribute {id : NodeId} {name : String} (hid : ¬d.Attached id) :
    ∀ w ∈ (Operation.removeAttribute id name).writes d, ¬d.Attached w.target := by
  intro w hm
  simp only [Operation.writes] at hm
  split at hm
  · rwa [List.mem_singleton.mp hm]
  · simp at hm

theorem sameTree_setText (hw : d.WellFormed) (hx : ¬d.Attached x) (text : String) :
    SameTree d (setText x text d).document := by
  rcases hw.setText_cases x text with ⟨-, he⟩ | ⟨node, target, hn, htarget, hr, -⟩ |
    ⟨ha, -, -, -, -⟩
  · rw [he]
    exact .refl hw
  · have hout := detached_of_textWrites hw hx text
    rw [textWrites_of_target hn htarget] at hout
    refine ⟨hr.wellFormed, fun y _ => children_of_links hr.links y, fun y hy => ?_⟩
    rw [hr.kind?, if_neg]
    rintro rfl
    exact hout _ (List.mem_singleton_self _) hy
  · exact (accounted_setText hw (fun _ => ha) text).account.sameTree hw
      (detached_of_textWrites hw hx text)

theorem sameTree_setAttribute (hw : d.WellFormed) (hx : ¬d.Attached x) (name value : String) :
    SameTree d (setAttribute x name value d).document :=
  (accounted_setAttribute hw x name value).account.sameTree hw (detached_of_setAttribute hx)

end Account

section InPlace

theorem InPlace.attached (h : d.InPlace) (hw : d.WellFormed) :
    d.Attached html ∧ d.Attached head ∧ d.Attached title ∧ d.Attached body := by
  have hhtml := (attached_of_parent hw h.htmlParent).mpr (attached_root hw)
  have hhead := (attached_of_parent hw h.headParent).mpr hhtml
  exact ⟨hhtml, hhead, (attached_of_parent hw h.titleParent).mpr hhead,
    (attached_of_parent hw h.bodyParent).mpr hhtml⟩

theorem InPlace.title_not_under_body (h : d.InPlace) (hw : d.WellFormed) :
    ¬d.links.Under title body := by
  have hup : ∀ {x p}, d.parent? x = some p → x ≠ body → d.links.Under x body →
      d.links.Under p body := fun hp hne hu => by
    obtain ⟨q, hq, hqb⟩ := hu.parent_of_ne hne
    exact Option.some.inj (hq.symm.trans hp) ▸ hqb
  intro hu
  have hroot := hup h.htmlParent (by decide) (hup h.headParent (by decide)
    (hup h.titleParent (by decide) hu))
  exact absurd (hroot.eq_of_parent_none hw.root_parent) (by decide)

theorem InPlace.of_children (h : d.InPlace) (hw : d.WellFormed) (hw' : d'.WellFormed)
    (hc : ∀ p x, d.Attached p → x ∈ fixtures → x ∈ d.children p →
      x ∈ d'.children p) : d'.InPlace := by
  obtain ⟨hhtml, hhead, -, -⟩ := h.attached hw
  have hkeep : ∀ {p x}, d.Attached p → x ∈ fixtures → d.parent? x = some p →
      d'.parent? x = some p := fun hpa hx hp =>
    hw'.forest.parent_of_mem (hc _ _ hpa hx (hw.forest.mem_of_parent hp))
  exact ⟨hkeep (attached_root hw) (by simp [fixtures]) h.htmlParent,
    hkeep hhtml (by simp [fixtures]) h.headParent, hkeep hhead (by simp [fixtures]) h.titleParent,
    hkeep hhtml (by simp [fixtures]) h.bodyParent⟩

-- A pass over the page moves no elements.
theorem InPlace.redrawn {style : NodeId → List (String × String)} {words : NodeId → Option String}
    (h : d.InPlace) (hw : d.WellFormed) (hr : Redrawn d style words d') : d'.InPlace := by
  have hel : ∀ {x}, x ∈ [html, title, body] → d.isContainer x = true := fun hx =>
    isContainer_of_isElement (hw.element _ hx)
  have hhead : d.isContainer head = true :=
    hw.isContainer_of_mem_children (hw.forest.mem_of_parent h.titleParent)
  exact ⟨(hr.parent? hw (hel (by simp))).mpr h.htmlParent, (hr.parent? hw hhead).mpr h.headParent,
    (hr.parent? hw (hel (by simp))).mpr h.titleParent,
    (hr.parent? hw (hel (by simp))).mpr h.bodyParent⟩

end InPlace

-- The tree has lost some of its elements and has got new ones: the nodes `come` and what is below
-- them. Texts are where they were.
structure Regrown (d : Document) (come : List NodeId) (d' : Document) : Prop where
  wellFormed : d'.WellFormed
  kind? : ∀ x, d.Attached x → d'.Attached x → d'.kind? x = d.kind? x
  kept : ∀ x, d'.Attached x → (∃ c ∈ come, d'.links.Under x c) ∨
    (d.Attached x ∧ ∀ b, d.links.Under x b → d'.links.Under x b)
  ownText : ∀ x, d.Attached x → d'.ownText x = d.ownText x
  inPlace : d.InPlace → d'.InPlace
  title : d.InPlace → d.HoldsText title → d'.HoldsText title

section Regrown

theorem SameTree.regrown (h : SameTree d d') (hw : d.WellFormed) : d.Regrown [] d' := by
  have hkind : ∀ x, d.Attached x → ∀ t ∈ d.children x, d'.kind? t = d.kind? t := fun x hx t ht =>
    h.kind? t ((attached_of_parent hw (hw.forest.parent_of_mem ht)).mpr hx)
  constructor
  · exact h.wellFormed
  · exact fun x hx _ => h.kind? x hx
  · intro x hx
    have hxd := (h.attached_iff hw).mp hx
    exact Or.inr ⟨hxd, fun b => h.under hw hxd⟩
  · exact fun x hx => ownText_congr (h.children x hx) (hkind x hx)
  · exact fun hi => hi.of_children hw h.wellFormed fun p x hp _ hx => (h.children p hp).symm ▸ hx
  · intro hi ht t htc
    have htitle := (hi.attached hw).2.2.1
    rw [h.children title htitle] at htc
    rw [isText_congr (hkind title htitle t htc)]
    exact ht t htc

-- With no children but old ones and those that come, the way up is the old one or it leads through
-- those that come.
private theorem kept_of_children {come : List NodeId} (hw : d.WellFormed) (hw' : d'.WellFormed)
    (hc : ∀ p, ∀ x ∈ d'.children p, x ∈ come ∨ x ∈ d.children p) (hx : d'.Attached x) :
    (∃ c ∈ come, d'.links.Under x c) ∨
      (d.Attached x ∧ ∀ b, d.links.Under x b → d'.links.Under x b) := by
  refine attached_induction hw' (P := fun x => (∃ c ∈ come, d'.links.Under x c) ∨
    (d.Attached x ∧ ∀ b, d.links.Under x b → d'.links.Under x b)) (Or.inr ?_)
    (fun p x _ hpx ih => ?_) hx
  · refine ⟨attached_root hw, fun b hu => ?_⟩
    rw [hu.eq_of_parent_none hw.root_parent]
    exact .refl _ b
  · have hp' := hw'.forest.parent_of_mem hpx
    rcases ih with ⟨c, hcome, hu⟩ | ⟨hpa, hup⟩
    · exact Or.inl ⟨c, hcome, (under_of_parent hp').trans hu⟩
    · rcases hc p x hpx with hm | hm
      · exact Or.inl ⟨x, hm, .refl _ x⟩
      · have hp := hw.forest.parent_of_mem hm
        refine Or.inr ⟨(attached_of_parent hw hp).mpr hpa, fun b hu => ?_⟩
        by_cases hxb : x = b
        · exact hxb ▸ .refl _ x
        · obtain ⟨q, hq, hqb⟩ := hu.parent_of_ne hxb
          have hsame : q = p := Option.some.inj (hq.symm.trans hp)
          exact (under_of_parent hp').trans (hup b (hsame ▸ hqb))

-- Elements leave a node or join it.
theorem Made.regrown {removed added : List NodeId} (h : Made d (.children p removed added) d')
    (hw : d.WellFormed)
    (hr : ∀ c ∈ removed, c ∈ d.children p ∧ d.isElement c = true ∧ c ∉ fixtures)
    (ha : ∀ c ∈ added, d.isElement c = true ∧ p ≠ title) : d.Regrown added d' := by
  have hw' := h.wellFormed
  have hchildren : ∀ x, d'.children x =
      if x = p then (d.children x).filter (· ∉ removed) ++ added else d.children x := h.children
  have hkind : ∀ x, d.Alive x → d'.kind? x = d.kind? x := fun x hx => by
    rw [h.kind? x hx]
    cases d.kind? x <;> rfl
  have hchild : ∀ x, ∀ t ∈ d.children x, d'.kind? t = d.kind? t := fun x t ht =>
    hkind t (hw.alive_of_parent? (hw.forest.parent_of_mem ht)).1
  have hmute : ∀ c, d.isElement c = true → d.textData? c = none ∧ d'.textData? c = none := by
    intro c hc
    obtain ⟨e, hk⟩ := isElement_iff.mp hc
    have hk' := hkind c (hw.alive_of_isContainer (isContainer_of_isElement hc))
    simp [textData?, hk', hk]
  refine ⟨hw', fun x hx _ => hkind x (hw.alive_of_attached hx), fun x hx => ?_,
    fun x hx => ?_, fun hi => ?_, fun hi ht t htc => ?_⟩
  · refine kept_of_children hw hw' (fun q y hy => ?_) hx
    rw [hchildren] at hy
    split at hy
    · rcases List.mem_append.mp hy with hm | hm
      · exact Or.inr (List.mem_filter.mp hm).1
      · exact Or.inl hm
    · exact Or.inr hy
  · by_cases hxp : x = p
    · have hnew : added.filterMap d'.textData? = [] :=
        List.filterMap_eq_nil_iff.mpr fun c hc => (hmute c (ha c hc).1).2
      unfold Document.ownText
      rw [hchildren, if_pos hxp, List.filterMap_append, hnew, List.append_nil,
        List.filterMap_filter]
      congr 1
      refine List.filterMap_congr fun t ht => ?_
      by_cases htr : t ∈ removed
      · simp [htr, (hmute t (hr t htr).2.1).1]
      · simp [htr, textData?, hchild x t ht]
    · exact ownText_congr (by rw [hchildren, if_neg hxp]) (hchild x)
  · refine hi.of_children hw hw' fun q x _ hx hxq => ?_
    rw [hchildren]
    split
    · refine List.mem_append_left _ (List.mem_filter.mpr ⟨hxq, ?_⟩)
      simpa using fun hxr => (hr x hxr).2.2 hx
    · exact hxq
  · have hold : t ∈ d.children title := by
      rw [hchildren] at htc
      split at htc
      · rename_i htp
        rcases List.mem_append.mp htc with hm | hm
        · exact (List.mem_filter.mp hm).1
        · exact absurd htp.symm (ha t hm).2
      · exact htc
    rw [isText_congr (hchild title t hold)]
    exact ht t hold

end Regrown

end PageLocalizer.Document
