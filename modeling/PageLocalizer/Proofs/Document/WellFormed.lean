import PageLocalizer.Proofs.Document.Tenancy
import PageLocalizer.Proofs.Document.Walks

-- What holds of every page that is reached by edits, and the parts of an edit that keep it.
namespace PageLocalizer

def NodeKind.names : NodeKind → List String
  | .element e => e.attributes.map Prod.fst
  | _ => []

theorem NodeKind.eq_document_iff {k l : NodeKind} (ht : k.isText = l.isText)
    (he : k.isElement = l.isElement) : k = .document ↔ l = .document := by
  cases k <;> cases l <;> simp_all [isText, isElement]

namespace Document

structure WellFormed (d : Document) : Prop where
  forest : d.links.Forest
  vacancies : d.Vacancies
  leaf : ∀ id, d.Alive id → d.isText id → d.children id = []
  names_nodup : ∀ id kind, d.Alive id → d.kind? id = some kind → kind.names.Nodup
  document_eq : ∀ id, d.Alive id → d.kind? id = some .document → id = root
  root_kind : d.kind? root = some .document
  root_parent : d.parent? root = none
  element : ∀ id ∈ [html, title, body], d.isElement id
  skeleton_alive : ∀ id ∈ skeleton, d.Alive id

-- The five nodes of the page without content.
theorem node?_empty {x : NodeId} (h : (empty.node? x).isSome) :
    x ∈ [root, html, head, title, body] := by
  obtain ⟨node, hn⟩ := Option.isSome_iff_exists.mp h
  obtain ⟨hs, hg⟩ := node?_eq_some_iff.mp hn
  have hlt : x.index < 5 := lt_allocated_of_node? hn
  obtain ⟨i, g⟩ := x
  simp only at hs hg hlt
  rcases i with _ | _ | _ | _ | _ | i
  all_goals first
    | omega
    | (simp [empty] at hs
       subst hs
       simp [← hg, root, html, head, title, body])

theorem forest_empty : empty.links.Forest where
  mem_children p c := by
    have hdown : ∀ p ∈ [root, html, head, title, body], ∀ c ∈ empty.children p,
        empty.parent? c = some p := by decide
    have hup : ∀ c ∈ [root, html, head, title, body], ∀ p ∈ empty.parent? c,
        c ∈ empty.children p := by decide
    exact ⟨fun h => hdown p (node?_empty (isSome_of_mem_children h)) c h,
      fun h => hup c (node?_empty (isSome_of_parent? h)) p h⟩
  nodup p := by
    have hnd : ∀ p ∈ [root, html, head, title, body], (empty.children p).Nodup := by decide
    cases hn : empty.node? p with
    | none => simp [links, children_of_unknown hn]
    | some node => exact hnd p (node?_empty (by simp [hn]))
  ranked := by
    have hlt : ∀ c ∈ [root, html, head, title, body], ∀ p ∈ empty.parent? c,
        p.index < c.index := by decide
    exact ⟨(·.index), fun c p h => hlt c (node?_empty (isSome_of_parent? h)) p h⟩

theorem wellFormed_empty : empty.WellFormed where
  forest := forest_empty
  vacancies := ⟨by simp [empty], by simp [empty]⟩
  leaf id ha := by
    have h : ∀ id ∈ [root, html, head, title, body], empty.isText id →
      empty.children id = [] := by decide
    exact h id (node?_empty ha.1)
  names_nodup id kind ha := by
    have h : ∀ id ∈ [root, html, head, title, body], ∀ kind ∈ empty.kind? id,
      kind.names.Nodup := by decide
    exact h id (node?_empty ha.1) kind
  document_eq id ha := by
    have h : ∀ id ∈ [root, html, head, title, body], empty.kind? id = some .document →
      id = root := by decide
    exact h id (node?_empty ha.1)
  root_kind := rfl
  root_parent := rfl
  element := by decide
  skeleton_alive := by
    have h : ∀ id ∈ skeleton, (empty.node? id).isSome := by decide
    exact fun id hid => ⟨h id hid, by simp [empty]⟩

variable {d d' : Document} {id x p c : NodeId}

namespace WellFormed

theorem alive_of_parent? (hw : d.WellFormed) (h : d.parent? c = some p) : d.Alive c ∧ d.Alive p :=
  ⟨hw.vacancies.alive_of_parent? h,
    hw.vacancies.alive_of_mem_children (hw.forest.mem_of_parent h)⟩

theorem alive_of_under (hw : d.WellFormed) (h : d.links.Under x id) (hid : d.Alive id) :
    d.Alive x := by
  by_cases he : x = id
  · exact he ▸ hid
  · obtain ⟨p, hp, -⟩ := h.parent_of_ne he
    exact (hw.alive_of_parent? hp).1

-- The links change, and nothing else does.
theorem relink (hw : d.WellFormed) (ht : d.SameTenants d') (hk : ∀ x, d'.kind? x = d.kind? x)
    (hf : d'.links.Forest) (hv : d'.Vacancies)
    (hl : ∀ id, d.Alive id → d.isText id → d'.children id = [])
    (hr : d'.parent? root = none) : d'.WellFormed where
  forest := hf
  vacancies := hv
  leaf id ha ht' := hl id ((ht.alive_iff id).mp ha) (by simpa [isText, hk] using ht')
  names_nodup id kind ha h := hw.names_nodup id kind ((ht.alive_iff id).mp ha) (hk id ▸ h)
  document_eq id ha h := hw.document_eq id ((ht.alive_iff id).mp ha) (hk id ▸ h)
  root_kind := (hk root).trans hw.root_kind
  root_parent := hr
  element id h := by simpa [isElement, hk] using hw.element id h
  skeleton_alive id h := (ht.alive_iff id).mpr (hw.skeleton_alive id h)

-- A node that is no text does not live in a vacant slot.
theorem alive_of_kind? (hw : d.WellFormed) {kind : NodeKind} (h : d.kind? id = some kind)
    (ht : kind.isText = false) : d.Alive id := by
  refine ⟨isSome_of_kind? h, fun hm => ?_⟩
  obtain ⟨node, hn⟩ := Option.isSome_iff_exists.mp (isSome_of_kind? h)
  obtain ⟨slot, hs, -, -, hk⟩ := hw.vacancies.vacant _ hm
  have he : slot = node := by simpa [hs] using (node?_eq_some_iff.mp hn).1
  have hkind : node.kind = kind := by simpa [kind?_of_node? hn] using h
  simp [he, hkind, ht] at hk

-- The kind of a node changes within its sort. Its names stay distinct.
theorem rekind (hw : d.WellFormed) {node : Slot} (hid : d.node? id = some node) {kind : NodeKind}
    (ht : kind.isText = node.kind.isText) (he : kind.isElement = node.kind.isElement)
    (hn : kind.names.Nodup) : (d.modifySlot id.index ({ · with kind })).WellFormed := by
  have hs : d.SameTenants (d.modifySlot id.index ({ · with kind })) :=
    sameTenants_modifySlot fun _ => rfl
  have hl : (d.modifySlot id.index ({ · with kind })).links = d.links := links_modifyKind kind
  have hchildren : ∀ x, (d.modifySlot id.index ({ · with kind })).children x = d.children x :=
    children_of_links hl
  have hm := kind?_modifyKind (Option.isSome_iff_exists.mpr ⟨node, hid⟩) kind
  have hold := kind?_of_node? hid
  constructor
  · exact hl ▸ hw.forest
  · refine vacancies_modifySlot hw.vacancies fun hf s hp hc _ => ⟨hp, hc, ?_⟩
    by_contra hk
    rw [Bool.not_eq_true] at hk
    exact (hw.alive_of_kind? hold (ht ▸ hk)).2 hf
  · intro x ha hx
    rw [hchildren]
    refine hw.leaf x ((hs.alive_iff x).mp ha) ?_
    by_cases hxi : x = id
    · simpa [isText, hm, hxi, hold, ht] using hx
    · simpa [isText, hm, hxi] using hx
  · intro x k ha hx
    by_cases hxi : x = id
    · have hk : kind = k := by simpa [hm, hxi] using hx
      exact hk ▸ hn
    · exact hw.names_nodup x k ((hs.alive_iff x).mp ha) (by simpa [hm, hxi] using hx)
  · intro x ha hx
    refine hw.document_eq x ((hs.alive_iff x).mp ha) ?_
    by_cases hxi : x = id
    · have hk : kind = .document := by simpa [hm, hxi] using hx
      rw [hxi, hold, (NodeKind.eq_document_iff ht he).mp hk]
    · simpa [hm, hxi] using hx
  · by_cases hr : root = id
    · have hrk : node.kind = .document := by
        have h := hw.root_kind
        rw [hr, hold] at h
        exact Option.some.inj h
      rw [hm, if_pos hr, (NodeKind.eq_document_iff ht he).mpr hrk]
    · simpa [hm, hr] using hw.root_kind
  · exact (parent?_of_links hl root).trans hw.root_parent
  · intro x hx
    have h := hw.element x hx
    by_cases hxi : x = id
    · rw [hxi] at h
      simpa [isElement, hm, hxi, hold, he] using h
    · simpa [isElement, hm, hxi] using h
  · exact fun x hx => (hs.alive_iff x).mpr (hw.skeleton_alive x hx)

theorem isText_of_kind? {kind : NodeKind} (h : d.kind? id = some kind) :
    d.isText id = kind.isText := by
  simp [isText, h]

theorem create (hw : d.WellFormed) {kind : NodeKind} (hk : kind ≠ .document)
    (hn : kind.names.Nodup) : (Document.create kind d).document.WellFormed := by
  have hv := hw.vacancies
  have hl : (Document.create kind d).document.links = d.links := links_create hv
  have hparent : ∀ x, (Document.create kind d).document.parent? x = d.parent? x :=
    parent?_of_links hl
  have hchildren : ∀ x, (Document.create kind d).document.children x = d.children x :=
    children_of_links hl
  have hold : ∀ x, d.Alive x → (Document.create kind d).document.kind? x = d.kind? x := by
    intro x ha
    have hx : x ≠ d.nextId := by
      rintro rfl
      exact d.not_alive_nextId ha
    rw [kind?_create hv, if_neg hx]
  have hnew : (Document.create kind d).document.kind? d.nextId = some kind := by
    rw [kind?_create hv, if_pos rfl]
  constructor
  · exact hl ▸ hw.forest
  · exact hv.create
  · intro x ha hx
    rw [hchildren]
    rcases (alive_create hv x).mp ha with ha | rfl
    · exact hw.leaf x ha (by simpa [isText, hold x ha] using hx)
    · exact (unlinked_nextId hv).2
  · intro x k ha hx
    rcases (alive_create hv x).mp ha with ha | rfl
    · exact hw.names_nodup x k ha (hold x ha ▸ hx)
    · rw [hnew, Option.some.injEq] at hx
      exact hx ▸ hn
  · intro x ha hx
    rcases (alive_create hv x).mp ha with ha | rfl
    · exact hw.document_eq x ha (hold x ha ▸ hx)
    · rw [hnew, Option.some.injEq] at hx
      exact absurd hx hk
  · rw [hold root (hw.skeleton_alive root (by simp [skeleton]))]
    exact hw.root_kind
  · rw [hparent]
    exact hw.root_parent
  · intro x hx
    have ha := hw.skeleton_alive x (List.mem_cons_of_mem root hx)
    simpa [isElement, hold x ha] using hw.element x hx
  · exact fun x hx => (alive_create hv x).mpr (Or.inl (hw.skeleton_alive x hx))

theorem link (hw : d.WellFormed) (hp : d.Alive p) (hc : d.Alive c) (ht : d.isText p = false)
    (hroot : c ≠ root) (hnone : d.parent? c = none) (hn : ¬d.links.Under p c) :
    (d.link p c).WellFormed := by
  have hl := links_link hp.1 hc.1
  have hf : (d.link p c).links.Forest := hl ▸ hw.forest.attach hnone hn
  refine hw.relink sameTenants_link kind?_link hf (hw.vacancies.link hp hc) ?_ ?_
  · intro x ha hx
    have hxp : x ≠ p := by
      rintro rfl
      simp [ht] at hx
    have h : (d.link p c).children x = d.children x := by
      have h := children_of_links hl x
      simpa [Links.attach, hxp, links] using h
    rw [h]
    exact hw.leaf x ha hx
  · have h : (d.link p c).parent? root = d.parent? root := by
      have h := parent?_of_links hl root
      simpa [Links.attach, Ne.symm hroot, links] using h
    rw [h]
    exact hw.root_parent

-- Some children leave their parent, and nothing else changes.
theorem detach (hw : d.WellFormed) (ht : d.SameTenants d') (hk : ∀ x, d'.kind? x = d.kind? x)
    (hv : d'.Vacancies) {leaving : List NodeId} (hl : d'.links = d.links.detach p leaving)
    (hleave : ∀ c ∈ leaving, d.parent? c = some p) : d'.WellFormed := by
  have hf : d'.links.Forest := hl ▸ hw.forest.detach hleave
  refine hw.relink ht hk hf hv ?_ ?_
  · intro x ha hx
    have h : d'.children x =
        if x = p then (d.children p).filter (· ∉ leaving) else d.children x :=
      children_of_links hl x
    rw [h]
    by_cases hxp : x = p
    · simp [hxp, hxp ▸ hw.leaf x ha hx]
    · simpa [hxp] using hw.leaf x ha hx
  · have h : d'.parent? root = if root ∈ leaving then none else d.parent? root :=
      parent?_of_links hl root
    rw [h, hw.root_parent, ite_self]

theorem unlink (hw : d.WellFormed) (h : d.parent? c = some p) : (d.unlink p c).WellFormed := by
  obtain ⟨hc, hp⟩ := hw.alive_of_parent? h
  exact hw.detach sameTenants_unlink kind?_unlink hw.vacancies.unlink
    (links_unlink hp.1 hc.1) (by simpa using h)

theorem links_strip (hw : d.WellFormed) (hid : (d.node? id).isSome) :
    (d.strip id (d.children id)).links = d.links.detach id (d.children id) :=
  Document.links_strip hid fun _ hc => isSome_of_parent? (hw.forest.parent_of_mem hc)

theorem strip (hw : d.WellFormed) (hid : (d.node? id).isSome) :
    (d.strip id (d.children id)).WellFormed :=
  hw.detach sameTenants_strip kind?_strip hw.vacancies.strip (hw.links_strip hid)
    fun _ hc => hw.forest.parent_of_mem hc

theorem alive_of_mem_subtree (hw : d.WellFormed) (hid : d.Alive id) :
    ∀ x ∈ d.subtree id, d.Alive x :=
  fun _ hx => hw.alive_of_under ((mem_subtree_iff hw.forest).mp hx) hid

-- A detached branch has no link to the rest of the page.
private theorem mem_subtree_congr (hw : d.WellFormed) (hnone : d.parent? id = none)
    (h : d.parent? c = some p) : c ∈ d.subtree id ↔ p ∈ d.subtree id := by
  rw [mem_subtree_iff hw.forest, mem_subtree_iff hw.forest]
  constructor
  · intro hc
    have hne : c ≠ id := by
      rintro rfl
      simp [hnone] at h
    obtain ⟨q, hq, hqid⟩ := hc.parent_of_ne hne
    exact Option.some.inj (hq.symm.trans h) ▸ hqid
  · exact (Links.under_of_parent h).trans

theorem vacateSubtree (hw : d.WellFormed) (hid : d.Alive id) (hnone : d.parent? id = none)
    (hs : ∀ x ∈ skeleton, x ∉ d.subtree id) : (d.vacateAll (d.subtree id)).WellFormed := by
  have hnd := subtree_nodup hw.forest id
  have hg := hw.alive_of_mem_subtree hid
  have hl := links_vacateAll hnd hg
  have hparent : ∀ x, (d.vacateAll (d.subtree id)).parent? x =
      if x ∈ d.subtree id then none else d.parent? x := parent?_of_links hl
  have hchildren : ∀ x, (d.vacateAll (d.subtree id)).children x =
      if x ∈ d.subtree id then [] else d.children x := children_of_links hl
  have hold : ∀ {x}, (d.vacateAll (d.subtree id)).Alive x →
      d.Alive x ∧ (d.vacateAll (d.subtree id)).kind? x = d.kind? x := fun ha =>
    ⟨((alive_vacateAll hnd hg _).mp ha).1, kind?_vacateAll hnd hg ha⟩
  have hskeleton : ∀ x ∈ skeleton, (d.vacateAll (d.subtree id)).Alive x := fun x hx =>
    (alive_vacateAll hnd hg x).mpr ⟨hw.skeleton_alive x hx, hs x hx⟩
  constructor
  · exact hl ▸ hw.forest.prune fun c p h => hw.mem_subtree_congr hnone h
  · exact hw.vacancies.vacateAll hnd hg
  · intro x ha hx
    obtain ⟨ha', hk⟩ := hold ha
    rw [hchildren, hw.leaf x ha' (by simpa [isText, hk] using hx), ite_self]
  · intro x k ha hx
    obtain ⟨ha', hk⟩ := hold ha
    exact hw.names_nodup x k ha' (hk ▸ hx)
  · intro x ha hx
    obtain ⟨ha', hk⟩ := hold ha
    exact hw.document_eq x ha' (hk ▸ hx)
  · rw [(hold (hskeleton root (by simp [skeleton]))).2]
    exact hw.root_kind
  · rw [hparent, hw.root_parent, ite_self]
  · intro x hx
    have hk := (hold (hskeleton x (List.mem_cons_of_mem root hx))).2
    simpa [isElement, hk] using hw.element x hx
  · exact hskeleton

end WellFormed
end Document
end PageLocalizer
