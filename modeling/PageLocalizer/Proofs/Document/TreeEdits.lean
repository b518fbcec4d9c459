import PageLocalizer.Proofs.Document.Account
import PageLocalizer.Proofs.Document.Redrawing
import PageLocalizer.Proofs.Document.Skeleton

-- The edits of the tree. Each of them is refused without a trace, or it does what it is for and
-- nothing else.
namespace PageLocalizer

-- An edit that succeeds with the stated effect where it is admitted, and is refused everywhere
-- else. It never stops half way.
def Edit.Decided (edit : Edit Unit) (d : Document) (admitted : Prop)
    (effect : Document → Prop) : Prop :=
  (admitted ∧ (edit d).result = .ok () ∧ effect (edit d).document) ∨ (¬admitted ∧ Refused edit d)

namespace Document

-- A node leaves the place that it had, and it becomes the last child at the place that it gets, if
-- there is one. Everything else is as before, the order of its former neighbours too.
structure Rehung (d : Document) (child : NodeId) (place : Option NodeId) (d' : Document) :
    Prop where
  sameTenants : d.SameTenants d'
  registry : d'.registry = d.registry
  kind? : ∀ x, d'.kind? x = d.kind? x
  parent? : ∀ x, d'.parent? x = if x = child then place else d.parent? x
  children : ∀ x, d'.children x =
    (d.children x).filter (· ≠ child) ++ if place = some x then [child] else []
  acyclic : ∀ x, ¬Relation.TransGen (fun c p => d'.parent? c = some p) x x

-- A node is gone for good, and so is all that was below it. Nobody else is, and everything else is
-- as before.
structure Released (d : Document) (id : NodeId) (d' : Document) : Prop where
  stale : ∀ x, d.contains id x = true → d'.Stale x
  alive_iff : ∀ x, d'.Alive x ↔ d.Alive x ∧ d.contains id x = false
  registry : d'.registry = d.registry
  allocated : d'.allocated = d.allocated
  generationAt : ∀ i, d'.generationAt i =
    d.generationAt i + if i ∈ (d.subtree id).map (·.index) then 1 else 0
  free : d'.free = ((d.subtree id).map (·.index)).reverse ++ d.free
  kind? : ∀ x, d'.Alive x → d'.kind? x = d.kind? x
  parent? : ∀ x, d'.Alive x → d'.parent? x = d.parent? x
  children : ∀ x, d'.Alive x → d'.children x = (d.children x).filter (· ≠ id)

-- What the edits of the tree come to with ids that the page has handed out.
structure Chronicle.Atomic (h : Chronicle) : Prop where
  appendChild : ∀ parent ∈ h.issued, ∀ child ∈ h.issued,
    Edit.Decided (Document.appendChild parent child) h.document
      (h.Lives parent ∧ h.Lives child ∧ h.document.isText parent = false ∧
        h.document.kind? child ≠ some .document ∧ h.document.contains child parent = false)
      (h.document.Rehung child (some parent))
  removeChild : ∀ parent ∈ h.issued, ∀ child ∈ h.issued,
    Edit.Decided (Document.removeChild parent child) h.document
      (h.document.parent? child = some parent) (h.document.Rehung child none)
  remove : ∀ id ∈ h.issued,
    Edit.Decided (Document.remove id) h.document
      (h.Lives id ∧ ¬h.document.HoldsSkeleton id) (h.document.Released id)
  release : ∀ id ∈ h.issued,
    Edit.Decided (Document.release id) h.document
      (h.Lives id ∧ h.document.parent? id = none ∧ ¬h.document.HoldsSkeleton id)
      (h.document.Released id)

variable {d e d' : Document} {id x parent child old : NodeId} {place : Option NodeId}
  {h : Chronicle}

section Allocated

variable {ids : List NodeId}

@[simp] theorem allocated_modifySlot (index : Nat) (f : Slot → Slot) :
    (d.modifySlot index f).allocated = d.allocated := by
  simp [allocated, modifySlot]

@[simp] theorem allocated_vacateAll : (d.vacateAll ids).allocated = d.allocated := by
  induction ids generalizing d with
  | nil => rfl
  | cons id rest ih => rw [vacateAll_cons, ih, vacate]; exact allocated_modifySlot _ _

end Allocated

section Rehung

theorem filter_children (hf : d.links.Forest) (hp : d.parent? child ≠ some x) :
    (d.children x).filter (· ≠ child) = d.children x := by
  refine List.filter_eq_self.mpr fun c hc => ?_
  have hne : c ≠ child := by
    rintro rfl
    exact hp (hf.parent_of_mem hc)
  simpa using hne

-- A node without a parent has no place to leave.
theorem rehung_refl (hf : d.links.Forest) (hnone : d.parent? child = none) :
    d.Rehung child none d where
  sameTenants := .refl d
  registry := rfl
  kind? _ := rfl
  parent? x := by
    by_cases hx : x = child
    · simp [hx, hnone]
    · simp [hx]
  children x := by
    rw [filter_children hf (by simp [hnone])]
    simp
  acyclic := hf.acyclic

theorem Rehung.trans (hl : d.Rehung child none e) (hj : e.Rehung child place d') :
    d.Rehung child place d' where
  sameTenants := hl.sameTenants.trans hj.sameTenants
  registry := hj.registry.trans hl.registry
  kind? x := (hj.kind? x).trans (hl.kind? x)
  parent? x := by
    rw [hj.parent?, hl.parent?]
    by_cases hx : x = child <;> simp [hx]
  children x := by
    rw [hj.children, hl.children]
    simp
  acyclic := hj.acyclic

theorem rehung_unlink (hw : d.WellFormed) (hp : d.parent? child = some old) :
    d.Rehung child none (d.unlink old child) := by
  obtain ⟨hc, ho⟩ := hw.alive_of_parent? hp
  have hl : (d.unlink old child).links = d.links.detach old [child] := links_unlink ho.1 hc.1
  refine ⟨sameTenants_unlink, registry_unlink, kind?_unlink, fun x => ?_, fun x => ?_,
    (hw.unlink hp).forest.acyclic⟩
  · simpa [Links.detach, links] using parent?_of_links hl x
  · have hx := children_of_links hl x
    by_cases he : x = old
    · simpa [Links.detach, links, he] using hx
    · have hne : d.parent? child ≠ some x := by
        rw [hp]
        simpa using Ne.symm he
      rw [filter_children hw.forest hne]
      simpa [Links.detach, links, he] using hx

theorem rehung_link (hw : d.WellFormed) (hw' : (d.link parent child).WellFormed)
    (hp : d.Alive parent) (hc : d.Alive child) (hnone : d.parent? child = none) :
    d.Rehung child (some parent) (d.link parent child) := by
  have hl : (d.link parent child).links = d.links.attach parent child := links_link hp.1 hc.1
  refine ⟨sameTenants_link, registry_link, kind?_link, fun x => ?_, fun x => ?_,
    hw'.forest.acyclic⟩
  · simpa [Links.attach, links] using parent?_of_links hl x
  · have hx := children_of_links hl x
    rw [filter_children hw.forest (by simp [hnone])]
    by_cases he : x = parent
    · simpa [Links.attach, links, he] using hx
    · simpa [Links.attach, links, he, Ne.symm he] using hx

-- What a child takes along when it leaves its place is what was below it there.
theorem Rehung.subtree_eq (hr : d.Rehung id none e) (hw : d.WellFormed) (he : e.WellFormed) :
    e.subtree id = d.subtree id := by
  refine subtree_congr hw.forest he.forest fun x hx => ?_
  have hne : d.parent? id ≠ some x := fun hp => hw.forest.not_under_of_parent hp hx
  rw [hr.children, filter_children hw.forest hne]
  simp

end Rehung

section Append

theorem admits_iff_lives (hs : h.Sound) (hp : parent ∈ h.issued) (hc : child ∈ h.issued) :
    h.document.admits parent child = true ↔
      h.Lives parent ∧ h.Lives child ∧ h.document.isText parent = false ∧
        h.document.kind? child ≠ some .document ∧ h.document.contains child parent = false := by
  have hlives : ∀ {x kind}, x ∈ h.issued → h.document.kind? x = some kind → h.Lives x :=
    fun hx hk => (hs.alive_iff _).mp (hs.alive_of_isSome hx (isSome_of_kind? hk))
  simp only [admits, Bool.and_eq_true, Bool.or_eq_true, Bool.not_eq_true']
  constructor
  · rintro ⟨⟨hcon, hkind⟩, hcycle⟩
    obtain ⟨k, hkp, htp⟩ := isContainer_iff.mp hcon
    have hkc : ∃ k, h.document.kind? child = some k ∧ k ≠ .document := by
      rcases hkind with hel | htext
      · obtain ⟨el, hk⟩ := isElement_iff.mp hel
        exact ⟨_, hk, by simp⟩
      · obtain ⟨data, hk⟩ := isText_iff.mp htext
        exact ⟨_, hk, by simp⟩
    obtain ⟨kind, hkc, hne⟩ := hkc
    refine ⟨hlives hp hkp, hlives hc hkc, isText_of_isContainer hcon, ?_, hcycle⟩
    rw [hkc]
    simpa using hne
  · rintro ⟨hpl, hcl, htext, hdoc, hcycle⟩
    obtain ⟨p, hpn⟩ := Option.isSome_iff_exists.mp ((hs.alive_iff parent).mpr hpl).1
    obtain ⟨c, hcn⟩ := Option.isSome_iff_exists.mp ((hs.alive_iff child).mpr hcl).1
    have hkp := kind?_of_node? hpn
    have hkc := kind?_of_node? hcn
    refine ⟨⟨isContainer_iff.mpr ⟨p.kind, hkp, ?_⟩, ?_⟩, hcycle⟩
    · exact (WellFormed.isText_of_kind? hkp).symm.trans htext
    · cases hk : c.kind with
      | document => simp [hkc, hk] at hdoc
      | element el => exact Or.inl (isElement_iff.mpr ⟨el, by rw [hkc, hk]⟩)
      | text data => exact Or.inr (isText_iff.mpr ⟨data, by rw [hkc, hk]⟩)

theorem decided_appendChild (hw : d.WellFormed) (hp : (d.node? parent).isSome → d.Alive parent)
    (hc : (d.node? child).isSome → d.Alive child) :
    Edit.Decided (appendChild parent child) d (d.admits parent child = true)
      (d.Rehung child (some parent)) := by
  cases hadm : d.admits parent child with
  | false => exact Or.inr ⟨by simp, appendChild_of_not_admits hadm⟩
  | true =>
      obtain ⟨hpa, ht, hca, hroot⟩ := hw.alive_of_admits hadm hp hc
      have hn := ((admits_iff hw).mp hadm).2.2
      have he := appendChild_of_admits hadm
      left
      cases hold : d.parent? child with
      | none =>
          rw [hold] at he
          refine ⟨rfl, by rw [he], ?_⟩
          rw [he]
          exact rehung_link hw (hw.link hpa hca ht hroot hold hn) hpa hca hold
      | some old =>
          rw [hold] at he
          refine ⟨rfl, by rw [he], ?_⟩
          rw [he]
          have hleave := rehung_unlink hw hold
          have hsame := hleave.sameTenants
          have hnone : (d.unlink old child).parent? child = none := by simp [hleave.parent?]
          exact hleave.trans (rehung_link (hw.unlink hold) (hw.move hpa hold ht hroot hn)
            ((hsame.alive_iff parent).mpr hpa) ((hsame.alive_iff child).mpr hca) hnone)

end Append

section Remove

theorem decided_removeChild (hw : d.WellFormed) (parent child : NodeId) :
    Edit.Decided (removeChild parent child) d (d.parent? child = some parent)
      (d.Rehung child none) := by
  by_cases hp : d.parent? child = some parent
  · refine Or.inl ⟨hp, by simp [removeChild, hp], ?_⟩
    simpa [removeChild, hp] using rehung_unlink hw hp
  · exact Or.inr ⟨hp, .notAChild, by simp [removeChild, hp, Edit.fail]⟩

-- A node that has left its place goes with all that is below it.
theorem WellFormed.released (hw : d.WellFormed) (hid : d.Alive id) (hholds : ¬d.HoldsSkeleton id)
    (he : e.WellFormed) (hr : d.Rehung id none e) :
    d.Released id (e.vacateAll (d.subtree id)) := by
  have hsub := hr.subtree_eq hw he
  have hid' := (hr.sameTenants.alive_iff id).mpr hid
  have hnone : e.parent? id = none := by simp [hr.parent?]
  have hskeleton : ∀ x ∈ skeleton, x ∉ e.subtree id := fun x hx hm =>
    hholds ⟨x, hx, mem_subtree_iff_reaches.mp (hsub ▸ hm)⟩
  have hdep := he.departure_subtree hid'
  have hw' := he.vacateSubtree hid' hnone hskeleton
  have hnd := subtree_nodup he.forest id
  have halive := he.alive_of_mem_subtree hid'
  have hcontains : ∀ x, d.contains id x = true ↔ x ∈ d.subtree id := fun x => by
    rw [contains_iff hw.forest, mem_subtree_iff hw.forest]
  rw [hsub] at hdep hw' hnd halive
  have hkept : ∀ {x}, (e.vacateAll (d.subtree id)).Alive x → x ∉ d.subtree id ∧ x ≠ id := by
    intro x hx
    have hout := ((hdep.turnover.alive_iff x).mp hx).2
    refine ⟨hout, ?_⟩
    rintro rfl
    exact hout (by simp [subtree])
  constructor
  · intro x hx
    exact hw'.stale (node?_vacateAll_self hnd halive ((hcontains x).mp hx))
  · intro x
    rw [hdep.turnover.alive_iff, hr.sameTenants.alive_iff, ← Bool.not_eq_true, hcontains]
    simp
  · rw [registry_vacateAll, hr.registry]
  · rw [allocated_vacateAll, hr.sameTenants.allocated]
  · intro i
    rw [generationAt_vacateAll hnd halive, hr.sameTenants.generationAt]
  · rw [free_vacateAll, hr.sameTenants.free]
  · intro x hx
    rw [hdep.kind? x hx, hr.kind?]
  · intro x hx
    obtain ⟨hout, hne⟩ := hkept hx
    have hp : (e.vacateAll (d.subtree id)).parent? x =
        if x ∈ d.subtree id then none else e.parent? x := parent?_of_links hdep.links x
    rw [hp, if_neg hout, hr.parent?, if_neg hne]
  · intro x hx
    have hc : (e.vacateAll (d.subtree id)).children x =
        if x ∈ d.subtree id then [] else e.children x := children_of_links hdep.links x
    rw [hc, if_neg (hkept hx).1, hr.children]
    simp

-- Who stays lies below the same nodes.
theorem Released.under (hr : d.Released id d') (hw : d'.WellFormed) (hu : d.links.Under x old)
    (hx : d'.Alive x) : d'.links.Under x old := by
  induction hu using Relation.ReflTransGen.head_induction_on with
  | refl => exact .refl _ _
  | head hstep _ ih =>
      have hp := (hr.parent? _ hx).trans hstep
      exact (Links.under_of_parent hp).trans (ih (hw.alive_of_parent? hp).2)

theorem decided_remove (hw : d.WellFormed) (hid : (d.node? id).isSome → d.Alive id) :
    Edit.Decided (remove id) d ((d.node? id).isSome ∧ ¬d.HoldsSkeleton id) (d.Released id) := by
  rcases d.releasable_cases id with ⟨hr, hgoes⟩ | ⟨⟨err, hr⟩, hstays⟩
  · refine Or.inl ⟨hgoes, ?_⟩
    have ha := hid hgoes.1
    cases hp : d.parent? id with
    | none =>
        have he : remove id d = ⟨.ok (), d.vacateAll (d.subtree id), []⟩ := by
          simp [remove, hr, hp]
        rw [he]
        exact ⟨rfl, hw.released ha hgoes.2 hw (rehung_refl hw.forest hp)⟩
    | some parent =>
        have he : remove id d = ⟨.ok (), (d.unlink parent id).vacateAll (d.subtree id),
            [⟨⟨parent, .children [] [id]⟩, d.unlink parent id⟩]⟩ := by
          simp [remove, hr, hp, removeChild]
        rw [he]
        exact ⟨rfl, hw.released ha hgoes.2 (hw.unlink hp) (rehung_unlink hw hp)⟩
  · exact Or.inr ⟨hstays, err, by simp [remove, hr, Edit.fail]⟩

theorem decided_release (hw : d.WellFormed) (hid : (d.node? id).isSome → d.Alive id) :
    Edit.Decided (release id) d
      ((d.node? id).isSome ∧ d.parent? id = none ∧ ¬d.HoldsSkeleton id) (d.Released id) := by
  rcases d.releasable_cases id with ⟨hr, hgoes⟩ | ⟨⟨err, hr⟩, hstays⟩
  · cases hp : d.parent? id with
    | none =>
        have he : release id d = ⟨.ok (), d.vacateAll (d.subtree id), []⟩ := by
          simp [release, hr, hp]
        refine Or.inl ⟨⟨hgoes.1, rfl, hgoes.2⟩, ?_⟩
        rw [he]
        exact ⟨rfl, hw.released (hid hgoes.1) hgoes.2 hw (rehung_refl hw.forest hp)⟩
    | some parent =>
        exact Or.inr ⟨by simp, .attachedRelease, by simp [release, hr, hp, Edit.fail]⟩
  · exact Or.inr ⟨fun hgoes => hstays ⟨hgoes.1, hgoes.2.2⟩, err, by simp [release, hr, Edit.fail]⟩

end Remove

theorem atomic_of_recorded (hr : Chronicle.Recorded h) : h.Atomic := by
  have hs := Chronicle.sound_of_recorded hr
  have hw := hs.wellFormed
  have hfound : ∀ id ∈ h.issued, ((h.document.node? id).isSome = true) = h.Lives id := by
    intro id hid
    rw [← hs.alive_iff]
    exact propext ⟨hs.alive_of_isSome hid, And.left⟩
  constructor
  · intro parent hp child hc
    rw [← admits_iff_lives hs hp hc]
    exact decided_appendChild hw (hs.alive_of_isSome hp) (hs.alive_of_isSome hc)
  · exact fun parent _ child _ => decided_removeChild hw parent child
  · intro id hid
    rw [← hfound id hid]
    exact decided_remove hw (hs.alive_of_isSome hid)
  · intro id hid
    rw [← hfound id hid]
    exact decided_release hw (hs.alive_of_isSome hid)

-- Two elements in the body, the first one with a child. The body's children have the slots five and
-- six, and the child has slot seven.
def Chronicle.nested : Chronicle :=
  [Operation.createElement "div", .createElement "p", .createElement "b",
    .appendChild body ⟨5, 0⟩, .appendChild body ⟨6, 0⟩,
    .appendChild ⟨5, 0⟩ ⟨7, 0⟩].foldl after start

theorem Chronicle.recorded_nested : Recorded nested := .foldl .start (by decide +kernel)

-- The first one is appended to the body once more, it is refused a place below its child, and it
-- takes that child along when it is removed.
theorem atomic_nested : Chronicle.Recorded Chronicle.nested ∧ Chronicle.nested.Atomic ∧
    Chronicle.nested.document.Rehung ⟨5, 0⟩ (some body)
      (appendChild body ⟨5, 0⟩ Chronicle.nested.document).document ∧
    (appendChild body ⟨5, 0⟩ Chronicle.nested.document).document.children body =
      [⟨6, 0⟩, ⟨5, 0⟩] ∧
    Edit.Refused (appendChild ⟨7, 0⟩ ⟨5, 0⟩) Chronicle.nested.document ∧
    Chronicle.nested.document.Released ⟨5, 0⟩
      (remove ⟨5, 0⟩ Chronicle.nested.document).document ∧
    (remove ⟨5, 0⟩ Chronicle.nested.document).document.node? ⟨7, 0⟩ = none := by
  have hr := Chronicle.recorded_nested
  have ha := atomic_of_recorded hr
  refine ⟨hr, ha, ?_, by decide, ?_, ?_, by decide⟩
  · rcases ha.appendChild body (by decide) ⟨5, 0⟩ (by decide) with ⟨-, -, hmoved⟩ | ⟨-, e, he⟩
    · exact hmoved
    · cases congrArg Edited.result he
  · rcases ha.appendChild ⟨7, 0⟩ (by decide) ⟨5, 0⟩ (by decide) with ⟨-, hok, -⟩ | ⟨-, hrefused⟩
    · cases hok
    · exact hrefused
  · rcases ha.remove ⟨5, 0⟩ (by decide) with ⟨-, -, hgone⟩ | ⟨-, e, he⟩
    · exact hgone
    · cases congrArg Edited.result he

end Document
end PageLocalizer
