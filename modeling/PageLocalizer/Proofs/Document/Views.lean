import Mathlib.Data.List.Nodup
import PageLocalizer.Document.Edit
import PageLocalizer.Proofs.Links

namespace PageLocalizer.Document

def links (d : Document) : Links where
  parent := d.parent?
  children := d.children

-- The present tenant of its slot, where the slot is not vacant.
def Alive (d : Document) (id : NodeId) : Prop := (d.node? id).isSome ∧ id.index ∉ d.free

instance (d : Document) (id : NodeId) : Decidable (d.Alive id) :=
  inferInstanceAs (Decidable (_ ∧ _))

-- A slot beyond the table counts as one that had no tenant yet.
def generationAt (d : Document) (index : Nat) : UInt32 :=
  match d.slots[index]? with
  | some slot => slot.generation
  | none => 0

-- The id that the next node gets.
def nextId (d : Document) : NodeId :=
  let index := d.free.head?.getD d.slots.size
  ⟨index, d.generationAt index⟩

-- Vacant slots keep no links, and nothing is lost when one gets a tenant.
structure Vacancies (d : Document) : Prop where
  nodup : d.free.Nodup
  vacant : ∀ i ∈ d.free, ∃ slot, d.slots[i]? = some slot ∧ slot.parent = none ∧
    slot.children = [] ∧ slot.kind.isText

theorem parent?_of_links {d : Document} {l : Links} (h : d.links = l) (x : NodeId) :
    d.parent? x = l.parent x := congrFun (congrArg Links.parent h) x

theorem children_of_links {d : Document} {l : Links} (h : d.links = l) (x : NodeId) :
    d.children x = l.children x := congrFun (congrArg Links.children h) x

-- Those that leave have no parent afterwards, and nobody but their parent loses children.
theorem parent?_of_detach {d d' : Document} {p x : NodeId} {leaving : List NodeId}
    (h : d'.links = d.links.detach p leaving) (hx : x ∈ leaving) : d'.parent? x = none := by
  simpa [Links.detach, hx] using parent?_of_links h x

theorem children_of_detach {d d' : Document} {p x : NodeId} {leaving : List NodeId}
    (h : d'.links = d.links.detach p leaving) (hx : x ≠ p) : d'.children x = d.children x := by
  simpa [Links.detach, hx, links] using children_of_links h x

section Lookup

variable {d : Document} {id x : NodeId} {node : Slot}

theorem node?_eq_some_iff :
    d.node? id = some node ↔ d.slots[id.index]? = some node ∧ node.generation = id.generation := by
  simp [node?, Option.filter_eq_some_iff]

theorem generationAt_of_node? (h : d.node? id = some node) :
    d.generationAt id.index = id.generation := by
  obtain ⟨hs, hg⟩ := node?_eq_some_iff.mp h
  simp [generationAt, hs, hg]

theorem lt_allocated_of_node? (h : d.node? id = some node) : id.index < d.allocated := by
  obtain ⟨hs, -⟩ := node?_eq_some_iff.mp h
  exact (Array.getElem?_eq_some_iff.mp hs).1

-- A slot has one tenant at a time.
theorem eq_of_index (hid : (d.node? id).isSome) (hx : (d.node? x).isSome)
    (hi : x.index = id.index) : x = id := by
  obtain ⟨n, hn⟩ := Option.isSome_iff_exists.mp hid
  obtain ⟨m, hm⟩ := Option.isSome_iff_exists.mp hx
  have hg : x.generation = id.generation := by
    rw [← generationAt_of_node? hm, ← generationAt_of_node? hn, hi]
  cases x
  cases id
  simp_all

theorem parent?_of_node? (h : d.node? id = some node) : d.parent? id = node.parent := by
  simp [parent?, h]

theorem children_of_node? (h : d.node? id = some node) : d.children id = node.children := by
  simp [children, h]

theorem kind?_of_node? (h : d.node? id = some node) : d.kind? id = some node.kind := by
  simp [kind?, h]

theorem children_eq (d : Document) (id : NodeId) :
    d.children id = ((d.node? id).map (·.children)).getD [] := by
  unfold children
  cases d.node? id <;> rfl

theorem parent?_of_unknown (h : d.node? id = none) : d.parent? id = none := by
  simp [parent?, h]

theorem children_of_unknown (h : d.node? id = none) : d.children id = [] := by
  simp [children, h]

theorem kind?_of_unknown (h : d.node? id = none) : d.kind? id = none := by
  simp [kind?, h]

theorem isSome_of_parent? {p : NodeId} (h : d.parent? id = some p) : (d.node? id).isSome := by
  cases hn : d.node? id with
  | none => simp [parent?_of_unknown hn] at h
  | some node => rfl

theorem isSome_of_mem_children {c : NodeId} (h : c ∈ d.children id) : (d.node? id).isSome := by
  cases hn : d.node? id with
  | none => simp [children_of_unknown hn] at h
  | some node => rfl

theorem isSome_of_kind? {k : NodeKind} (h : d.kind? id = some k) : (d.node? id).isSome := by
  cases hn : d.node? id with
  | none => simp [kind?_of_unknown hn] at h
  | some node => rfl

-- Nobody who has a link lives in a vacant slot.
theorem Vacancies.alive_of_parent? (hv : d.Vacancies) {p : NodeId} (h : d.parent? id = some p) :
    d.Alive id := by
  refine ⟨isSome_of_parent? h, fun hm => ?_⟩
  obtain ⟨node, hn⟩ := Option.isSome_iff_exists.mp (isSome_of_parent? h)
  obtain ⟨slot, hs, hp, -⟩ := hv.vacant _ hm
  have he : slot = node := by simpa [hs] using (node?_eq_some_iff.mp hn).1
  simp [parent?_of_node? hn, ← he, hp] at h

theorem Vacancies.alive_of_mem_children (hv : d.Vacancies) {c : NodeId} (h : c ∈ d.children id) :
    d.Alive id := by
  refine ⟨isSome_of_mem_children h, fun hm => ?_⟩
  obtain ⟨node, hn⟩ := Option.isSome_iff_exists.mp (isSome_of_mem_children h)
  obtain ⟨slot, hs, -, hc, -⟩ := hv.vacant _ hm
  have he : slot = node := by simpa [hs] using (node?_eq_some_iff.mp hn).1
  simp [children_of_node? hn, ← he, hc] at h

end Lookup

-- Nobody joins and nobody leaves.
structure SameTenants (d d' : Document) : Prop where
  isSome : ∀ x, (d'.node? x).isSome = (d.node? x).isSome
  free : d'.free = d.free
  generationAt : ∀ i, d'.generationAt i = d.generationAt i
  allocated : d'.allocated = d.allocated

namespace SameTenants

variable {d d' d'' : Document}

theorem refl (d : Document) : d.SameTenants d := ⟨fun _ => rfl, rfl, fun _ => rfl, rfl⟩

theorem trans (h : d.SameTenants d') (h' : d'.SameTenants d'') : d.SameTenants d'' where
  isSome x := (h'.isSome x).trans (h.isSome x)
  free := h'.free.trans h.free
  generationAt i := (h'.generationAt i).trans (h.generationAt i)
  allocated := h'.allocated.trans h.allocated

theorem alive_iff (h : d.SameTenants d') (x : NodeId) : d'.Alive x ↔ d.Alive x := by
  unfold Alive
  rw [h.isSome, h.free]

end SameTenants

section ModifySlot

variable {d : Document} {index : Nat} {f : Slot → Slot} {id x : NodeId}

theorem node?_modifySlot (hf : ∀ s, (f s).generation = s.generation) (x : NodeId) :
    (d.modifySlot index f).node? x = if x.index = index then (d.node? x).map f else d.node? x := by
  by_cases hi : x.index = index
  · subst hi
    simp only [node?, modifySlot, Array.getElem?_modify, ite_true]
    cases d.slots[x.index]? with
    | none => rfl
    | some slot => by_cases hg : slot.generation = x.generation <;> simp [Option.filter, hf, hg]
  · simp [node?, modifySlot, Array.getElem?_modify, hi, Ne.symm hi]

-- Modifying the slot of a node that is found changes that node and no other.
theorem node?_modifySlot_of_isSome (hf : ∀ s, (f s).generation = s.generation)
    (hid : (d.node? id).isSome) (x : NodeId) :
    (d.modifySlot id.index f).node? x = if x = id then (d.node? id).map f else d.node? x := by
  rw [node?_modifySlot hf]
  by_cases hx : x = id
  · simp [hx]
  · by_cases hi : x.index = id.index
    · have hn : d.node? x = none := by
        by_contra hs
        exact hx (eq_of_index hid (Option.isSome_iff_ne_none.mpr hs) hi)
      simp [hi, hx, hn]
    · simp [hi, hx]

theorem isSome_modifySlot (hf : ∀ s, (f s).generation = s.generation) (x : NodeId) :
    ((d.modifySlot index f).node? x).isSome = (d.node? x).isSome := by
  rw [node?_modifySlot hf]
  split <;> simp

theorem isSome_of_modified (hf : ∀ s, (f s).generation = s.generation) (hx : (d.node? x).isSome) :
    ((d.modifySlot index f).node? x).isSome := by
  rwa [isSome_modifySlot hf]

theorem sameTenants_modifySlot (hf : ∀ s, (f s).generation = s.generation) :
    d.SameTenants (d.modifySlot index f) where
  isSome := isSome_modifySlot hf
  free := rfl
  generationAt i := by
    simp only [generationAt, modifySlot, Array.getElem?_modify]
    by_cases hi : index = i
    · cases d.slots[i]? <;> simp [hi, hf]
    · simp [hi]
  allocated := by simp [allocated, modifySlot]

theorem kind?_modifySlot (hf : ∀ s, (f s).generation = s.generation)
    (hk : ∀ s, (f s).kind = s.kind) (x : NodeId) :
    (d.modifySlot index f).kind? x = d.kind? x := by
  unfold kind?
  rw [node?_modifySlot hf]
  split <;> simp [Function.comp_def, hk]

theorem links_modifySlot (hf : ∀ s, (f s).generation = s.generation)
    (hp : ∀ s, (f s).parent = s.parent) (hc : ∀ s, (f s).children = s.children) :
    (d.modifySlot index f).links = d.links := by
  have hn := @node?_modifySlot d index f hf
  simp only [links, Links.mk.injEq]
  constructor
  · funext x
    simp only [parent?, hn]
    split
    · cases d.node? x <;> simp [hp]
    · rfl
  · funext x
    simp only [children_eq, hn]
    split
    · cases d.node? x <;> simp [hc]
    · rfl

theorem kind?_modifyKind (hid : (d.node? id).isSome) (kind : NodeKind) (x : NodeId) :
    (d.modifySlot id.index ({ · with kind })).kind? x =
      if x = id then some kind else d.kind? x := by
  obtain ⟨node, hn⟩ := Option.isSome_iff_exists.mp hid
  unfold kind?
  rw [node?_modifySlot_of_isSome (fun _ => by rfl) hid x]
  by_cases hx : x = id <;> simp [hx, hn]

theorem links_modifyKind (kind : NodeKind) :
    (d.modifySlot index ({ · with kind })).links = d.links :=
  links_modifySlot (fun _ => by rfl) (fun _ => by rfl) fun _ => by rfl

theorem vacancies_modifySlot (hv : d.Vacancies)
    (hf : index ∈ d.free → ∀ s, s.parent = none → s.children = [] → s.kind.isText →
      (f s).parent = none ∧ (f s).children = [] ∧ (f s).kind.isText) :
    (d.modifySlot index f).Vacancies where
  nodup := hv.nodup
  vacant i hi := by
    obtain ⟨slot, hs, hp, hc, hk⟩ := hv.vacant i hi
    simp only [modifySlot, Array.getElem?_modify]
    by_cases he : index = i
    · exact ⟨f slot, by simp [he, hs], hf (he ▸ hi) slot hp hc hk⟩
    · exact ⟨slot, by simp [he, hs], hp, hc, hk⟩

end ModifySlot

section Link

variable {d : Document} {id p c : NodeId}

theorem links_modifyParent (hid : (d.node? id).isSome) (parent : Option NodeId) :
    (d.modifySlot id.index ({ · with parent })).links =
      { d.links with parent := fun x => if x = id then parent else d.links.parent x } := by
  obtain ⟨node, hn⟩ := Option.isSome_iff_exists.mp hid
  have hm := node?_modifySlot_of_isSome (f := ({ · with parent })) (fun _ => rfl) hid
  simp only [links, Links.mk.injEq]
  constructor
  · funext x
    by_cases hx : x = id <;> simp [parent?, hm, hx, hn]
  · funext x
    by_cases hx : x = id <;> simp [children_eq, hm, hx, hn]

theorem links_modifyChildren (hid : (d.node? id).isSome) (g : List NodeId → List NodeId) :
    (d.modifySlot id.index fun slot => { slot with children := g slot.children }).links =
      { d.links with children := fun x => if x = id then g (d.links.children id)
          else d.links.children x } := by
  obtain ⟨node, hn⟩ := Option.isSome_iff_exists.mp hid
  have hm := node?_modifySlot_of_isSome
    (f := fun slot => { slot with children := g slot.children }) (fun _ => rfl) hid
  simp only [links, Links.mk.injEq]
  constructor
  · funext x
    by_cases hx : x = id <;> simp [parent?, hm, hx, hn]
  · funext x
    by_cases hx : x = id <;> simp [children_eq, hm, hx, hn]

theorem links_link (hp : (d.node? p).isSome) (hc : (d.node? c).isSome) :
    (d.link p c).links = d.links.attach p c := by
  have hp' : ((d.modifySlot c.index ({ · with parent := some p })).node? p).isSome :=
    isSome_of_modified (fun _ => rfl) hp
  unfold link
  rw [links_modifyChildren hp' (· ++ [c]), links_modifyParent hc]
  rfl

theorem links_unlink (hp : (d.node? p).isSome) (hc : (d.node? c).isSome) :
    (d.unlink p c).links = d.links.detach p [c] := by
  have hc' : ((d.modifySlot p.index fun slot =>
      { slot with children := slot.children.filter (· ≠ c) }).node? c).isSome :=
    isSome_of_modified (fun _ => rfl) hc
  unfold unlink
  rw [links_modifyParent hc', links_modifyChildren hp (·.filter (· ≠ c))]
  simp [Links.detach]

theorem sameTenants_link : d.SameTenants (d.link p c) := by
  refine (sameTenants_modifySlot ?_).trans (sameTenants_modifySlot ?_) <;> exact fun _ => rfl

theorem sameTenants_unlink : d.SameTenants (d.unlink p c) := by
  refine (sameTenants_modifySlot ?_).trans (sameTenants_modifySlot ?_) <;> exact fun _ => rfl

theorem kind?_link (x : NodeId) : (d.link p c).kind? x = d.kind? x := by
  unfold link
  rw [kind?_modifySlot, kind?_modifySlot] <;> exact fun _ => rfl

theorem kind?_unlink (x : NodeId) : (d.unlink p c).kind? x = d.kind? x := by
  unfold unlink
  rw [kind?_modifySlot, kind?_modifySlot] <;> exact fun _ => rfl

theorem Vacancies.link (hv : d.Vacancies) (hp : d.Alive p) (hc : d.Alive c) :
    (d.link p c).Vacancies :=
  vacancies_modifySlot (vacancies_modifySlot hv fun h => absurd h hc.2) fun h => absurd h hp.2

theorem Vacancies.unlink (hv : d.Vacancies) : (d.unlink p c).Vacancies :=
  vacancies_modifySlot
    (vacancies_modifySlot hv fun _ s hp hc hk => ⟨hp, by simp [hc], hk⟩)
    fun _ s _ hc hk => ⟨rfl, hc, hk⟩

end Link

section Strip

variable {d : Document} {id : NodeId} {ids : List NodeId}

theorem orphan_cons (d : Document) (c : NodeId) (rest : List NodeId) :
    d.orphan (c :: rest) = (d.modifySlot c.index ({ · with parent := none })).orphan rest := rfl

theorem sameTenants_orphan : d.SameTenants (d.orphan ids) := by
  induction ids generalizing d with
  | nil => exact .refl d
  | cons c rest ih =>
      have hc : d.SameTenants (d.modifySlot c.index ({ · with parent := none })) :=
        sameTenants_modifySlot fun _ => rfl
      exact hc.trans ih

theorem kind?_orphan (x : NodeId) : (d.orphan ids).kind? x = d.kind? x := by
  induction ids generalizing d with
  | nil => rfl
  | cons c rest ih =>
      rw [orphan_cons, ih, kind?_modifySlot] <;> exact fun _ => rfl

theorem Vacancies.orphan (hv : d.Vacancies) : (d.orphan ids).Vacancies := by
  induction ids generalizing d with
  | nil => exact hv
  | cons c rest ih => exact ih (vacancies_modifySlot hv fun _ s _ hc hk => ⟨rfl, hc, hk⟩)

theorem links_orphan (h : ∀ c ∈ ids, (d.node? c).isSome) :
    (d.orphan ids).links =
      { d.links with parent := fun x => if x ∈ ids then none else d.links.parent x } := by
  induction ids generalizing d with
  | nil => rfl
  | cons c rest ih =>
      have hrest : ∀ x ∈ rest,
          ((d.modifySlot c.index ({ · with parent := none })).node? x).isSome := fun x hx =>
        isSome_of_modified (fun _ => rfl) (h x (List.mem_cons_of_mem c hx))
      rw [orphan_cons, ih hrest, links_modifyParent (h c (by simp))]
      simp only [Links.mk.injEq, and_true]
      funext x
      by_cases hx : x = c <;> simp [hx]

theorem sameTenants_strip : d.SameTenants (d.strip id ids) := by
  refine (sameTenants_modifySlot ?_).trans sameTenants_orphan
  exact fun _ => rfl

theorem kind?_strip (x : NodeId) : (d.strip id ids).kind? x = d.kind? x := by
  unfold strip
  rw [kind?_orphan, kind?_modifySlot] <;> exact fun _ => rfl

theorem Vacancies.strip (hv : d.Vacancies) : (d.strip id ids).Vacancies := by
  refine Vacancies.orphan (vacancies_modifySlot hv ?_)
  exact fun _ s hp _ hk => ⟨hp, rfl, hk⟩

-- Stripping a node of all its children detaches them.
theorem links_strip (hid : (d.node? id).isSome) (h : ∀ c ∈ d.children id, (d.node? c).isSome) :
    (d.strip id (d.children id)).links = d.links.detach id (d.children id) := by
  have hs : ∀ c ∈ d.children id,
      ((d.modifySlot id.index ({ · with children := [] })).node? c).isSome := fun c hc =>
    isSome_of_modified (fun _ => rfl) (h c hc)
  unfold strip
  rw [links_orphan hs, links_modifyChildren hid fun _ => []]
  have hnone : (d.children id).filter (· ∉ d.children id) = [] := by
    simp [List.filter_eq_nil_iff]
  simp only [Links.detach, links, hnone]

end Strip

end PageLocalizer.Document
