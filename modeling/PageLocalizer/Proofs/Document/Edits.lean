import PageLocalizer.Proofs.Document.WellFormed
import PageLocalizer.Proofs.Edit

-- Each edit keeps a page well formed, and how it moves tenants in and out.
namespace PageLocalizer.Document

variable {d d' d'' : Document} {id x p c parent child : NodeId} {ids : List NodeId}

-- The nodes that go when `id` is to be released.
def leaving (d : Document) (id : NodeId) : List NodeId :=
  match d.releasable id with
  | .ok ids => ids
  | .error _ => []

-- The children that make room when the text of `id` is set.
def replaced (d : Document) (id : NodeId) (text : String) : List NodeId :=
  match d.node? id with
  | none => []
  | some node => if (d.textTarget? id node text).isNone then node.children else []

-- The node that comes with a new text.
def arrivals (d : Document) (text : String) : List NodeId := if text = "" then [] else [d.nextId]

-- The nodes that go for good when the children of `id` make room.
def goneBelow (d : Document) (id : NodeId) : List NodeId := (d.children id).flatMap d.leaving

theorem releasable_eq_ok (h : d.releasable id = .ok ids) :
    (d.node? id).isSome ∧ ids = d.subtree id ∧ ∀ x ∈ skeleton, x ∉ d.subtree id := by
  unfold releasable at h
  split at h
  · simp at h
  · rename_i hs
    split at h
    · simp at h
    · rename_i hn
      refine ⟨by simpa [Option.isNone_iff_eq_none, Option.isSome_iff_ne_none] using hs,
        (Except.ok.inj h).symm, fun x hx hm => hn ?_⟩
      exact List.any_eq_true.mpr ⟨x, hm, by simpa using hx⟩

theorem leaving_subset : d.leaving id ⊆ d.subtree id := by
  unfold leaving
  cases h : d.releasable id with
  | ok ids => simp [(releasable_eq_ok h).2.1]
  | error e => simp

theorem leaving_congr {e : Document} (hd : (d.node? id).isSome) (he : (e.node? id).isSome)
    (hs : e.subtree id = d.subtree id) : e.leaving id = d.leaving id := by
  have hd' : (d.node? id).isNone = false := by simpa [Option.isNone_iff_eq_none,
    ← Option.isSome_iff_ne_none] using hd
  have he' : (e.node? id).isNone = false := by simpa [Option.isNone_iff_eq_none,
    ← Option.isSome_iff_ne_none] using he
  simp [leaving, releasable, hs, hd', he']

-- Some nodes go with all their links, and nothing else changes.
structure Departure (d : Document) (left : List NodeId) (d' : Document) : Prop where
  turnover : d.Turnover [] left d'
  links : d'.links = d.links.prune left
  kind? : ∀ x, d'.Alive x → d'.kind? x = d.kind? x

theorem Departure.refl (d : Document) : d.Departure [] d where
  turnover := .refl d
  links := (Links.prune_nil d.links).symm
  kind? _ _ := rfl

theorem Departure.trans {left more : List NodeId} (h : d.Departure left d')
    (h' : d'.Departure more d'') (hm : ∀ x ∈ more, d.Alive x) : d.Departure (left ++ more) d'' where
  turnover := h.turnover.trans_left h'.turnover hm
  links := by rw [h'.links, h.links, Links.prune_prune]
  kind? x hx := by
    have hx' : d'.Alive x := by simpa using ((h'.turnover.alive_iff x).mp hx).1
    rw [h'.kind? x hx, h.kind? x hx']

section Entries

variable {entries : List (String × String)} {name value n : String}

private theorem names_setEntry (name value : String) (entries : List (String × String)) :
    (setEntry name value entries).map Prod.fst =
      if name ∈ entries.map Prod.fst then entries.map Prod.fst
      else entries.map Prod.fst ++ [name] := by
  induction entries with
  | nil => simp [setEntry]
  | cons entry rest ih =>
      obtain ⟨n, v⟩ := entry
      by_cases hn : n = name
      · simp [setEntry, hn]
      · simp only [setEntry, hn, ite_false, List.map_cons, ih, List.mem_cons, Ne.symm hn, false_or]
        split <;> rfl

theorem nodup_setEntry (h : (entries.map Prod.fst).Nodup) :
    ((setEntry name value entries).map Prod.fst).Nodup := by
  rw [names_setEntry]
  split
  · exact h
  · rename_i hn
    exact List.Nodup.append h (List.nodup_singleton name) (by simpa using hn)

end Entries

namespace WellFormed

theorem departure_subtree (hw : d.WellFormed) (hid : d.Alive id) :
    d.Departure (d.subtree id) (d.vacateAll (d.subtree id)) := by
  have hnd := subtree_nodup hw.forest id
  have hg := hw.alive_of_mem_subtree hid
  exact ⟨.vacateAll hnd hg, links_vacateAll hnd hg, fun _ => kind?_vacateAll hnd hg⟩

-- One detached node goes, unless it holds a part of the skeleton.
private theorem releaseOne (hw : d.WellFormed) (hid : d.Alive id) (hnone : d.parent? id = none) :
    (d.releaseEach [id]).WellFormed ∧ d.Departure (d.leaving id) (d.releaseEach [id]) := by
  unfold leaving releaseEach
  cases h : d.releasable id with
  | error e => simpa [h] using ⟨hw, Departure.refl d⟩
  | ok ids =>
      obtain ⟨-, rfl, hs⟩ := releasable_eq_ok h
      simpa [h] using ⟨hw.vacateSubtree hid hnone hs, hw.departure_subtree hid⟩

theorem releaseEach_cons (d : Document) (id : NodeId) (rest : List NodeId) :
    d.releaseEach (id :: rest) = (d.releaseEach [id]).releaseEach rest := rfl

-- Detached nodes go one by one. None of them has anything to do with the others.
theorem releaseEach (hw : d.WellFormed) (hnd : ids.Nodup)
    (h : ∀ c ∈ ids, d.Alive c ∧ d.parent? c = none) :
    (d.releaseEach ids).WellFormed ∧ d.Departure (ids.flatMap d.leaving) (d.releaseEach ids) := by
  induction ids generalizing d with
  | nil => exact ⟨hw, Departure.refl d⟩
  | cons id rest ih =>
      obtain ⟨hid, hnone⟩ := h id (by simp)
      obtain ⟨hw', hdep⟩ := hw.releaseOne hid hnone
      have hsub : ∀ {x}, x ∈ d.leaving id → d.links.Under x id := fun hx =>
        (mem_subtree_iff hw.forest).mp (leaving_subset hx)
      have hlinks := hdep.links
      have hrest : ∀ c ∈ rest, (d.releaseEach [id]).Alive c ∧
          (d.releaseEach [id]).parent? c = none ∧
          (d.releaseEach [id]).leaving c = d.leaving c := by
        intro c hc
        obtain ⟨hac, hpc⟩ := h c (List.mem_cons_of_mem id hc)
        have hne : id ≠ c := fun he => (List.nodup_cons.mp hnd).1 (he ▸ hc)
        have hkeep : ∀ x, d.links.Under x c → x ∉ d.leaving id := by
          intro x hxc hx
          rcases (hsub hx).total hxc with hu | hu
          · exact hne (hu.eq_of_parent_none hnone)
          · exact hne (hu.eq_of_parent_none hpc).symm
        have hac' : (d.releaseEach [id]).Alive c :=
          (hdep.turnover.alive_iff c).mpr ⟨Or.inl hac, hkeep c (Links.Under.refl _ c)⟩
        refine ⟨hac', ?_, leaving_congr hac.1 hac'.1 (subtree_congr hw.forest hw'.forest ?_)⟩
        · have hp : (d.releaseEach [id]).parent? c =
              if c ∈ d.leaving id then none else d.parent? c :=
            parent?_of_links hlinks c
          rw [hp, hpc, ite_self]
        · intro x hx
          have hc' : (d.releaseEach [id]).children x =
              if x ∈ d.leaving id then [] else d.children x :=
            children_of_links hlinks x
          rw [hc', if_neg (hkeep x hx)]
      obtain ⟨hw'', hdep'⟩ := ih hw' (List.nodup_cons.mp hnd).2
        fun c hc => ⟨(hrest c hc).1, (hrest c hc).2.1⟩
      have hsame : rest.flatMap (d.releaseEach [id]).leaving = rest.flatMap d.leaving :=
        List.flatMap_congr fun c hc => (hrest c hc).2.2
      rw [releaseEach_cons, List.flatMap_cons]
      refine ⟨hw'', hdep.trans (hsame ▸ hdep') fun x hx => ?_⟩
      obtain ⟨c, hc, hxc⟩ := List.mem_flatMap.mp hx
      exact hw.alive_of_mem_subtree (h c (List.mem_cons_of_mem id hc)).1 x (leaving_subset hxc)

end WellFormed

-- A new text node becomes the last child, unless there is no text to put in it.
structure Filled (d : Document) (id : NodeId) (text : String) (d' : Document) : Prop where
  wellFormed : d'.WellFormed
  turnover : d.Turnover (d.arrivals text) [] d'
  parent? : ∀ x, d'.parent? x = if x ∈ d.arrivals text then some id else d.parent? x
  children : ∀ x, d'.children x =
    if x = id then d.children id ++ d.arrivals text else d.children x
  kind? : ∀ x, d'.kind? x = if x ∈ d.arrivals text then some (.text text) else d.kind? x

theorem fill_eq (d : Document) (id : NodeId) {text : String} (h : text ≠ "") :
    d.fill id text = ((Document.create (.text text) d).document.link id d.nextId, [d.nextId]) := by
  obtain ⟨hr, -⟩ := create_result (.text text) d
  unfold fill createText
  rw [if_neg h]
  cases hc : Document.create (.text text) d with
  | mk result document changes =>
      rw [hc] at hr
      simp only at hr
      subst hr
      rfl

theorem snd_fill (d : Document) (id : NodeId) (text : String) :
    (d.fill id text).2 = d.arrivals text := by
  by_cases h : text = ""
  · simp [fill, arrivals, h]
  · rw [fill_eq d id h, arrivals, if_neg h]

theorem WellFormed.fill (hw : d.WellFormed) (hid : d.Alive id) (ht : d.isText id = false)
    (text : String) : d.Filled id text (d.fill id text).1 := by
  by_cases htext : text = ""
  · have hnil : d.arrivals text = [] := if_pos htext
    have hfill : (d.fill id text).1 = d := by simp [Document.fill, htext]
    rw [hfill]
    constructor
    · exact hw
    · exact hnil ▸ .refl d
    · simp [hnil]
    · intro x
      by_cases hx : x = id <;> simp [hnil, hx]
    · simp [hnil]
  · have hnew : d.arrivals text = [d.nextId] := if_neg htext
    have hv := hw.vacancies
    have hne : ∀ x, d.Alive x → x ≠ d.nextId := by
      rintro x ha rfl
      exact d.not_alive_nextId ha
    have hw' : (Document.create (.text text) d).document.WellFormed :=
      hw.create (by simp) (by simp [NodeKind.names])
    have hlinks : (Document.create (.text text) d).document.links = d.links := links_create hv
    have hid' : (Document.create (.text text) d).document.Alive id :=
      (alive_create hv id).mpr (Or.inl hid)
    have hnext : (Document.create (.text text) d).document.Alive d.nextId :=
      (alive_create hv d.nextId).mpr (Or.inr rfl)
    have hnone := (parent?_of_links hlinks d.nextId).trans (unlinked_nextId hv).1
    have hnil := (children_of_links hlinks d.nextId).trans (unlinked_nextId hv).2
    have hl := links_link hid'.1 hnext.1
    rw [hlinks] at hl
    rw [fill_eq d id htext]
    constructor
    · refine hw'.link hid' hnext ?_ ?_ hnone ?_
      · simpa [isText, kind?_create hv, hne id hid] using ht
      · exact (hne root (hw.skeleton_alive root (by simp [skeleton]))).symm
      · exact fun hu => hne id hid (hw'.forest.eq_of_children_nil hu hnil)
    · rw [hnew]
      exact (Turnover.create hv _).trans_sameTenants sameTenants_link
    · intro x
      rw [hnew]
      simpa [Links.attach, links] using parent?_of_links hl x
    · intro x
      rw [hnew]
      exact children_of_links hl x
    · intro x
      rw [kind?_link, kind?_create hv, hnew]
      simp

section Target

variable {node : Slot} {text : String} {target : NodeId}

theorem isText_iff : d.isText x = true ↔ ∃ data, d.kind? x = some (.text data) := by
  unfold isText
  cases d.kind? x with
  | none => simp
  | some k => cases k <;> simp [NodeKind.isText]

theorem isText_of_node? (hn : d.node? id = some node) : d.isText id = node.kind.isText := by
  simp [isText, kind?_of_node? hn]

-- The data that a text replaces is that of the node itself or that of its only child.
theorem textTarget?_eq_some (hn : d.node? id = some node)
    (ht : d.textTarget? id node text = some target) :
    (target = id ∧ d.isText id = true) ∨
      (text ≠ "" ∧ d.isText id = false ∧ d.children id = [target] ∧ d.isText target = true) := by
  rw [isText_of_node? hn, children_of_node? hn]
  unfold textTarget? at ht
  split at ht
  · rename_i data hkind
    exact Or.inl ⟨(Option.some.inj ht).symm, by simp [hkind, NodeKind.isText]⟩
  · rename_i only hchildren hno
    split at ht
    · rename_i hone
      obtain rfl := Option.some.inj ht
      have htext : node.kind.isText = false := by
        cases hkind : node.kind <;> simp_all [NodeKind.isText]
      exact Or.inr ⟨hone.1, htext, hchildren, hone.2⟩
    · simp at ht
  · simp at ht

theorem kind?_of_textTarget? (hn : d.node? id = some node)
    (ht : d.textTarget? id node text = some target) :
    ∃ data, d.kind? target = some (.text data) := by
  rcases textTarget?_eq_some hn ht with ⟨rfl, htext⟩ | ⟨-, -, -, htext⟩
  · exact isText_iff.mp htext
  · exact isText_iff.mp htext

theorem isText_of_textTarget?_none (ht : d.textTarget? id node text = none) :
    node.kind.isText = false := by
  cases hk : node.kind with
  | text data => simp [textTarget?, hk] at ht
  | _ => rfl

theorem eq_empty_of_textTarget?_none (hn : d.node? id = some node)
    (ht : d.textTarget? id node text = none) {only : NodeId} (hchildren : d.children id = [only])
    (honly : d.isText only = true) : text = "" := by
  by_contra htext
  rw [children_of_node? hn] at hchildren
  unfold textTarget? at ht
  split at ht
  · simp at ht
  · rename_i other hother _
    obtain rfl : only = other := by simpa [hchildren] using hother
    simp [htext, honly] at ht
  · rename_i _ hno
    exact hno only hchildren

end Target

theorem SameTenants.arrivals (h : d.SameTenants d') (text : String) :
    d'.arrivals text = d.arrivals text := by
  have hsize : d'.slots.size = d.slots.size := h.allocated
  unfold Document.arrivals nextId
  simp only [h.free, hsize, h.generationAt]

-- A new text takes the place of the children. They are detached at least, and those that hold no
-- part of the skeleton are gone with all that is below them.
structure Refilled (d : Document) (id : NodeId) (text : String) (d' : Document) : Prop where
  wellFormed : d'.WellFormed
  turnover : d.Turnover (d.arrivals text) (d.goneBelow id) d'
  parent? : ∀ x, d'.parent? x = if x ∈ d.arrivals text then some id
    else if x ∈ d.children id ∨ x ∈ d.goneBelow id then none else d.parent? x
  children : ∀ x, d'.children x = if x = id then d.arrivals text
    else if x ∈ d.goneBelow id then [] else d.children x
  kind? : ∀ x, d'.Alive x →
    d'.kind? x = if x ∈ d.arrivals text then some (.text text) else d.kind? x

-- The data of a text node is replaced, and nothing else changes.
structure Reworded (d : Document) (target : NodeId) (text : String) (d' : Document) : Prop where
  wellFormed : d'.WellFormed
  sameTenants : d.SameTenants d'
  links : d'.links = d.links
  wasText : d.isText target
  kind? : ∀ x, d'.kind? x = if x = target then some (.text text) else d.kind? x

namespace WellFormed

theorem under_of_mem_goneBelow (hw : d.WellFormed) (hx : x ∈ d.goneBelow id) :
    ∃ c ∈ d.children id, d.links.Under x c := by
  obtain ⟨c, hc, hxc⟩ := List.mem_flatMap.mp hx
  exact ⟨c, hc, (mem_subtree_iff hw.forest).mp (leaving_subset hxc)⟩

theorem alive_of_mem_goneBelow (hw : d.WellFormed) (hx : x ∈ d.goneBelow id) : d.Alive x := by
  obtain ⟨c, hc, hu⟩ := hw.under_of_mem_goneBelow hx
  exact hw.alive_of_under hu (hw.alive_of_parent? (hw.forest.parent_of_mem hc)).1

theorem not_mem_goneBelow (hw : d.WellFormed) (id : NodeId) : id ∉ d.goneBelow id := by
  intro hx
  obtain ⟨c, hc, hu⟩ := hw.under_of_mem_goneBelow hx
  exact hw.forest.not_under_of_parent (hw.forest.parent_of_mem hc) hu

theorem not_mem_arrivals (hx : d.Alive x) (text : String) : x ∉ d.arrivals text := by
  unfold arrivals
  split
  · simp
  · rw [List.mem_singleton]
    rintro rfl
    exact d.not_alive_nextId hx

-- Most nodes that go have been detached, the new text node has joined, and nobody else noticed.
private theorem refilled_of_departure (hw : d.WellFormed) {stripped filled : Document}
    {text : String} (hsame : d.SameTenants stripped)
    (hkind : ∀ x, stripped.kind? x = d.kind? x)
    (hlinks : stripped.links = d.links.detach id (d.children id))
    (hfill : stripped.Filled id text filled) (hw' : d'.WellFormed)
    (hdep : filled.Departure (d.goneBelow id) d') : d.Refilled id text d' := by
  have harr := hsame.arrivals text
  have hparent := parent?_of_links hlinks
  have hchildren := children_of_links hlinks
  have hparent' := parent?_of_links hdep.links
  have hchildren' := children_of_links hdep.links
  have hturn := harr ▸ hfill.turnover
  constructor
  · exact hw'
  · exact (hturn.sameTenants_trans hsame).trans_left hdep.turnover
      fun x => hw.alive_of_mem_goneBelow
  · intro x
    have hx : d'.parent? x = if x ∈ d.goneBelow id then none else filled.parent? x := hparent' x
    have hxs : stripped.parent? x = if x ∈ d.children id then none else d.parent? x := hparent x
    rw [hx, hfill.parent?, harr, hxs]
    by_cases hnew : x ∈ d.arrivals text
    · have hgone : x ∉ d.goneBelow id := fun hm =>
        not_mem_arrivals (hw.alive_of_mem_goneBelow hm) text hnew
      simp [hnew, hgone]
    · by_cases hgone : x ∈ d.goneBelow id <;> simp [hnew, hgone]
  · intro x
    have hx : d'.children x = if x ∈ d.goneBelow id then [] else filled.children x :=
      hchildren' x
    have hnone : (d.children id).filter (· ∉ d.children id) = [] := by
      simp [List.filter_eq_nil_iff]
    have hxs : stripped.children x = if x = id then [] else d.children x := by
      have h := hchildren x
      simpa only [Links.detach, links, hnone] using h
    have hid : stripped.children id = [] := by
      have h := hchildren id
      simpa only [Links.detach, links, hnone, ite_true] using h
    rw [hx, hfill.children, harr, hxs, hid]
    by_cases hxi : x = id
    · simp [hxi, hw.not_mem_goneBelow id]
    · simp [hxi]
  · intro x ha
    rw [hdep.kind? x ha, hfill.kind?, harr, hkind]

theorem replaceChildren_eq (id : NodeId) (removed : List NodeId) (text : String) (d : Document) :
    let filled := (d.strip id removed).fill id text
    Document.replaceChildren id removed text d =
      ⟨.ok (), filled.1.releaseEach removed,
        if removed = [] ∧ filled.2 = [] then []
        else [⟨⟨id, .children filled.2 removed⟩, filled.1⟩]⟩ := by
  unfold Document.replaceChildren
  dsimp only
  split
  · rename_i h
    rw [h.1]
    rfl
  · rfl

-- First the new text node takes the place of the children, and then the children go.
theorem refill_steps (hw : d.WellFormed) (hid : d.Alive id) (ht : d.isText id = false)
    (text : String) :
    let stripped := d.strip id (d.children id)
    let filled := stripped.fill id text
    let emptied := filled.1.releaseEach (d.children id)
    stripped.Filled id text filled.1 ∧ filled.2 = d.arrivals text ∧ emptied.WellFormed ∧
      filled.1.Departure (d.goneBelow id) emptied := by
  intro stripped filled emptied
  have hlinks : stripped.links = d.links.detach id (d.children id) := hw.links_strip hid.1
  have hsame : d.SameTenants stripped := sameTenants_strip
  have hid' := (hsame.alive_iff id).mpr hid
  have ht' : stripped.isText id = false := by
    simpa [stripped, isText, kind?_strip] using ht
  have hfill : stripped.Filled id text filled.1 := (hw.strip hid.1).fill hid' ht' text
  have hkeep : ∀ c ∈ d.children id, filled.1.Alive c ∧ filled.1.parent? c = none ∧
      filled.1.leaving c = d.leaving c := by
    intro c hc
    have hp := hw.forest.parent_of_mem hc
    have hac := (hsame.alive_iff c).mpr (hw.alive_of_parent? hp).1
    have hac' : filled.1.Alive c := (hfill.turnover.alive_iff c).mpr ⟨Or.inl hac, by simp⟩
    refine ⟨hac', ?_, leaving_congr (hw.alive_of_parent? hp).1.1 hac'.1
      (subtree_congr hw.forest hfill.wellFormed.forest fun x hx => ?_)⟩
    · rw [hfill.parent? c, if_neg (not_mem_arrivals hac text)]
      exact parent?_of_detach hlinks hc
    · have hxi : x ≠ id := by
        rintro rfl
        exact hw.forest.not_under_of_parent hp hx
      rw [hfill.children x, if_neg hxi]
      exact children_of_detach hlinks hxi
  have hnd : (d.children id).Nodup := hw.forest.nodup id
  obtain ⟨hw', hdep⟩ := hfill.wellFormed.releaseEach hnd
    fun c hc => ⟨(hkeep c hc).1, (hkeep c hc).2.1⟩
  rw [List.flatMap_congr fun c hc => (hkeep c hc).2.2] at hdep
  exact ⟨hfill, (snd_fill stripped id text).trans (hsame.arrivals text), hw', hdep⟩

theorem refill (hw : d.WellFormed) (hid : d.Alive id) (ht : d.isText id = false)
    (text : String) :
    let edited := Document.replaceChildren id (d.children id) text d
    d.Refilled id text edited.document ∧
      edited.changes.flatMap (·.record.added) = d.arrivals text := by
  intro edited
  obtain ⟨hfill, hnew, hw', hdep⟩ := hw.refill_steps hid ht text
  have he : edited = _ := replaceChildren_eq id (d.children id) text d
  rw [he]
  refine ⟨hw.refilled_of_departure sameTenants_strip kind?_strip (hw.links_strip hid.1) hfill hw'
    hdep, ?_⟩
  dsimp only
  split
  · rename_i hnil
    simp [← hnew, hnil.2]
  · simpa [Record.added] using hnew

private theorem reword (hw : d.WellFormed) {target : NodeId} {data : String}
    (hk : d.kind? target = some (.text data)) (text : String) :
    d.Reworded target text (d.modifySlot target.index ({ · with kind := .text text })) := by
  obtain ⟨tenant, hn⟩ := Option.isSome_iff_exists.mp (isSome_of_kind? hk)
  have htk : tenant.kind = .text data := by simpa [kind?_of_node? hn] using hk
  constructor
  · exact hw.rekind hn (by simp [htk, NodeKind.isText]) (by simp [htk, NodeKind.isElement])
      (by simp [NodeKind.names])
  · exact sameTenants_modifySlot fun _ => rfl
  · exact links_modifyKind _
  · simp [isText, hk, NodeKind.isText]
  · exact kind?_modifyKind (isSome_of_kind? hk) (.text text)

-- The three things that setting a text may come to.
theorem setText_cases (hw : d.WellFormed) (id : NodeId) (text : String) :
    let edited := Document.setText id text d
    (d.node? id = none ∧ edited = ⟨.ok (), d, []⟩) ∨
    (∃ node target, d.node? id = some node ∧ d.textTarget? id node text = some target ∧
      d.Reworded target text edited.document ∧
      edited = ⟨.ok (), edited.document,
        [⟨⟨target, .text ((d.textData? target).getD "")⟩, edited.document⟩]⟩) ∨
    (d.Alive id ∧ d.isText id = false ∧
      (∃ node, d.node? id = some node ∧ d.textTarget? id node text = none) ∧
      d.Refilled id text edited.document ∧
      edited = Document.replaceChildren id (d.children id) text d) := by
  intro edited
  cases hid : d.node? id with
  | none => exact Or.inl ⟨rfl, by simp [edited, Document.setText, hid]⟩
  | some node =>
      cases htarget : d.textTarget? id node text with
      | some target =>
          obtain ⟨data, hk⟩ := kind?_of_textTarget? hid htarget
          have hr := hw.reword hk text
          have he : edited = ⟨.ok (), d.modifySlot target.index ({ · with kind := .text text }),
              [⟨⟨target, .text ((d.textData? target).getD "")⟩,
                d.modifySlot target.index ({ · with kind := .text text })⟩]⟩ := by
            simp [edited, Document.setText, hid, htarget]
          have hdoc := congrArg Edited.document he
          refine Or.inr (Or.inl ⟨node, target, rfl, htarget, hdoc ▸ hr, ?_⟩)
          rw [hdoc]
          exact he
      | none =>
          have ht := isText_of_textTarget?_none htarget
          have hkind := kind?_of_node? hid
          have ha := hw.alive_of_kind? hkind ht
          have ht' := (isText_of_kind? hkind).trans ht
          have he : edited = Document.replaceChildren id (d.children id) text d := by
            simp [edited, Document.setText, hid, htarget, children_of_node? hid]
          refine Or.inr (Or.inr ⟨ha, ht', ⟨node, rfl, htarget⟩, ?_, he⟩)
          rw [he]
          exact (hw.refill ha ht' text).1

theorem setText (hw : d.WellFormed) (id : NodeId) (text : String) :
    let edited := Document.setText id text d
    edited.document.WellFormed ∧
      d.Turnover (edited.changes.flatMap (·.record.added)) ((d.replaced id text).flatMap d.leaving)
        edited.document := by
  intro edited
  rcases hw.setText_cases id text with ⟨hid, he⟩ | ⟨node, target, hid, ht, hr, he⟩ |
    ⟨ha, htext, ⟨node, hid, ht⟩, hr, he⟩
  · have he' : edited = ⟨.ok (), d, []⟩ := he
    simpa [he', replaced, hid] using ⟨hw, Turnover.refl d⟩
  · have hadded : edited.changes.flatMap (·.record.added) = [] := by
      have h := congrArg Edited.changes he
      simp [edited, h, Record.added]
    rw [hadded]
    simpa [replaced, hid, ht] using
      ⟨hr.wellFormed, Turnover.of_sameTenants hr.sameTenants⟩
  · have hadded : edited.changes.flatMap (·.record.added) = d.arrivals text := by
      simp only [edited, he]
      exact (hw.refill ha htext text).2
    have hgone : (d.replaced id text).flatMap d.leaving = d.goneBelow id := by
      simp [replaced, hid, ht, goneBelow, children_of_node? hid]
    rw [hadded, hgone]
    exact ⟨hr.wellFormed, hr.turnover⟩

end WellFormed

theorem node?_of_element? {e : Element} (h : d.element? id = some e) :
    ∃ node, d.node? id = some node ∧ node.kind = .element e := by
  unfold element? at h
  split at h
  · rename_i hk
    obtain ⟨node, hn⟩ := Option.isSome_iff_exists.mp (isSome_of_kind? hk)
    have he := Option.some.inj h
    exact ⟨node, hn, by simpa [kind?_of_node? hn, he] using hk⟩
  · simp at h

theorem element?_of_kind? {e : Element} (h : d.kind? id = some (.element e)) :
    d.element? id = some e := by
  simp [element?, h]

namespace WellFormed

theorem withAttributes (hw : d.WellFormed) {e : Element} (he : d.element? id = some e)
    {attributes : List (String × String)} (hn : (attributes.map Prod.fst).Nodup) :
    (d.withAttributes id e attributes).WellFormed ∧
      d.SameTenants (d.withAttributes id e attributes) := by
  obtain ⟨node, hid, hk⟩ := node?_of_element? he
  refine ⟨hw.rekind hid ?_ ?_ hn, sameTenants_modifySlot fun _ => rfl⟩
  · simp [hk, NodeKind.isText]
  · simp [hk, NodeKind.isElement]

theorem attributes_nodup (hw : d.WellFormed) {e : Element} (he : d.element? id = some e) :
    (e.attributes.map Prod.fst).Nodup := by
  obtain ⟨node, hid, hk⟩ := node?_of_element? he
  have hkind : d.kind? id = some (.element e) := by rw [kind?_of_node? hid, hk]
  exact hw.names_nodup id _ (hw.alive_of_kind? hkind rfl) hkind

theorem setAttribute (hw : d.WellFormed) (id : NodeId) (name value : String) :
    let edited := Document.setAttribute id name value d
    edited.document.WellFormed ∧ d.SameTenants edited.document := by
  cases he : d.element? id with
  | none => simpa [Document.setAttribute, he] using ⟨hw, SameTenants.refl d⟩
  | some e =>
      simpa [Document.setAttribute, he]
        using hw.withAttributes he (nodup_setEntry (hw.attributes_nodup he))

theorem removeAttribute (hw : d.WellFormed) (id : NodeId) (name : String) :
    let edited := Document.removeAttribute id name d
    edited.document.WellFormed ∧ d.SameTenants edited.document := by
  cases he : d.element? id with
  | none => simpa [Document.removeAttribute, he] using ⟨hw, SameTenants.refl d⟩
  | some e =>
      cases hl : e.attributes.lookup name with
      | none => simpa [Document.removeAttribute, he, hl] using ⟨hw, SameTenants.refl d⟩
      | some old =>
          have hsub : ((e.attributes.eraseP (·.1 = name)).map Prod.fst).Sublist
              (e.attributes.map Prod.fst) := List.Sublist.map _ List.eraseP_sublist
          simpa [Document.removeAttribute, he, hl]
            using hw.withAttributes he (List.Nodup.sublist hsub (hw.attributes_nodup he))

-- A child leaves its old place before it joins the new one, so the forest is never lost.
theorem move {old : NodeId} (hw : d.WellFormed) (hp : d.Alive parent)
    (hold : d.parent? child = some old) (ht : d.isText parent = false) (hroot : child ≠ root)
    (hn : ¬d.links.Under parent child) : ((d.unlink old child).link parent child).WellFormed := by
  obtain ⟨hc, ho⟩ := hw.alive_of_parent? hold
  have hs : d.SameTenants (d.unlink old child) := sameTenants_unlink
  have hl : (d.unlink old child).links = d.links.detach old [child] := links_unlink ho.1 hc.1
  have hnone : (d.unlink old child).parent? child = none := parent?_of_detach hl (by simp)
  have hn' : ¬(d.unlink old child).links.Under parent child := by
    rw [hl]
    exact fun h => hn (h.mono fun c p => Links.parent_of_detach)
  exact (hw.unlink hold).link ((hs.alive_iff parent).mpr hp) ((hs.alive_iff child).mpr hc)
    (by simpa [isText, kind?_unlink] using ht) hroot hnone hn'

theorem appendChild (hw : d.WellFormed) (hp : (d.node? parent).isSome → d.Alive parent)
    (hc : (d.node? child).isSome → d.Alive child) :
    let edited := Document.appendChild parent child d
    edited.document.WellFormed ∧ d.SameTenants edited.document := by
  cases hpn : d.node? parent with
  | none => simpa [Document.appendChild, hpn, Edit.fail] using ⟨hw, SameTenants.refl d⟩
  | some p =>
    cases hcn : d.node? child with
    | none => simpa [Document.appendChild, hpn, hcn, Edit.fail] using ⟨hw, SameTenants.refl d⟩
    | some c =>
      have hkp := kind?_of_node? hpn
      have hkc := kind?_of_node? hcn
      by_cases htext : p.kind.isText
      · simpa [Document.appendChild, hpn, hcn, htext, Edit.fail] using ⟨hw, SameTenants.refl d⟩
      by_cases hdoc : c.kind = .document
      · simpa [Document.appendChild, hpn, hcn, htext, hdoc, Edit.fail]
          using ⟨hw, SameTenants.refl d⟩
      by_cases hcycle : d.contains child parent
      · simpa [Document.appendChild, hpn, hcn, htext, hdoc, hcycle, Edit.fail]
          using ⟨hw, SameTenants.refl d⟩
      have hpa := hp (by simp [hpn])
      have hca := hc (by simp [hcn])
      have hroot : child ≠ root := by
        rintro rfl
        exact hdoc (Option.some.inj (hkc.symm.trans hw.root_kind))
      have htp : d.isText parent = false := by simpa [isText, hkp] using htext
      have hn : ¬d.links.Under parent child := fun h =>
        hcycle ((contains_iff hw.forest child parent).mpr h)
      cases hcp : c.parent with
      | none =>
          have hnone : d.parent? child = none := by rw [parent?_of_node? hcn, hcp]
          simpa [Document.appendChild, hpn, hcn, htext, hdoc, hcycle, hcp]
            using ⟨hw.link hpa hca htp hroot hnone hn, sameTenants_link⟩
      | some old =>
          have hold : d.parent? child = some old := by rw [parent?_of_node? hcn, hcp]
          simpa [Document.appendChild, hpn, hcn, htext, hdoc, hcycle, hcp]
            using ⟨hw.move hpa hold htp hroot hn, sameTenants_unlink.trans sameTenants_link⟩

theorem removeChild (hw : d.WellFormed) (parent child : NodeId) :
    let edited := Document.removeChild parent child d
    edited.document.WellFormed ∧ d.SameTenants edited.document := by
  by_cases hp : d.parent? child = some parent
  · simpa [Document.removeChild, hp] using ⟨hw.unlink hp, sameTenants_unlink⟩
  · simpa [Document.removeChild, hp, Edit.fail] using ⟨hw, SameTenants.refl d⟩

theorem release (hw : d.WellFormed) (hid : (d.node? id).isSome → d.Alive id) :
    let edited := Document.release id d
    edited.document.WellFormed ∧
      d.Turnover [] (if (d.parent? id).isSome then [] else d.leaving id) edited.document := by
  unfold Document.release leaving
  cases h : d.releasable id with
  | error e => simpa [Edit.fail] using ⟨hw, Turnover.refl d⟩
  | ok ids =>
      obtain ⟨hsome, rfl, hs⟩ := releasable_eq_ok h
      cases hp : d.parent? id with
      | some p => simpa [Edit.fail] using ⟨hw, Turnover.refl d⟩
      | none =>
          simpa using ⟨hw.vacateSubtree (hid hsome) hp hs,
            (hw.departure_subtree (hid hsome)).turnover⟩

-- A node that leaves its parent takes along what is below it.
theorem subtree_unlink (hw : d.WellFormed) (hp : d.parent? id = some parent) :
    (d.unlink parent id).subtree id = d.subtree id := by
  obtain ⟨hid, hpa⟩ := hw.alive_of_parent? hp
  have hl : (d.unlink parent id).links = d.links.detach parent [id] := links_unlink hpa.1 hid.1
  refine subtree_congr hw.forest (hw.unlink hp).forest fun x hx => children_of_detach hl ?_
  rintro rfl
  exact hw.forest.not_under_of_parent hp hx

-- What is released is the subtree as it was before it was detached.
theorem remove (hw : d.WellFormed) (hid : (d.node? id).isSome → d.Alive id) :
    let edited := Document.remove id d
    edited.document.WellFormed ∧ d.Turnover [] (d.leaving id) edited.document := by
  unfold Document.remove leaving
  cases h : d.releasable id with
  | error e => simpa [Edit.fail] using ⟨hw, Turnover.refl d⟩
  | ok ids =>
      obtain ⟨hsome, rfl, hs⟩ := releasable_eq_ok h
      have hida := hid hsome
      cases hp : d.parent? id with
      | none =>
          simpa using ⟨hw.vacateSubtree hida hp hs, (hw.departure_subtree hida).turnover⟩
      | some p =>
          have hw' := hw.unlink hp
          have hl : (d.unlink p id).links = d.links.detach p [id] :=
            links_unlink (hw.alive_of_parent? hp).2.1 hsome
          have hsame : d.SameTenants (d.unlink p id) := sameTenants_unlink
          have hida' := (hsame.alive_iff id).mpr hida
          have hnone : (d.unlink p id).parent? id = none := parent?_of_detach hl (by simp)
          have hsub := hw.subtree_unlink hp
          have hw'' := hw'.vacateSubtree hida' hnone (hsub.symm ▸ hs)
          have hturn := (hw'.departure_subtree hida').turnover.sameTenants_trans hsame
          rw [hsub] at hw'' hturn
          simpa [Document.removeChild, hp] using ⟨hw'', hturn⟩

end WellFormed

section Succeeds

theorem succeeds_setText (id : NodeId) (text : String) : Edit.Succeeds (setText id text) := by
  intro d
  unfold setText
  split
  · rfl
  · split
    · rfl
    · unfold replaceChildren
      dsimp only
      split <;> rfl

theorem succeeds_setAttribute (id : NodeId) (name value : String) :
    Edit.Succeeds (setAttribute id name value) := by
  intro d
  unfold setAttribute
  split <;> rfl

end Succeeds

end PageLocalizer.Document
