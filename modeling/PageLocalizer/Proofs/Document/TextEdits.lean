import PageLocalizer.Proofs.Document.Sparing
import PageLocalizer.Proofs.Document.Strangers
import PageLocalizer.Proofs.Document.TreeEdits

-- Setting the text of a node: what becomes of the node, of its former children, and of everybody
-- else.
namespace PageLocalizer.Document

-- `id` has been given a text.
structure Inscribed (d : Document) (id : NodeId) (text : String) (d' : Document) : Prop where
  textContent : d'.textContent id = text
  alive : d'.Alive id
  parent? : d'.parent? id = d.parent? id
  -- A text node gets other data, and a container stays what it is.
  kind_text : d.isText id = true → d'.kind? id = some (.text text)
  kind_container : d.isContainer id = true → d'.kind? id = d.kind? id
  children_empty : d.isContainer id = true → text = "" → d'.children id = []
  -- An only child stays, if it is a text node.
  children_text : d.isContainer id = true → text ≠ "" → ∃ t, d'.children id = [t] ∧
    d'.kind? t = some (.text text) ∧
    ∀ only, d.children id = [only] → d.isText only = true → t = only
  detached : ∀ c ∈ d.children id, c ∉ d'.children id → d'.parent? c = none
  stale_iff : ∀ c ∈ d.children id, c ∉ d'.children id → ∀ x, d.contains c x = true →
    (d'.Stale x ↔ ¬d.HoldsSkeleton c)
  elsewhere : ∀ x, d.Alive x → d.contains id x = false → d'.Alive x ∧ d'.kind? x = d.kind? x ∧
    d'.parent? x = d.parent? x ∧ d'.children x = d.children x
  allocated : d.allocated ≤ d'.allocated ∧ d'.allocated ≤ d.allocated + 1

variable {d d' : Document} {id x c target : NodeId} {ids joined left : List NodeId} {node : Slot}
  {text : String} {h : Chronicle}

section Allocated

theorem allocated_create (kind : NodeKind) (d : Document) :
    (create kind d).document.allocated = d.allocated + if d.free = [] then 1 else 0 := by
  cases hf : d.free with
  | nil => simp [create_of_full hf, allocated]
  | cons i rest =>
      rw [create_of_vacancy hf]
      exact allocated_modifySlot i _

theorem allocated_fill (d : Document) (id : NodeId) (text : String) :
    (d.fill id text).1.allocated = d.allocated + if text = "" ∨ d.free ≠ [] then 0 else 1 := by
  by_cases htext : text = ""
  · simp [fill, htext]
  · rw [fill_eq d id htext, sameTenants_link.allocated, allocated_create]
    by_cases hf : d.free = [] <;> simp [htext, hf]

theorem allocated_releaseEach : (d.releaseEach ids).allocated = d.allocated := by
  induction ids generalizing d with
  | nil => rfl
  | cons id rest ih =>
      rw [WellFormed.releaseEach_cons, ih]
      unfold releaseEach
      simp only [List.foldl_cons, List.foldl_nil]
      split <;> simp

theorem allocated_replaceChildren (id : NodeId) (removed : List NodeId) (text : String) :
    d.allocated ≤ (replaceChildren id removed text d).document.allocated ∧
      (replaceChildren id removed text d).document.allocated ≤ d.allocated + 1 := by
  have hstrip : (d.strip id removed).allocated = d.allocated := sameTenants_strip.allocated
  rw [WellFormed.replaceChildren_eq]
  simp only [allocated_releaseEach, allocated_fill, hstrip]
  split <;> omega

end Allocated

section Leaving

theorem mem_leaving_iff (hc : (d.node? c).isSome) :
    x ∈ d.leaving c ↔ x ∈ d.subtree c ∧ ¬d.HoldsSkeleton c := by
  unfold leaving
  rcases d.releasable_cases c with ⟨hr, -, hholds⟩ | ⟨⟨e, hr⟩, hstays⟩
  · simp [hr, hholds]
  · have hholds : d.HoldsSkeleton c := by
      by_contra hholds
      exact hstays ⟨hc, hholds⟩
    simp [hr, hholds]

private theorem leaving_nodup (hf : d.links.Forest) (c : NodeId) : (d.leaving c).Nodup := by
  unfold leaving
  rcases d.releasable_cases c with ⟨hr, -⟩ | ⟨⟨e, hr⟩, -⟩
  · rw [hr]
    exact subtree_nodup hf c
  · simp [hr]

-- No two children have a descendant in common.
private theorem goneBelow_nodup (hf : d.links.Forest) (id : NodeId) : (d.goneBelow id).Nodup := by
  refine List.nodup_flatMap.mpr ⟨fun c _ => leaving_nodup hf c, ?_⟩
  refine List.Nodup.pairwise_of_forall_ne (hf.nodup id) fun c hc e he hne x hxc hxe => hne ?_
  have hunder : ∀ {c}, x ∈ d.leaving c → d.links.Under x c := fun hx =>
    (mem_subtree_iff hf).mp (leaving_subset hx)
  exact hf.sibling_eq (hf.parent_of_mem hc) (hf.parent_of_mem he) (hunder hxc) (hunder hxe)

-- What is below a child goes exactly when the child does.
theorem WellFormed.mem_goneBelow_iff (hw : d.WellFormed) (hc : c ∈ d.children id)
    (hu : d.links.Under x c) : x ∈ d.goneBelow id ↔ ¬d.HoldsSkeleton c := by
  have hf := hw.forest
  have hsome := (hw.alive_of_parent? (hf.parent_of_mem hc)).1.1
  constructor
  · intro hx
    obtain ⟨e, he, hxe⟩ := List.mem_flatMap.mp hx
    have hue := (mem_subtree_iff hf).mp (leaving_subset hxe)
    obtain rfl := hf.sibling_eq (hf.parent_of_mem hc) (hf.parent_of_mem he) hu hue
    exact ((mem_leaving_iff hsome).mp hxe).2
  · intro hholds
    refine List.mem_flatMap.mpr ⟨c, hc, (mem_leaving_iff hsome).mpr ⟨?_, hholds⟩⟩
    exact (mem_subtree_iff hf).mpr hu

-- Whoever leaves once is not found any more: the slot has moved on by one generation.
theorem Turnover.unknown_of_left (ht : d.Turnover joined left d') (hnd : left.Nodup)
    (hx : x ∈ left) : d'.node? x = none := by
  have hcount : (left.map (·.index)).count x.index = 1 :=
    List.count_eq_one_of_mem (index_nodup hnd ht.left) (List.mem_map_of_mem hx)
  have hgen := ht.generationAt x.index
  obtain ⟨old, hold⟩ := Option.isSome_iff_exists.mp (ht.left x hx).1
  rw [generationAt_of_node? hold, hcount] at hgen
  cases hn : d'.node? x with
  | none => rfl
  | some node =>
      rw [generationAt_of_node? hn] at hgen
      simp at hgen

end Leaving

section Refilled

variable (hr : d.Refilled id text d') (hw : d.WellFormed)

include hr

theorem Refilled.alive_of_not_gone (hx : d.Alive x) (hg : x ∉ d.goneBelow id) : d'.Alive x :=
  (hr.turnover.alive_iff x).mpr ⟨Or.inl hx, hg⟩

include hw

theorem Refilled.unknown_iff (hx : d.Alive x) : d'.node? x = none ↔ x ∈ d.goneBelow id := by
  refine ⟨fun hnone => ?_, hr.turnover.unknown_of_left (goneBelow_nodup hw.forest id)⟩
  by_contra hg
  have hsome := (hr.alive_of_not_gone hx hg).1
  simp [hnone] at hsome

theorem Refilled.elsewhere (hx : d.Alive x) (hout : ¬d.links.Under x id) : d'.Alive x ∧
    d'.kind? x = d.kind? x ∧ d'.parent? x = d.parent? x ∧ d'.children x = d.children x := by
  have hf := hw.forest
  have hnew := WellFormed.not_mem_arrivals hx text
  have hgone : x ∉ d.goneBelow id := by
    intro hg
    obtain ⟨c, hc, hu⟩ := hw.under_of_mem_goneBelow hg
    exact hout (hu.trans (Links.under_of_parent (hf.parent_of_mem hc)))
  have hchild : x ∉ d.children id := fun hc =>
    hout (Links.under_of_parent (hf.parent_of_mem hc))
  have hne : x ≠ id := by
    rintro rfl
    exact hout (.refl _ x)
  have ha := hr.alive_of_not_gone hx hgone
  refine ⟨ha, ?_, ?_, ?_⟩
  · rw [hr.kind? x ha, if_neg hnew]
  · rw [hr.parent?, if_neg hnew, if_neg (not_or.mpr ⟨hchild, hgone⟩)]
  · rw [hr.children, if_neg hne, if_neg hgone]

-- The new text node, where there is one.
theorem Refilled.kind?_nextId (hne : text ≠ "") : d'.kind? d.nextId = some (.text text) := by
  have harr : d.arrivals text = [d.nextId] := if_neg hne
  have hjoined : d'.Alive d.nextId := by
    refine (hr.turnover.alive_iff _).mpr ⟨Or.inr (by simp [harr]), fun hg => ?_⟩
    exact d.not_alive_nextId (hw.alive_of_mem_goneBelow hg)
  rw [hr.kind? _ hjoined, if_pos (by simp [harr])]

end Refilled

section Inscribed

theorem Reworded.inscribed (hr : d.Reworded target text d') (hw : d.WellFormed) (ha : d.Alive id)
    (hn : d.node? id = some node) (htarget : d.textTarget? id node text = some target)
    (htext : d'.textContent id = text) : d.Inscribed id text d' := by
  have hchildren := children_of_links hr.links
  have hcases := textTarget?_eq_some hn htarget
  have hkept : ∀ c ∈ d.children id, c ∈ d'.children id := fun c hc => (hchildren id).symm ▸ hc
  constructor
  · exact htext
  · exact (hr.sameTenants.alive_iff id).mpr ha
  · exact parent?_of_links hr.links id
  · intro hid
    rcases hcases with ⟨rfl, -⟩ | ⟨-, hno, -⟩
    · rw [hr.kind?, if_pos rfl]
    · simp [hno] at hid
  · intro hcon
    have hne : id ≠ target := by
      rintro rfl
      have hwas := hr.wasText
      simp [isText_of_isContainer hcon] at hwas
    rw [hr.kind?, if_neg hne]
  · intro hcon hnil
    rcases hcases with ⟨-, hid⟩ | ⟨hne, -⟩
    · simp [isText_of_isContainer hcon] at hid
    · exact absurd hnil hne
  · intro hcon _
    rcases hcases with ⟨-, hid⟩ | ⟨-, -, honly, -⟩
    · simp [isText_of_isContainer hcon] at hid
    · refine ⟨target, (hchildren id).trans honly, by rw [hr.kind?, if_pos rfl], fun only hc _ => ?_⟩
      simpa using honly.symm.trans hc
  · exact fun c hc hout => absurd (hkept c hc) hout
  · exact fun c hc hout => absurd (hkept c hc) hout
  · intro x hx hout
    have hne : x ≠ target := by
      rintro rfl
      have hin := (contains_iff hw.forest id x).mpr (under_of_textTarget? hw.forest hn htarget)
      simp [hin] at hout
    refine ⟨(hr.sameTenants.alive_iff x).mpr hx, ?_, parent?_of_links hr.links x, hchildren x⟩
    rw [hr.kind?, if_neg hne]
  · rw [hr.sameTenants.allocated]
    omega

theorem Refilled.inscribed (hr : d.Refilled id text d') (hw : d.WellFormed) (ha : d.Alive id)
    (hn : d.node? id = some node) (htarget : d.textTarget? id node text = none)
    (htext : d'.textContent id = text)
    (hsize : d.allocated ≤ d'.allocated ∧ d'.allocated ≤ d.allocated + 1) :
    d.Inscribed id text d' := by
  have hf := hw.forest
  have hno : d.isText id = false := (isText_of_node? hn).trans (isText_of_textTarget?_none htarget)
  have hid := hw.not_mem_goneBelow id
  have hnew := WellFormed.not_mem_arrivals ha text
  have ha' := hr.alive_of_not_gone ha hid
  have hchildren := hr.children id
  rw [if_pos rfl] at hchildren
  have hchild : ∀ {c}, c ∈ d.children id → d.Alive c := fun hc =>
    (hw.alive_of_parent? (hf.parent_of_mem hc)).1
  constructor
  · exact htext
  · exact ha'
  · rw [hr.parent?, if_neg hnew, if_neg]
    rintro (hc | hg)
    · exact hf.not_under_of_parent (hf.parent_of_mem hc) (.refl _ id)
    · exact hid hg
  · intro ht
    simp [hno] at ht
  · intro _
    rw [hr.kind? id ha', if_neg hnew]
  · intro _ hnil
    simpa [arrivals, hnil] using hchildren
  · intro _ hne
    refine ⟨d.nextId, hchildren.trans (if_neg hne), hr.kind?_nextId hw hne, fun only hc hkind => ?_⟩
    exact absurd (eq_empty_of_textTarget?_none hn htarget hc hkind) hne
  · intro c hc _
    rw [hr.parent?, if_neg (WellFormed.not_mem_arrivals (hchild hc) text), if_pos (Or.inl hc)]
  · intro c hc _ x hx
    have hu := (contains_iff hf c x).mp hx
    rw [hr.wellFormed.stale_iff, hr.unknown_iff hw (hw.alive_of_under hu (hchild hc)),
      hw.mem_goneBelow_iff hc hu]
  · intro x hx hout
    exact hr.elsewhere hw hx fun hu => by simp [(contains_iff hf id x).mpr hu] at hout
  · exact hsize

theorem WellFormed.inscribed_setText (hw : d.WellFormed) (ha : d.Alive id) (text : String) :
    d.Inscribed id text (Document.setText id text d).document := by
  rcases hw.setText_cases id text with ⟨hn, -⟩ | ⟨node, target, hn, htarget, hr, -⟩ |
    ⟨-, ht, ⟨node, hn, htarget⟩, hr, he⟩
  · have hsome := ha.1
    simp [hn] at hsome
  · refine hr.inscribed hw ha hn htarget ?_
    rcases textTarget?_eq_some hn htarget with ⟨rfl, -⟩ | ⟨-, ht, honly, -⟩
    · simp [Document.textContent, hr.kind?]
    · have hmem : target ∈ d.children id := by simp [honly]
      exact hw.textContent_setText (hw.isContainer_of_mem_children hmem) text
  · have hcon : d.isContainer id = true :=
      isContainer_iff.mpr ⟨node.kind, kind?_of_node? hn, by rwa [← isText_of_node? hn]⟩
    refine hr.inscribed hw ha hn htarget (hw.textContent_setText hcon text) ?_
    rw [he]
    exact allocated_replaceChildren id _ text

end Inscribed

-- Setting the text of a node that lives always succeeds, whatever is below it.
theorem inscribed_of_recorded (hr : Chronicle.Recorded h) (hid : h.Lives id) (text : String) :
    (setText id text h.document).result = .ok () ∧
      h.document.Inscribed id text (setText id text h.document).document := by
  have hs := Chronicle.sound_of_recorded hr
  have ha := (hs.alive_iff id).mpr hid
  refine ⟨?_, hs.wellFormed.inscribed_setText ha text⟩
  exact succeeds_setText id text h.document

-- A page with its head below an element of the body, beside another child.
def Chronicle.sheltered : Chronicle := nested.after (.appendChild ⟨5, 0⟩ head)

-- The head is detached with all that it holds, and the other child is gone.
theorem inscribed_sheltered :
    Chronicle.Recorded Chronicle.sheltered ∧ Chronicle.sheltered.Lives ⟨5, 0⟩ ∧
    Chronicle.sheltered.document.children ⟨5, 0⟩ = [⟨7, 0⟩, head] ∧
    let after := (setText ⟨5, 0⟩ "x" Chronicle.sheltered.document).document
    Chronicle.sheltered.document.Inscribed ⟨5, 0⟩ "x" after ∧
      after.children ⟨5, 0⟩ = [⟨8, 0⟩] ∧ after.Stale ⟨7, 0⟩ ∧
      after.parent? head = none ∧ after.children head = [title] := by
  have hr : Chronicle.Recorded Chronicle.sheltered :=
    .step _ Chronicle.recorded_nested (by decide) (Chronicle.releases_lt_of_length (by decide))
  have hid : Chronicle.sheltered.Lives ⟨5, 0⟩ := ⟨by decide, by decide⟩
  have hset := (inscribed_of_recorded hr hid "x").2
  refine ⟨hr, hid, by decide, hset, by decide, ?_, by decide, by decide⟩
  refine (hset.stale_iff ⟨7, 0⟩ (by decide) (by decide) ⟨7, 0⟩ (by decide)).mpr ?_
  rintro ⟨x, hx, hreach⟩
  have hnone : ∀ y ∈ skeleton, y ∉ Chronicle.sheltered.document.subtree ⟨7, 0⟩ := by decide
  exact hnone x hx (mem_subtree_iff_reaches.mpr hreach)

end PageLocalizer.Document
