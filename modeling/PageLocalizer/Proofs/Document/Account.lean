import PageLocalizer.Proofs.Document.Writes

-- Which writes each operation consists of, and that it tells of them one by one.
namespace PageLocalizer.Document

-- Whether `child` can become a child of `parent`.
def admits (d : Document) (parent child : NodeId) : Bool :=
  d.isContainer parent && (d.isElement child || d.isText child) && !d.contains child parent

-- A text replaces the data of a text node, be it the node itself or its only child. Else it
-- replaces all children at once, which is one write, if there is anything to replace.
def textWrites (d : Document) (id : NodeId) (text : String) : List Write :=
  if d.isText id then [.text id text]
  else if d.isContainer id then
    match d.children id with
    | [] => if text = "" then [] else [.children id [] (d.arrivals text)]
    | [only] =>
      if text ≠ "" ∧ d.isText only then [.text only text]
      else [.children id [only] (d.arrivals text)]
    | first :: second :: rest => [.children id (first :: second :: rest) (d.arrivals text)]
  else []

namespace Operation

-- A child that moves leaves its parent before it joins the new one. A node that is released leaves
-- its parent before that. A value that is set counts as written even if it was there.
def writes (d : Document) : Operation → List Write
  | .appendChild parent child =>
    if d.admits parent child then
      match d.parent? child with
      | some old => [.children old [child] [], .children parent [] [child]]
      | none => [.children parent [] [child]]
    else []
  | .removeChild parent child =>
    if d.parent? child = some parent then [.children parent [child] []] else []
  | .remove id =>
    match d.releasable id, d.parent? id with
    | .ok _, some parent => [.children parent [id] []]
    | _, _ => []
  | .setAttribute id name value =>
    if d.isElement id then [.attribute id name (some value)] else []
  | .removeAttribute id name =>
    if (d.attribute? id name).isSome then [.attribute id name none] else []
  | .setText id text => d.textWrites id text
  | .setTitle text => d.textWrites title text
  | .createElement _ | .createText _ | .release _ | .observe _ | .disconnect _ => []

end Operation

-- What is told of an operation is its writes. Their targets keep their place all the while, so
-- whoever has a target below when the operation begins has it below when its write is told, and
-- when the operation is done.
structure Accounted (d : Document) (ws : List Write) (edited : Edited α) : Prop where
  account : Account d ws edited.changes edited.document
  seen : ∀ c ∈ edited.changes, ∀ a,
    c.seen.links.Under c.record.target a ↔ d.links.Under c.record.target a
  after : ∀ c ∈ edited.changes, ∀ a, d.Alive a → edited.document.Alive a →
    (edited.document.links.Under c.record.target a ↔ d.links.Under c.record.target a)

variable {d d' seen : Document} {id x a parent child old : NodeId} {w : Write} {text : String}
  {edit : Edit α}

theorem accounted_quiet {result : Except EditError α} (hq : d.Quiet d') :
    Accounted d [] ⟨result, d', []⟩ where
  account := .done hq
  seen := by simp
  after := by simp

-- A single write, after which nodes may go.
theorem accounted_write {result : Except EditError α} {r : Record} (hr : w.record d = r)
    (hm : Made d w seen) (hq : seen.Quiet d') : Accounted d [w] ⟨result, d', [⟨r, seen⟩]⟩ where
  account := hr ▸ .write hm (.done hq)
  seen c hcm a := by
    rw [List.mem_singleton.mp hcm, ← hr, w.target_record]
    exact hm.scope a
  after c hcm a ha ha' := by
    rw [List.mem_singleton.mp hcm, ← hr, w.target_record]
    exact (hq.under_iff hm.wellFormed ((hm.alive_iff a).mpr (Or.inl ha)) ha').trans (hm.scope a)

theorem Accounted.giving {ws : List Write} {f : α → List NodeId}
    (h : Accounted d ws (edit d)) : Accounted d ws (edit.giving f d) := ⟨h.1, h.2, h.3⟩

section Append

theorem admits_iff (hw : d.WellFormed) : d.admits parent child = true ↔
    d.isContainer parent = true ∧ (d.isElement child = true ∨ d.isText child = true) ∧
      ¬d.links.Under parent child := by
  rw [← contains_iff hw.forest]
  simp [admits, and_assoc]

theorem appendChild_of_not_admits (h : d.admits parent child = false) :
    ∃ e, appendChild parent child d = ⟨.error e, d, []⟩ := by
  unfold appendChild
  split
  · rename_i p c hp hc
    have hkp := kind?_of_node? hp
    have hkc := kind?_of_node? hc
    split_ifs with ht hd hcycle
    · exact ⟨_, rfl⟩
    · exact ⟨_, rfl⟩
    · exact ⟨_, rfl⟩
    · have hcon : d.isContainer parent = true :=
        isContainer_iff.mpr ⟨p.kind, hkp, by simpa using ht⟩
      have hkind : (d.isElement child || d.isText child) = true := by
        cases hk : c.kind <;> simp_all [isElement, isText, NodeKind.isElement, NodeKind.isText]
      rw [admits, hcon, hkind] at h
      simp [hcycle] at h
  · exact ⟨_, rfl⟩

theorem appendChild_of_admits (h : d.admits parent child = true) :
    appendChild parent child d =
      match d.parent? child with
      | some old => ⟨.ok (), (d.unlink old child).link parent child,
          [⟨⟨old, .children [] [child]⟩, d.unlink old child⟩,
            ⟨⟨parent, .children [child] []⟩, (d.unlink old child).link parent child⟩]⟩
      | none => ⟨.ok (), d.link parent child,
          [⟨⟨parent, .children [child] []⟩, d.link parent child⟩]⟩ := by
  simp only [admits, Bool.and_eq_true, Bool.or_eq_true, Bool.not_eq_true'] at h
  obtain ⟨⟨hcon, hkind⟩, hcycle⟩ := h
  obtain ⟨k, hkp, htp⟩ := isContainer_iff.mp hcon
  obtain ⟨p, hp⟩ := Option.isSome_iff_exists.mp (isSome_of_kind? hkp)
  have hpk : p.kind = k := Option.some.inj ((kind?_of_node? hp).symm.trans hkp)
  have hsome : (d.node? child).isSome := by
    cases hn : d.node? child with
    | some c => rfl
    | none => simp [isElement, isText, kind?_of_unknown hn] at hkind
  obtain ⟨c, hc⟩ := Option.isSome_iff_exists.mp hsome
  have hkc := kind?_of_node? hc
  have hdoc : c.kind ≠ .document := by
    intro hk
    rw [hk] at hkc
    simp [isElement, isText, hkc, NodeKind.isElement, NodeKind.isText] at hkind
  have hparent : d.parent? child = c.parent := parent?_of_node? hc
  rw [hparent]
  unfold appendChild
  rw [hp, hc]
  simp only [hpk, htp, hdoc, hcycle, Bool.false_eq_true, ite_false]
  cases c.parent <;> rfl

theorem WellFormed.alive_of_admits (hw : d.WellFormed) (h : d.admits parent child = true)
    (hp : (d.node? parent).isSome → d.Alive parent) (hc : (d.node? child).isSome → d.Alive child) :
    d.Alive parent ∧ d.isText parent = false ∧ d.Alive child ∧ child ≠ root := by
  obtain ⟨hcon, hkind, -⟩ := (admits_iff hw).mp h
  obtain ⟨k, hkp, htp⟩ := isContainer_iff.mp hcon
  refine ⟨hp (isSome_of_kind? hkp), (WellFormed.isText_of_kind? hkp).trans htp, hc ?_, ?_⟩
  · cases hn : d.node? child with
    | some c => rfl
    | none => simp [isElement, isText, kind?_of_unknown hn] at hkind
  · rintro rfl
    simp [isElement, isText, hw.root_kind, NodeKind.isElement, NodeKind.isText] at hkind

-- A child leaves a parent and joins another one. What is not below it stays where it is.
private theorem made_move (hw : d.WellFormed) (hold : d.parent? child = some old)
    (hp : d.Alive parent)
    (ht : d.isText parent = false) (hroot : child ≠ root) (hn : ¬d.links.Under parent child) :
    let left := d.unlink old child
    Made d (.children old [child] []) left ∧
      Made left (.children parent [] [child]) (left.link parent child) ∧
      ∀ y, ¬d.links.Under y child → ∀ a,
        (left.link parent child).links.Under y a ↔ d.links.Under y a := by
  have hleave := made_unlink hw hold
  have hc := (hw.alive_of_parent? hold).1
  intro left
  have hl : left.links = d.links.detach old [child] :=
    links_unlink (hw.alive_of_parent? hold).2.1 hc.1
  have hup : ∀ y, y ≠ child → left.links.parent y = d.links.parent y := by
    intro y hy
    simp [hl, Links.detach, hy]
  have hkept : ∀ y, ¬d.links.Under y child → ¬left.links.Under y child := fun y hy hu =>
    hy ((under_congr hup hy).mp hu)
  have hp' : left.Alive parent := (hleave.alive_iff parent).mpr (Or.inl hp)
  have hc' : left.Alive child := (hleave.alive_iff child).mpr (Or.inl hc)
  have hdown : ∀ y, y ≠ child →
      (left.link parent child).links.parent y = left.links.parent y := by
    intro y hy
    rw [links_link hp'.1 hc'.1]
    simp [Links.attach, hy]
  refine ⟨hleave, ?_, fun y hy a => ?_⟩
  · exact made_link hleave.wellFormed hp' hc' (by simpa [left, isText, kind?_unlink] using ht)
      hroot (parent?_of_detach hl (by simp)) (hkept parent hn)
  · exact (under_congr hdown (hkept y hy)).trans (under_congr hup hy)

theorem accounted_appendChild (hw : d.WellFormed) (hp : (d.node? parent).isSome → d.Alive parent)
    (hc : (d.node? child).isSome → d.Alive child) :
    Accounted d ((Operation.appendChild parent child).writes d) (appendChild parent child d) := by
  cases h : d.admits parent child with
  | false =>
      obtain ⟨e, he⟩ := appendChild_of_not_admits h
      rw [he]
      simpa [Operation.writes, h] using accounted_quiet (.refl hw)
  | true =>
      have he := appendChild_of_admits h
      have hn := ((admits_iff hw).mp h).2.2
      obtain ⟨hpa, ht, hca, hroot⟩ := hw.alive_of_admits h hp hc
      cases hold : d.parent? child with
      | none =>
          rw [he, hold]
          have hm := made_link hw hpa hca ht hroot hold hn
          simpa [Operation.writes, h, hold, Write.record] using
            accounted_write rfl hm (.refl hm.wellFormed)
      | some old =>
          obtain ⟨hleave, hjoin, hscope⟩ := made_move hw hold hpa ht hroot hn
          -- Neither parent hangs below the child, so neither is moved with it.
          have hjoined := hscope parent hn
          have hleft := hscope old (hw.forest.not_under_of_parent hold)
          rw [he, hold]
          constructor
          · simpa [Operation.writes, h, hold, Write.record] using
              Account.write hleave (.write hjoin (.done (.refl hjoin.wellFormed)))
          · intro c hcm a
            simp only [List.mem_cons, List.not_mem_nil, or_false] at hcm
            rcases hcm with rfl | rfl
            · exact hleave.scope a
            · exact hjoined a
          · intro c hcm a _ _
            simp only [List.mem_cons, List.not_mem_nil, or_false] at hcm
            rcases hcm with rfl | rfl
            · exact hleft a
            · exact hjoined a

end Append

section Remove

theorem accounted_removeChild (hw : d.WellFormed) (parent child : NodeId) :
    Accounted d ((Operation.removeChild parent child).writes d) (removeChild parent child d) := by
  by_cases hp : d.parent? child = some parent
  · have hm := made_unlink hw hp
    simp only [Operation.writes, removeChild, hp, ite_true]
    exact accounted_write rfl hm (.refl hm.wellFormed)
  · simp only [Operation.writes, removeChild, hp, ite_false]
    exact accounted_quiet (.refl hw)

theorem quiet_vacateSubtree (hw : d.WellFormed) (hid : d.Alive id) (hnone : d.parent? id = none)
    (hs : ∀ x ∈ skeleton, x ∉ d.subtree id) : d.Quiet (d.vacateAll (d.subtree id)) :=
  (hw.departure_subtree hid).quiet (hw.vacateSubtree hid hnone hs)

theorem accounted_release (hw : d.WellFormed) (hid : (d.node? id).isSome → d.Alive id) :
    Accounted d [] (release id d) := by
  unfold release
  cases h : d.releasable id with
  | error e => exact accounted_quiet (.refl hw)
  | ok ids =>
      obtain ⟨hsome, rfl, hs⟩ := releasable_eq_ok h
      cases hp : d.parent? id with
      | some p => exact accounted_quiet (.refl hw)
      | none => exact accounted_quiet (quiet_vacateSubtree hw (hid hsome) hp hs)

theorem accounted_remove (hw : d.WellFormed) (hid : (d.node? id).isSome → d.Alive id) :
    Accounted d ((Operation.remove id).writes d) (remove id d) := by
  cases h : d.releasable id with
  | error e =>
      simp only [Operation.writes, remove, h]
      exact accounted_quiet (.refl hw)
  | ok ids =>
      obtain ⟨hsome, rfl, hs⟩ := releasable_eq_ok h
      cases hp : d.parent? id with
      | none =>
          simp only [Operation.writes, remove, h, hp]
          exact accounted_quiet (quiet_vacateSubtree hw (hid hsome) hp hs)
      | some p =>
          have hm := made_unlink hw hp
          have hl : (d.unlink p id).links = d.links.detach p [id] :=
            links_unlink (hw.alive_of_parent? hp).2.1 hsome
          have hsub := hw.subtree_unlink hp
          have hq := quiet_vacateSubtree hm.wellFormed
            ((hm.alive_iff id).mpr (Or.inl (hid hsome))) (parent?_of_detach hl (by simp))
            (hsub ▸ hs)
          rw [hsub] at hq
          simp only [Operation.writes, remove, removeChild, h, hp, ite_true]
          exact accounted_write rfl hm hq

end Remove

section Attributes

theorem accounted_setAttribute (hw : d.WellFormed) (id : NodeId) (name value : String) :
    Accounted d ((Operation.setAttribute id name value).writes d)
      (setAttribute id name value d) := by
  cases he : d.element? id with
  | none =>
      have hel : d.isElement id = false := by
        rw [Bool.eq_false_iff]
        intro h
        obtain ⟨e, hk⟩ := isElement_iff.mp h
        simp [element?_of_kind? hk] at he
      simp only [Operation.writes, setAttribute, he, hel, Bool.false_eq_true, ite_false]
      exact accounted_quiet (.refl hw)
  | some e =>
      obtain ⟨node, hid, hk⟩ := node?_of_element? he
      have hel : d.isElement id = true :=
        isElement_iff.mpr ⟨e, by rw [kind?_of_node? hid, hk]⟩
      have hm := made_withAttributes hw he name (some value)
        (nodup_setEntry (hw.attributes_nodup he))
      simp only [Operation.writes, setAttribute, he, hel, ite_true]
      refine accounted_write ?_ hm (.refl hm.wellFormed)
      simp [Write.record, attribute?, attributes, he]

theorem accounted_removeAttribute (hw : d.WellFormed) (id : NodeId) (name : String) :
    Accounted d ((Operation.removeAttribute id name).writes d) (removeAttribute id name d) := by
  cases he : d.element? id with
  | none =>
      simp only [Operation.writes, removeAttribute, attribute?, attributes, he, List.lookup_nil,
        Option.isSome_none, Bool.false_eq_true, ite_false]
      exact accounted_quiet (.refl hw)
  | some e =>
      have ha : d.attribute? id name = e.attributes.lookup name := by
        simp [attribute?, attributes, he]
      cases hl : e.attributes.lookup name with
      | none =>
          simp only [Operation.writes, removeAttribute, ha, he, hl, Option.isSome_none,
            Bool.false_eq_true, ite_false]
          exact accounted_quiet (.refl hw)
      | some held =>
          have hsub : ((e.attributes.eraseP (·.1 = name)).map Prod.fst).Sublist
              (e.attributes.map Prod.fst) := List.Sublist.map _ List.eraseP_sublist
          have hm := made_withAttributes hw he name none
            (List.Nodup.sublist hsub (hw.attributes_nodup he))
          simp only [Operation.writes, removeAttribute, ha, he, hl, Option.isSome_some, ite_true]
          refine accounted_write ?_ hm (.refl hm.wellFormed)
          simp [Write.record, ha, hl]

end Attributes

section Text

theorem isContainer_of_node? {node : Slot} (hn : d.node? id = some node) :
    d.isContainer id = !node.kind.isText := by
  cases hk : node.kind <;>
    simp [isContainer, kind?_of_node? hn, hk, NodeKind.isContainer, NodeKind.isText]

theorem textWrites_of_target {node : Slot} {target : NodeId} (hn : d.node? id = some node)
    (h : d.textTarget? id node text = some target) :
    d.textWrites id text = [.text target text] := by
  unfold textWrites
  rcases textTarget?_eq_some hn h with ⟨rfl, ht⟩ | ⟨htext, ht, honly, htarget⟩
  · simp [ht]
  · rw [isText_of_node? hn] at ht
    simp [isText_of_node? hn, isContainer_of_node? hn, ht, honly, htext, htarget]

theorem textWrites_of_children {node : Slot} (hn : d.node? id = some node)
    (h : d.textTarget? id node text = none) :
    d.textWrites id text = if d.children id = [] ∧ d.arrivals text = [] then []
      else [.children id (d.children id) (d.arrivals text)] := by
  have ht := isText_of_textTarget?_none h
  have harr : d.arrivals text = [] ↔ text = "" := by
    unfold arrivals
    split <;> simp_all
  unfold textWrites
  rw [isText_of_node? hn, isContainer_of_node? hn, ht]
  simp only [harr, Bool.false_eq_true, Bool.not_false, ite_false, ite_true]
  cases hc : d.children id with
  | nil => simp
  | cons first rest =>
      cases rest with
      | cons second rest => simp
      | nil =>
          have hone : ¬(text ≠ "" ∧ d.isText first = true) := fun hone =>
            hone.1 (eq_empty_of_textTarget?_none hn h hc hone.2)
          simp [hone]

private theorem made_fill (hw : d.WellFormed) (hid : d.Alive id) (ht : d.isText id = false)
    (text : String) : Made d (.children id (d.children id) (d.arrivals text))
      ((d.strip id (d.children id)).fill id text).1 := by
  obtain ⟨hfill, -, -, -⟩ := hw.refill_steps hid ht text
  have hsame : d.SameTenants (d.strip id (d.children id)) := sameTenants_strip
  have hl := hw.links_strip hid.1
  have harr := hsame.arrivals text
  have hnone : (d.children id).filter (· ∉ d.children id) = [] := by
    simp [List.filter_eq_nil_iff]
  have hstripped : ∀ x, (d.strip id (d.children id)).children x =
      if x = id then [] else d.children x := by
    intro x
    have h := children_of_links hl x
    simpa only [Links.detach, links, hnone] using h
  refine .of_children hw hfill.wellFormed ((registry_fill text).trans registry_strip) hid
    (fun x => ?_) (fun x => ?_) fun x hx => ?_
  · have h := hfill.turnover.alive_iff x
    rw [harr, hsame.alive_iff] at h
    simpa using h
  · rw [hfill.children x, harr, hstripped, hstripped, hnone]
    by_cases hx : x = id <;> simp [hx]
  · rw [hfill.kind?, harr, if_neg (WellFormed.not_mem_arrivals hx text), kind?_strip]

theorem accounted_setText (hw : d.WellFormed) (hid : (d.node? id).isSome → d.Alive id)
    (text : String) : Accounted d (d.textWrites id text) (setText id text d) := by
  rcases hw.setText_cases id text with ⟨hn, he⟩ | ⟨node, target, hn, htarget, hr, he⟩ |
    ⟨ha, ht, ⟨node, hn, htarget⟩, -, he⟩
  · have hnil : d.textWrites id text = [] := by
      simp [textWrites, isText, isContainer, kind?_of_unknown hn]
    rw [he, hnil]
    exact accounted_quiet (.refl hw)
  · have htext : d.isText target = true := hr.wasText
    obtain ⟨data, hk⟩ := kind?_of_textTarget? hn htarget
    have ha : d.Alive target := by
      rcases textTarget?_eq_some hn htarget with ⟨rfl, -⟩ | ⟨-, -, honly, -⟩
      · exact hid (by simp [hn])
      · have hp : d.parent? target = some id := hw.forest.parent_of_mem (by simp [links, honly])
        exact (hw.alive_of_parent? hp).1
    have hm := made_reword ha hr (tacit_setText id text d).1
    rw [he, textWrites_of_target hn htarget]
    refine accounted_write ?_ hm (.refl hm.wellFormed)
    simp [Write.record, textContent, textData?, hk]
  · have hm := made_fill hw ha ht text
    obtain ⟨-, hnew, hw', hdep⟩ := hw.refill_steps ha ht text
    rw [he, WellFormed.replaceChildren_eq, textWrites_of_children hn htarget]
    rw [hnew]
    split
    · rename_i hnil
      have hstrip : d.Quiet ((d.strip id (d.children id)).fill id text).1 := by
        refine ⟨hm.wellFormed, fun x _ _ => ?_, fun x hx _ => ?_⟩
        · rw [hm.children, hnil.1, hnil.2]
          simp [Write.childrenAfter]
        · rw [hm.kind? x hx]
          cases d.kind? x <;> rfl
      rw [hnil.1] at hstrip ⊢
      exact accounted_quiet hstrip
    · exact accounted_write rfl hm (hdep.quiet hw')

end Text

section Operation

theorem quiet_of_observers (hw : d.WellFormed) {d' : Document} (hs : d'.slots = d.slots)
    (hf : d'.free = d.free) : d.Quiet d' where
  wellFormed := (Operation.wellFormed_of_observers hw hs hf).1
  children x _ _ := by simp [children, node?, hs]
  kind? x _ _ := by simp [Document.kind?, node?, hs]

theorem accounted_create (hw : d.WellFormed) {kind : NodeKind} (hk : kind ≠ .document)
    (hn : kind.names.Nodup) : Accounted d [] (create kind d) := by
  have hq := quiet_create hw hk hn
  have hc := (create_result kind d).2
  cases he : create kind d with
  | mk result document changes =>
      rw [he] at hq hc
      have hnil : changes = [] := hc
      exact hnil ▸ accounted_quiet hq

-- Every operation on nodes of the page tells of its writes and of nothing else.
theorem accounted_edit (op : Operation) (hw : d.WellFormed)
    (hm : ∀ x ∈ op.mentions, (d.node? x).isSome → d.Alive x) :
    Accounted d (op.writes d) (op.edit d) := by
  cases op with
  | createElement tag =>
      exact (accounted_create hw (by simp [bareElement])
        (by simp [bareElement, NodeKind.names])).giving
  | createText data =>
      exact (accounted_create hw (by simp) (by simp [NodeKind.names])).giving
  | appendChild parent child =>
      exact (accounted_appendChild hw (hm parent (by simp [Operation.mentions]))
        (hm child (by simp [Operation.mentions]))).giving
  | removeChild parent child => exact (accounted_removeChild hw parent child).giving
  | remove id => exact (accounted_remove hw (hm id (by simp [Operation.mentions]))).giving
  | release id => exact (accounted_release hw (hm id (by simp [Operation.mentions]))).giving
  | setAttribute id name value => exact (accounted_setAttribute hw id name value).giving
  | removeAttribute id name => exact (accounted_removeAttribute hw id name).giving
  | setText id text =>
      exact (accounted_setText hw (hm id (by simp [Operation.mentions])) text).giving
  | setTitle text =>
      have ha : d.Alive title := hw.skeleton_alive title (by simp [skeleton])
      exact (accounted_setText hw (fun _ => ha) text).giving
  | observe target => exact accounted_quiet (quiet_of_observers hw rfl rfl)
  | disconnect observer => exact accounted_quiet (quiet_of_observers hw rfl rfl)

end Operation

end PageLocalizer.Document
