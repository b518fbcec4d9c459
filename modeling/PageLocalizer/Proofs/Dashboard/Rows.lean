import PageLocalizer.Proofs.Dashboard.Builders

-- Rows can be built and put in a table on any page, whatever else is there.
namespace PageLocalizer

namespace Document

open Edit Translation

variable {d d' d'' : Document} {place p x : NodeId} {tag text : String}
  {as : List (String × String)} {beds : List NodeId}

-- More is there. Of those who were there, nobody but `place` may have got new children.
structure Extends (place : NodeId) (d d' : Document) : Prop extends Stays d d' where
  wellFormed : d'.WellFormed
  children : ∀ y, d.Alive y → y ≠ place → d'.children y = d.children y

-- Something is being built beside what was there at first. In the beds more will come.
structure Scaffold (place : NodeId) (d : Document) (beds : List NodeId) (d' : Document) : Prop
    extends Extends place d d' where
  beds : ∀ p ∈ beds, ¬d.Alive p ∧ d'.isElement p = true

theorem Extends.refl (place : NodeId) (hw : d.WellFormed) : d.Extends place d :=
  ⟨.refl d, hw, fun _ _ _ => rfl⟩

theorem isElement_stays (h : Stays d d') (hw : d.WellFormed) (hx : d.isElement x = true) :
    d'.isElement x = true := by
  obtain ⟨e, hk⟩ := isElement_iff.mp hx
  exact isElement_iff.mpr ⟨e, (h.kind? x (hw.alive_of_kind? hk rfl)).trans hk⟩

namespace Scaffold

theorem subset {others : List NodeId} (h : Scaffold place d beds d') (hs : others ⊆ beds) :
    Scaffold place d others d' := ⟨h.toExtends, fun p hp => h.beds p (hs hp)⟩

theorem alive_bed (h : Scaffold place d beds d') (hp : p ∈ beds) : d'.Alive p :=
  h.wellFormed.alive_of_isContainer (isContainer_of_isElement (h.beds p hp).2)

theorem isText_bed (h : Scaffold place d beds d') (hp : p ∈ beds) : d'.isText p = false :=
  isText_of_isContainer (isContainer_of_isElement (h.beds p hp).2)

-- One more element, apart or in a bed.
theorem planted {site : Option NodeId} {e : Element} (h : Scaffold place d beds d')
    (hsite : ∀ p, site = some p → p ∈ beds) (hp : d'.Planted site e text d'') :
    Scaffold place d (d'.nextId :: beds) d'' where
  toStays := h.toStays.trans (stays_planted hp)
  wellFormed := hp.wellFormed
  children y ha hy := by
    have hne : site ≠ some y := fun heq => (h.beds y (hsite y heq)).1 ha
    rw [hp.children y (h.alive y ha), if_neg hne, h.children y ha hy]
  beds q hq := by
    rcases List.mem_cons.mp hq with rfl | hold
    · exact ⟨fun ha => d'.not_alive_nextId (h.alive _ ha), isElement_iff.mpr ⟨e, hp.self⟩⟩
    · exact ⟨(h.beds q hold).1,
        isElement_stays (stays_planted hp) h.wellFormed (h.beds q hold).2⟩

end Scaffold

-- Building in the beds succeeds, and there are some more beds.
def Builds (beds : List NodeId) (m : Edit α) (more : α → List NodeId) : Prop :=
  ∀ place d d', Scaffold place d beds d' →
    ∃ a d'', Gives m d' a d'' ∧ Stays d' d'' ∧ Scaffold place d (more a ++ beds) d''

-- The same, where the answer is known.
def BuildsTo (beds : List NodeId) (m : Edit α) (a : α) : Prop :=
  ∀ place d d', Scaffold place d beds d' →
    ∃ d'', Gives m d' a d'' ∧ Stays d' d'' ∧ Scaffold place d beds d''

section Rules

variable {α β : Type} {m : Edit α} {f : α → Edit β} {a : α} {b : β} {more : α → List NodeId}
  {rest : β → List NodeId}

theorem builds_pure (h : more a ⊆ beds) : Builds beds (Edit.pure a) more := fun _ _ d' hd =>
  ⟨a, d', ⟨rfl, rfl⟩, .refl d', hd.subset (List.append_subset.mpr ⟨h, fun _ hp => hp⟩)⟩

private theorem buildsTo_pure (a : α) : BuildsTo beds (Edit.pure a) a := fun _ _ d' hd =>
  ⟨d', ⟨rfl, rfl⟩, .refl d', hd⟩

theorem Builds.bind (h : Builds beds m more) (hf : ∀ a, Builds (more a ++ beds) (f a) rest) :
    Builds beds (Edit.bind m f) rest := by
  intro place d d' hd
  obtain ⟨a, d₁, hgives, hstays, hbuilt⟩ := h place d d' hd
  obtain ⟨b, d₂, hgives', hstays', hbuilt'⟩ := hf a place d d₁ hbuilt
  refine ⟨b, d₂, hgives.bind hgives', hstays.trans hstays', hbuilt'.subset ?_⟩
  rw [← List.append_assoc]
  intro p hp
  simp only [List.mem_append] at hp ⊢
  tauto

theorem Builds.bindTo (h : Builds beds m more) (hf : ∀ a, BuildsTo (more a ++ beds) (f a) b) :
    BuildsTo beds (Edit.bind m f) b := by
  intro place d d' hd
  obtain ⟨a, d₁, hgives, hstays, hbuilt⟩ := h place d d' hd
  obtain ⟨d₂, hgives', hstays', hbuilt'⟩ := hf a place d d₁ hbuilt
  exact ⟨d₂, hgives.bind hgives', hstays.trans hstays',
    hbuilt'.subset (List.subset_append_right _ _)⟩

private theorem builds_each {bs : List β} {f : β → Edit Unit}
    (h : ∀ b ∈ bs, Builds beds (f b) fun _ => []) : Builds beds (Edit.each bs f) fun _ => [] := by
  induction bs with
  | nil => exact builds_pure (List.nil_subset _)
  | cons b bs ih =>
      rw [each_cons]
      exact (h b (by simp)).bind fun _ => ih fun b hb => h b (List.mem_cons_of_mem _ hb)

theorem builds_element (hp : p ∈ beds) (htag : tag ∈ Dashboard.tags)
    (hn : (as.map Prod.fst).Nodup) : Builds beds (element p tag as) fun x => [x] := by
  intro place d d' hd
  obtain ⟨d'', hgives, hplanted⟩ := planted_element hd.wellFormed (hd.alive_bed hp)
    (hd.isText_bed hp) (Dashboard.toLower_tag tag htag) hn
  exact ⟨_, d'', hgives, stays_planted hplanted,
    hd.planted (fun q hq => Option.some.inj hq ▸ hp) hplanted⟩

theorem builds_textElement (hp : p ∈ beds) (htag : tag ∈ Dashboard.tags)
    (hn : (as.map Prod.fst).Nodup) (text : String) :
    Builds beds (textElement p tag as text) fun x => [x] := by
  intro place d d' hd
  obtain ⟨d'', hgives, hplanted⟩ := planted_textElement hd.wellFormed (hd.alive_bed hp)
    (hd.isText_bed hp) (Dashboard.toLower_tag tag htag) hn text
  exact ⟨_, d'', hgives, stays_planted hplanted,
    hd.planted (fun q hq => Option.some.inj hq ▸ hp) hplanted⟩

-- An element is made apart, things are built in it, and then it is put in a place that was there
-- before.
theorem gives_placed {f : NodeId → Edit NodeId} (hw : d.WellFormed) (tag : String)
    (hplace : d.isElement place = true) (hf : ∀ x, BuildsTo [x] (f x) x) :
    ∃ d', Gives (Edit.bind (Edit.bind (createElement tag) f) fun x => appendChild place x) d () d' ∧
      d.Extends place d' := by
  have hbare := planted_createElement hw tag
  have hcreate : Gives (createElement tag) d d.nextId _ := ⟨createElement_result tag d, rfl⟩
  have hbegun : Scaffold place d [] d := ⟨.refl place hw, by simp⟩
  have hstart : Scaffold place d [d.nextId] (createElement tag d).document :=
    hbegun.planted (by simp) hbare
  obtain ⟨d', hgives, hstays, hbuilt⟩ := hf d.nextId place d _ hstart
  have halive := hw.alive_of_isContainer (isContainer_of_isElement hplace)
  have helement := isElement_stays hbuilt.toStays hw hplace
  have hself : d'.kind? d.nextId = some (.element ⟨tag.toLower, []⟩) :=
    (hstays.kind? _ hbare.alive_self).trans hbare.self
  have hnone : d'.parent? d.nextId = none :=
    (hstays.parent? _ hbare.alive_self).trans hbare.place
  have hunder : ¬d'.links.Under place d.nextId := fun hu =>
    d.not_alive_nextId (hbuilt.alive_of_under hw hu halive)
  have hplace' := hbuilt.alive _ halive
  have hself' := hbuilt.alive_bed (List.mem_singleton.mpr rfl)
  obtain ⟨hlink, hw'⟩ := gives_appendChild hplace' hself' hbuilt.wellFormed
    (isText_of_isContainer (isContainer_of_isElement helement)) hself hnone hunder
  refine ⟨_, (hcreate.bind hgives).bind hlink, ⟨fun y ha => ?_, fun y ha => ?_, fun y ha => ?_⟩,
    hw', fun y ha hy => ?_⟩
  · exact (sameTenants_link.alive_iff y).mpr (hbuilt.alive y ha)
  · exact (kind?_link y).trans (hbuilt.kind? y ha)
  · rw [parent?_link hplace' hself', if_neg (Planted.ne_nextId ha), hbuilt.parent? y ha]
  · rw [children_link hplace' hself', if_neg hy, hbuilt.children y ha hy]

end Rules

end Document

namespace Dashboard

open Document Edit Translation

variable {beds : List NodeId} {d : Document} {p : NodeId}

attribute [local simp] tags

private theorem builds_icon (hp : p ∈ beds) (symbol : String) (size : Nat) :
    Builds beds (icon p symbol size) fun _ => [] := by
  refine (builds_element hp (by simp) (by simp)).bind fun svg => ?_
  refine (builds_element (by simp) (by simp) (by simp)).bind fun _ => ?_
  exact builds_pure (List.nil_subset _)

theorem ProcessInfo.builds_signalButton (hp : p ∈ beds) (s : Signal) :
    Builds beds (signalButton p s) fun _ => [] := by
  refine (builds_element hp (by simp) (by simp)).bind fun button => ?_
  exact builds_icon (by simp) _ _

-- The cells of a row, one after the other.
theorem gives_addRow (hw : d.WellFormed) (hp : d.isElement p = true) (info : ProcessInfo) :
    ∃ d', Gives (CommandLine.addRow p info) d () d' ∧ d.Extends p d' := by
  refine gives_placed hw "tr" hp fun row => ?_
  refine (builds_textElement (by simp) (by simp) (by simp) _).bindTo fun _ => ?_
  refine (builds_textElement (by simp) (by simp) (by simp) _).bindTo fun _ => ?_
  refine (builds_element (by simp) (by simp) (by simp)).bindTo fun status => ?_
  refine (builds_textElement (by simp) (by simp) (by simp) _).bindTo fun _ => ?_
  refine (builds_textElement (by simp) (by simp) (by simp) _).bindTo fun _ => ?_
  refine (builds_textElement (by simp) (by simp) (by simp) _).bindTo fun _ => ?_
  refine (builds_element (by simp) (by simp) (by simp)).bindTo fun cell => ?_
  refine (builds_element (by simp) (by simp) (by simp)).bindTo fun actions => ?_
  refine (builds_each fun s _ => ProcessInfo.builds_signalButton (by simp) s).bindTo fun _ => ?_
  exact buildsTo_pure row

end Dashboard
end PageLocalizer
