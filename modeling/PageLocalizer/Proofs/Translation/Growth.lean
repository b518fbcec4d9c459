import PageLocalizer.Proofs.Translation.Seeds

-- The building of pages that show in English what the catalog says: a calculus of what is built
-- where, so that a builder is checked element by element.
namespace PageLocalizer.Translation

open Document Edit

variable {c : Catalog} {name tag text : String} {d d' d'' : Document} {p x y : NodeId}
  {place : Option NodeId} {e : Element} {as : List (String × String)}

-- Who is there stays there.
structure Stays (d d' : Document) : Prop where
  alive : ∀ y, d.Alive y → d'.Alive y
  kind? : ∀ y, d.Alive y → d'.kind? y = d.kind? y
  parent? : ∀ y, d.Alive y → d'.parent? y = d.parent? y

namespace Stays

theorem refl (d : Document) : Stays d d := ⟨fun _ h => h, fun _ _ => rfl, fun _ _ => rfl⟩

theorem trans (h : Stays d d') (h' : Stays d' d'') : Stays d d'' where
  alive y ha := h'.alive y (h.alive y ha)
  kind? y ha := (h'.kind? y (h.alive y ha)).trans (h.kind? y ha)
  parent? y ha := (h'.parent? y (h.alive y ha)).trans (h.parent? y ha)

-- Nobody comes to stand below a newcomer.
theorem alive_of_under (h : Stays d d') (hw : d.WellFormed) (hu : d'.links.Under y x)
    (hy : d.Alive y) : d.Alive x := by
  induction hu using Relation.ReflTransGen.head_induction_on with
  | refl => exact hy
  | head hstep _ ih => exact ih (hw.alive_of_parent? ((h.parent? _ hy).symm.trans hstep)).2

-- Who lies below somebody goes on to do so.
theorem under (h : Stays d d') (hw : d.WellFormed) (hu : d.links.Under y x) :
    d'.links.Under y x :=
  hu.mono fun c _ hp => (h.parent? c (hw.alive_of_parent? hp).1).trans hp

end Stays

theorem stays_planted (h : d.Planted place e text d') : Stays d d' :=
  ⟨h.alive, h.kind?, h.parent?⟩

-- An element that takes further elements: no text is put in the place of its children.
structure Bed (d : Document) (p : NodeId) : Prop where
  alive : d.Alive p
  isText : d.isText p = false
  ne_title : p ≠ Document.title
  bare : ∀ e, d.kind? p = some (.element e) → texting e.attributes = []

theorem Bed.congr (hb : Bed d p) (ha : d'.Alive p) (hk : d'.kind? p = d.kind? p) : Bed d' p where
  alive := ha
  isText := (isText_congr hk).trans hb.isText
  ne_title := hb.ne_title
  bare e he := hb.bare e (hk.symm.trans he)

theorem Bed.stays (hb : Bed d p) (h : Stays d d') : Bed d' p :=
  hb.congr (h.alive p hb.alive) (h.kind? p hb.alive)

namespace Sown

theorem alive_title (h : Sown c name d) : d.Alive Document.title :=
  h.wellFormed.alive_of_kind? h.title rfl

-- More elements that agree, in beds.
theorem extend (h : Sown c name d) (hw : d'.WellFormed)
    (hkind : ∀ y, d.Alive y → d'.kind? y = d.kind? y)
    (hchildren : ∀ y, d.Alive y → d'.children y = d.children y ∨
      Bed d y ∧ ∃ x, d'.isElement x = true ∧ d'.children y = d.children y ++ [x])
    (hnew : ∀ x e, d'.kind? x = some (.element e) → ¬d.Alive x →
      Seeded c e.attributes (d'.ownText x) ∧ (texting e.attributes ≠ [] → d'.HoldsText x)) :
    Sown c name d' := by
  have hkinds : ∀ y, ∀ t ∈ d.children y, d'.kind? t = d.kind? t := fun y t ht =>
    hkind t (h.wellFormed.alive_of_parent? (h.wellFormed.forest.parent_of_mem ht)).1
  have hsame : ∀ y, ¬Bed d y → d.Alive y → d'.children y = d.children y := fun y hb ha =>
    (hchildren y ha).resolve_right fun hboth => hb hboth.1
  have hown : ∀ y, d.Alive y → d'.ownText y = d.ownText y := by
    intro y ha
    rcases hchildren y ha with hc | ⟨-, x, hx, hc⟩
    · exact ownText_congr hc (hkinds y)
    · obtain ⟨e, hk⟩ := isElement_iff.mp hx
      have hnone : d'.textData? x = none := by simp [textData?, hk]
      have hfilter : (d.children y).filterMap d'.textData? =
          (d.children y).filterMap d.textData? :=
        List.filterMap_congr fun t ht => by simp [textData?, hkinds y t ht]
      simp [Document.ownText, hc, hnone, hfilter]
  constructor
  · exact hw
  · intro x e hx
    by_cases ha : d.Alive x
    · rw [hown x ha]
      exact h.seeded x e ((hkind x ha).symm.trans hx)
    · exact (hnew x e hx ha).1
  · intro x e hx hne
    by_cases ha : d.Alive x
    · have hx' := (hkind x ha).symm.trans hx
      have hc := hsame x (fun hb => hne (hb.bare e hx')) ha
      intro t ht
      rw [hc] at ht
      exact (isText_congr (hkinds x t ht)).trans (h.worded x e hx' hne t ht)
    · exact (hnew x e hx ha).2 hne
  · exact (hkind _ h.alive_title).trans h.title
  · exact h.named.congr (hsame _ (fun hb => hb.ne_title rfl) h.alive_title) (hkinds _)

theorem planted (h : Sown c name d) (hb : ∀ p, place = some p → Bed d p)
    (hp : d.Planted place e text d') (hs : Seeded c e.attributes text) : Sown c name d' := by
  have hself : d'.isElement d.nextId = true := isElement_iff.mpr ⟨e, hp.self⟩
  refine h.extend hp.wellFormed hp.kind? (fun y ha => ?_) fun x e' hx ha => ?_
  · rw [hp.children y ha]
    split
    · rename_i hplace
      exact .inr ⟨hb y hplace, d.nextId, hself, rfl⟩
    · exact .inl rfl
  · obtain rfl : x = d.nextId := (hp.only x (isElement_iff.mpr ⟨e', hx⟩)).resolve_left ha
    obtain rfl : e = e' := by simpa [hp.self] using hx
    rw [hp.text.ownText]
    exact ⟨hs, fun _ => hp.text.holdsText⟩

theorem linked (h : Sown c name d) (hb : Bed d p) (hx : d.kind? x = some (.element e))
    (hw : (d.link p x).WellFormed) : Sown c name (d.link p x) := by
  have hxa : d.Alive x := h.wellFormed.alive_of_kind? hx rfl
  refine h.extend hw (fun y _ => kind?_link y) (fun y ha => ?_) fun y e' hy ha => ?_
  · rw [children_link hb.alive hxa]
    by_cases hyp : y = p
    · subst hyp
      refine .inr ⟨hb, x, isElement_iff.mpr ⟨e, (kind?_link x).trans hx⟩, by simp⟩
    · exact .inl (if_neg hyp)
  · exact absurd (h.wellFormed.alive_of_kind? ((kind?_link y).symm.trans hy) rfl) ha

end Sown

-- Pages in the middle of their building, with the beds where more will grow. Elements whose
-- directives agree can be planted there, and those that get no text in place of their children are
-- beds themselves.
class Soil (c : outParam Catalog) (G : List NodeId → Document → Prop) : Prop where
  wellFormed {beds : List NodeId} {d : Document} : G beds d → d.WellFormed
  bed {beds : List NodeId} {d : Document} : G beds d → ∀ p ∈ beds, Bed d p
  subset {beds others : List NodeId} {d : Document} : G beds d → others ⊆ beds → G others d
  planted {beds : List NodeId} {d d' : Document} {p : NodeId} {e : Element} {text : String} :
    G beds d → p ∈ beds → d.Planted (some p) e text d' → Seeded c e.attributes text →
      G beds d' ∧ (texting e.attributes = [] → G (d.nextId :: beds) d')

-- Building with the beds at hand succeeds, and gives a page with some more beds.
def Grows (G : List NodeId → Document → Prop) (beds : List NodeId) (m : Edit α)
    (more : α → List NodeId) : Prop :=
  ∀ d, G beds d → ∃ a d', Gives m d a d' ∧ Stays d d' ∧ G (more a ++ beds) d'

-- The same, with a known answer and no more beds.
def GrowsTo (G : List NodeId → Document → Prop) (beds : List NodeId) (m : Edit α) (a : α) : Prop :=
  ∀ d, G beds d → ∃ d', Gives m d a d' ∧ Stays d d' ∧ G beds d'

-- The page in the middle of its building, sown all over.
structure Grown (c : Catalog) (name : String) (beds : List NodeId) (d : Document) : Prop where
  sown : Sown c name d
  beds : ∀ p ∈ beds, Bed d p

-- What is built is new and stands apart.
def GrowsApart (c : Catalog) (name : String) (beds : List NodeId) (m : Edit NodeId) : Prop :=
  ∀ d, Grown c name beds d → ∃ x d', Gives m d x d' ∧ Stays d d' ∧
    Grown c name (x :: beds) d' ∧ ¬d.Alive x ∧ d'.parent? x = none ∧ d'.isElement x = true

theorem Grown.subset {beds others : List NodeId} (h : Grown c name beds d) (hs : others ⊆ beds) :
    Grown c name others d := ⟨h.sown, fun p hp => h.beds p (hs hp)⟩

-- The element that is made is a bed itself.
theorem bed_nextId (hw : d.WellFormed) (hp : d.Planted place e text d')
    (hbare : texting e.attributes = []) : Bed d' d.nextId where
  alive := hp.alive_self
  isText := by simp [Document.isText, hp.self, NodeKind.isText]
  ne_title := (Planted.ne_nextId (hw.skeleton_alive _ (by simp [skeleton]))).symm
  bare e' he := by
    obtain rfl : e = e' := by simpa [hp.self] using he
    exact hbare

instance : Soil c (Grown c name) where
  wellFormed hd := hd.sown.wellFormed
  bed hd := hd.beds
  subset hd := hd.subset
  planted {beds d d' p e text} hd hp hplanted hs := by
    have hbed : ∀ q, some p = some q → Bed d q := fun q hq => Option.some.inj hq ▸ hd.beds p hp
    have hold : ∀ q ∈ beds, Bed d' q := fun q hq => (hd.beds q hq).stays (stays_planted hplanted)
    have hsown := hd.sown.planted hbed hplanted hs
    refine ⟨⟨hsown, hold⟩, fun hbare => ⟨hsown, fun q hq => ?_⟩⟩
    rcases List.mem_cons.mp hq with rfl | hq
    · exact bed_nextId hd.sown.wellFormed hplanted hbare
    · exact hold q hq

section Rules

variable {G : List NodeId → Document → Prop} [soil : Soil c G] {beds : List NodeId} {α β : Type}
  {m : Edit α} {f : α → Edit β} {a : α} {more : α → List NodeId} {rest : β → List NodeId}

include soil

theorem grows_pure (h : more a ⊆ beds) : Grows G beds (Edit.pure a) more := fun d hd =>
  ⟨a, d, ⟨rfl, rfl⟩, .refl d, Soil.subset hd (List.append_subset.mpr ⟨h, fun _ hp => hp⟩)⟩

theorem Grows.bind (h : Grows G beds m more) (hf : ∀ a, Grows G (more a ++ beds) (f a) rest) :
    Grows G beds (Edit.bind m f) rest := by
  intro d hd
  obtain ⟨a, d', hgives, hstays, hgrown⟩ := h d hd
  obtain ⟨b, d'', hgives', hstays', hgrown'⟩ := hf a d' hgrown
  refine ⟨b, d'', hgives.bind hgives', hstays.trans hstays', Soil.subset hgrown' ?_⟩
  rw [← List.append_assoc]
  intro p hp
  simp only [List.mem_append] at hp ⊢
  tauto

omit soil in
-- From a page that is ready for it.
theorem Grows.gives (h : Grows G beds m more) (hd : G beds d) :
    ∃ a d', Gives m d a d' ∧ G (more a ++ beds) d' := by
  obtain ⟨a, d', hgives, -, hgrown⟩ := h d hd
  exact ⟨a, d', hgives, hgrown⟩

omit soil in
theorem Grows.bind_exists {P : β → Document → Prop} (h : Grows G beds m more) (hd : G beds d)
    (hf : ∀ a d', G (more a ++ beds) d' → ∃ b d'', Gives (f a) d' b d'' ∧ P b d'') :
    ∃ b d'', Gives (Edit.bind m f) d b d'' ∧ P b d'' := by
  obtain ⟨a, d', hgives, hgrown⟩ := h.gives hd
  exact hgives.bind_exists (hf a d' hgrown)

omit soil in
theorem growsTo_pure (a : α) : GrowsTo G beds (Edit.pure a) a := fun d hd =>
  ⟨d, ⟨rfl, rfl⟩, .refl d, hd⟩

theorem Grows.bindTo {b : β} (h : Grows G beds m more)
    (hf : ∀ a, GrowsTo G (more a ++ beds) (f a) b) : GrowsTo G beds (Edit.bind m f) b := by
  intro d hd
  obtain ⟨a, d', hgives, hstays, hgrown⟩ := h d hd
  obtain ⟨d'', hgives', hstays', hgrown'⟩ := hf a d' hgrown
  exact ⟨d'', hgives.bind hgives', hstays.trans hstays',
    Soil.subset hgrown' (List.subset_append_right _ _)⟩

theorem grows_each {bs : List β} {f : β → Edit Unit}
    (h : ∀ b ∈ bs, Grows G beds (f b) fun _ => []) :
    Grows G beds (Edit.each bs f) fun _ => [] := by
  induction bs with
  | nil => exact grows_pure (List.nil_subset _)
  | cons b bs ih =>
      rw [each_cons]
      exact (h b (by simp)).bind fun _ => ih fun b hb => h b (List.mem_cons_of_mem _ hb)

-- One element with its text, made in a bed.
theorem grows_planted (hp : p ∈ beds)
    (h : ∀ d, d.WellFormed → d.Alive p → d.isText p = false →
      ∃ e text a d', Gives m d a d' ∧ d.Planted (some p) e text d' ∧ Seeded c e.attributes text) :
    Grows G beds m fun _ => [] := by
  intro d hd
  have hb := Soil.bed hd p hp
  obtain ⟨e, text, a, d', hgives, hplanted, hs⟩ := h d (Soil.wellFormed hd) hb.alive hb.isText
  exact ⟨a, d', hgives, stays_planted hplanted, (Soil.planted hd hp hplanted hs).1⟩

theorem grows_textElement (hp : p ∈ beds) (htag : tag.toLower = tag)
    (hn : (as.map Prod.fst).Nodup) (hs : Seeded c as text) :
    Grows G beds (textElement p tag as text) fun _ => [] :=
  grows_planted hp fun _ hw ha ht =>
    have ⟨d', hgives, hplanted⟩ := planted_textElement hw ha ht htag hn text
    ⟨⟨tag, as⟩, text, _, d', hgives, hplanted, hs⟩

theorem grows_element (hp : p ∈ beds) (htag : tag.toLower = tag) (hn : (as.map Prod.fst).Nodup)
    (hs : Seeded c as "") (hbare : texting as = []) :
    Grows G beds (element p tag as) fun x => [x] := by
  intro d hd
  have hb := Soil.bed hd p hp
  obtain ⟨d', hgives, hplanted⟩ :=
    planted_element (Soil.wellFormed hd) hb.alive hb.isText htag hn
  exact ⟨d.nextId, d', hgives, stays_planted hplanted, (Soil.planted hd hp hplanted hs).2 hbare⟩

end Rules

section Apart

variable {beds : List NodeId}

-- An element is made apart, and then things grow in it.
theorem growsApart {f : NodeId → Edit NodeId} (htag : tag.toLower = tag) (hs : Seeded c [] "")
    (hf : ∀ x, GrowsTo (Grown c name) (x :: beds) (f x) x) :
    GrowsApart c name beds (Edit.bind (createElement tag) f) := by
  intro d hd
  have hbare := planted_createElement hd.sown.wellFormed tag
  rw [htag] at hbare
  have hstays := stays_planted hbare
  have hgrown : Grown c name (d.nextId :: beds) (createElement tag d).document := by
    refine ⟨hd.sown.planted (by simp) hbare hs, fun q hq => ?_⟩
    rcases List.mem_cons.mp hq with rfl | hold
    · exact bed_nextId hd.sown.wellFormed hbare rfl
    · exact (hd.beds q hold).stays hstays
  obtain ⟨d', hgives, hstays', hgrown'⟩ := hf d.nextId _ hgrown
  have hcreate : Gives (createElement tag) d d.nextId _ := ⟨createElement_result tag d, rfl⟩
  refine ⟨d.nextId, d', hcreate.bind hgives, hstays.trans hstays', hgrown', d.not_alive_nextId,
    ?_, ?_⟩
  · rw [hstays'.parent? _ hbare.alive_self, hbare.place]
  · exact isElement_iff.mpr ⟨_, (hstays'.kind? _ hbare.alive_self).trans hbare.self⟩

-- What was made apart is put in a bed that was there before.
theorem GrowsApart.appended {m : Edit NodeId} (h : GrowsApart c name beds m) (hp : p ∈ beds) :
    Grows (Grown c name) beds (Edit.bind m fun x => appendChild p x) fun _ => [] := by
  intro d hd
  obtain ⟨x, d', hgives, hstays, hgrown, hfresh, hnone, hx⟩ := h d hd
  obtain ⟨e, he⟩ := isElement_iff.mp hx
  have hb := hgrown.beds p (List.mem_cons_of_mem _ hp)
  have hw := hgrown.sown.wellFormed
  have hxa := hw.alive_of_kind? he rfl
  have hunder : ¬d'.links.Under p x := fun hu =>
    hfresh (hstays.alive_of_under hd.sown.wellFormed hu (hd.beds p hp).alive)
  obtain ⟨hlink, hw'⟩ := gives_appendChild hb.alive hxa hw hb.isText he hnone hunder
  have hstays' : Stays d (d'.link p x) := by
    refine ⟨fun y ha => (sameTenants_link.alive_iff y).mpr (hstays.alive y ha),
      fun y ha => (kind?_link y).trans (hstays.kind? y ha), fun y ha => ?_⟩
    have hne : y ≠ x := by
      rintro rfl
      exact hfresh ha
    rw [parent?_link hb.alive hxa, if_neg hne, hstays.parent? y ha]
  exact ⟨(), _, hgives.bind hlink, hstays', hgrown.sown.linked hb he hw', fun q hq =>
    (hd.beds q hq).stays hstays'⟩

end Apart
end PageLocalizer.Translation
