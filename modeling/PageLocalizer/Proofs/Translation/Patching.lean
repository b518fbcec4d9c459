import PageLocalizer.Proofs.Translation.Upkeep

-- Passes over parts of a page. Each sees to its part and leaves the rest as it was.
namespace PageLocalizer.Translation

open Document Edit

variable {c : Catalog} {l : Locale} {d d' : Document} {D : Directive} {x b : NodeId}
  {waiting : List NodeId}

-- A pass over a detached part.
section Detached

theorem sameTree_applyTo (hw : d.WellFormed) (hx : ¬d.Attached x) (c : Catalog) (l : Locale)
    (D : Directive) : SameTree d (applyTo c l D x d).document := by
  unfold applyTo write
  split
  · split
    · split
      · exact .refl hw
      · exact sameTree_setText hw hx _
    · split
      · split
        · exact .refl hw
        · exact sameTree_setAttribute hw hx _ _
      · split
        · exact .refl hw
        · exact sameTree_setAttribute hw hx _ _
  · exact .refl hw

theorem sameTree_each {f : β → Edit Unit} (hs : ∀ y, Succeeds (f y)) (hw : d.WellFormed)
    {ys : List β} (h : ∀ y ∈ ys, ∀ d', SameTree d d' → SameTree d' (f y d').document) :
    SameTree d (Edit.each ys f d).document :=
  each_induction hs (.refl hw) fun y hy d' hd' => hd'.trans (h y hy d' hd') hw

theorem sameTree_pass (hw : d.WellFormed) (hi : d.InPlace) (hb : ¬d.Attached b) (c : Catalog)
    (l : Locale) : SameTree d (pass c l b d).document := by
  have hroot : ¬(b = Document.root ∨ b = Document.body) := by
    rintro (rfl | rfl)
    · exact hb (attached_root hw)
    · exact hb (hi.attached hw).2.2.2
  have hbelow : ∀ d', SameTree d d' → ∀ (D : Directive), ∀ x ∈ D.collect d' b,
      ¬d'.Attached x := by
    intro d' hd' D x hx hax
    have hw' := hd'.wellFormed
    have hu := (mem_subtree_iff hw'.forest).mp (mem_collect_iff.mp hx).2.1
    rcases hu.total ((attached_iff hw').mp hax) with hbr | hrb
    · exact hb ((hd'.attached_iff hw).mp ((attached_iff hw').mpr hbr))
    · exact hroot (Or.inl (hrb.eq_of_parent_none hw'.root_parent).symm)
  rw [pass_eq, bind_document (succeeds_each (succeeds_applyDirective c l b) _), if_neg hroot]
  refine sameTree_each (succeeds_applyDirective c l b) hw fun D _ d' hd' => ?_
  have hw' := hd'.wellFormed
  refine sameTree_each (succeeds_applyTo c l D) hw' fun x hx d'' hd'' => ?_
  refine sameTree_applyTo hd''.wellFormed (fun hax => ?_) c l D
  exact hbelow d' hd' D x hx ((hd''.attached_iff hw').mp hax)

end Detached

-- A pass over a part of the tree.
section Attached

theorem ConflictFree.below (hc : ConflictFree d root) (hw : d.WellFormed)
    (hb : d.Attached b) : ConflictFree d b := by
  have hsub : ∀ {x}, x ∈ d.subtree b → x ∈ d.subtree root := fun hx => by
    rw [mem_subtree_iff hw.forest] at hx ⊢
    exact hx.trans ((attached_iff hw).mp hb)
  exact ⟨fun x hx => hc.single x (hsub hx), fun x hx => hc.childless x (hsub hx),
    fun _ => hc.title (Or.inl rfl)⟩

theorem ConflictFree.sameTree (hc : ConflictFree d root) (hw : d.WellFormed)
    (hi : d.InPlace) (hs : SameTree d d') : ConflictFree d' root := by
  have hatt : ∀ {x}, x ∈ d'.subtree root → d.Attached x := fun hx => by
    rw [mem_subtree_iff hs.wellFormed.forest] at hx
    exact (hs.attached_iff hw).mp ((attached_iff hs.wellFormed).mpr hx)
  have hsub : ∀ {x}, d.Attached x → x ∈ d.subtree root := fun hx =>
    (mem_subtree_iff hw.forest).mpr ((attached_iff hw).mp hx)
  have hmark : ∀ {x} {D : Directive}, d.Attached x → d'.hasAttribute x D.marker =
      d.hasAttribute x D.marker := fun hx => by
    rw [hasAttribute, hasAttribute, attribute?_congr (hs.kind? _ hx)]
  have hplain : ∀ {x}, d.Attached x → (∀ y ∈ d.children x, d.isElement y = false) →
      ∀ y ∈ d'.children x, d'.isElement y = false := by
    intro x hx hy y hm
    rw [hs.children x hx] at hm
    have hya := (attached_of_parent hw (hw.forest.parent_of_mem hm)).mpr hx
    simpa [isElement, hs.kind? y hya] using hy y hm
  have htitle := (hi.attached hw).2.2.1
  refine ⟨fun x hx D E hD hE hm hm' => ?_, fun x hx D hD hm => ?_,
    fun hroot => ⟨fun D hD => ?_, ?_⟩⟩
  · rw [hmark (hatt hx)] at hm hm'
    exact hc.single x (hsub (hatt hx)) D E hD hE hm hm'
  · rw [hmark (hatt hx)] at hm
    exact hplain (hatt hx) (hc.childless x (hsub (hatt hx)) D hD hm)
  · rw [hmark htitle]
    exact (hc.title hroot).1 D hD
  · exact hplain htitle (hc.title hroot).2

-- A directive for a text that a pass has applied comes to the text that is there.
private theorem holds_text_of_redrawn (hw : d.WellFormed) (hc : ConflictFree d b)
    (h : Redrawn d (styling c l b d) (wording c l b d) d') (hD : D.target = .textContent)
    (hx : x ∈ D.collect d b) (hxt : x ≠ Document.title) : Holds c l d' D x := by
  have hel := isElement_of_mem_collect hx
  have hdue : Due d (bound d b [] x) D x := hc.due hw hx (by simp)
  have hword : word? c l d (bound d b Directive.all x) x =
      some ((resolve c l d D x).getD (d.textContent x)) := by
    have hmem : D ∈ bound d b Directive.all x :=
      List.mem_filter.mpr ⟨by cases D <;> decide, by simpa using hx⟩
    have hfind : (bound d b Directive.all x).find? (fun E => E.target = .textContent) = some D := by
      cases hf : (bound d b Directive.all x).find? fun E => E.target = .textContent with
      | none => exact absurd (by simpa using hD) (List.find?_eq_none.mp hf D hmem)
      | some E =>
          have hE : E.target = .textContent := by simpa using List.find?_some hf
          have hcol : x ∈ E.collect d b :=
            of_decide_eq_true (List.mem_filter.mp (List.mem_of_find?_eq_some hf)).2
          obtain ⟨-, hsub, hm⟩ := mem_collect_iff.mp hx
          exact congrArg some
            (hc.single x hsub E D hE hD (mem_collect_iff.mp hcol).2.2 hm)
    rw [word?, hfind]
    rfl
  have hshown : d'.textContent x = (resolve c l d D x).getD (d.textContent x) := by
    have ht := (h.text hw (isContainer_of_isElement hel) (hdue.text hD).1).2
    rwa [wording, if_neg fun hx' => hxt hx'.1, hword, Option.getD_some] at ht
  obtain ⟨hkey, hparams⟩ := alike_of_redrawn h hel D
  intro v hv
  have hsame : d'.textContent x = v := by
    cases D with
    | languageIndicator =>
        rw [hshown]
        exact Option.some.inj hv
    | template =>
        have hres : resolve c l d' .template x = resolve c l d .template x := by
          simp only [resolve, hkey, hparams]
        rw [hshown, ← hres, hv, Option.getD_some]
    | text =>
        simp only [resolve, Directive.target, current?, hkey] at hv hshown
        cases hk : Directive.text.key? d x with
        | none => simp [hk] at hv
        | some key =>
            simp only [hk, Option.map_some, Option.getD_some, Option.some.injEq] at hv hshown
            rw [← hv, hshown, lookupMessage_fallback]
    | title => simp [Directive.target] at hD
    | ariaLabel => simp [Directive.target] at hD
    | placeholder => simp [Directive.target] at hD
  rw [hD]
  exact hsame

-- What is below the root of a pass shows all that it asks for.
private theorem shown_of_redrawn (hw : d.WellFormed) (hc : ConflictFree d b)
    (h : Redrawn d (styling c l b d) (wording c l b d) d') (hel : d.isElement x = true)
    (hu : d.links.Under x b)
    (hxt : ∀ D : Directive, D.target = .textContent → d.hasAttribute x D.marker = true →
      x ≠ Document.title)
    (hattr : ∀ D name, D.target = .attribute name → ∀ e ∈ D.collect d' b, Holds c l d' D e) :
    Shown c l d' x := by
  have hxc := isContainer_of_isElement hel
  refine shown_of_holds fun D hm => ?_
  have hcol' : x ∈ D.collect d' b := by
    refine mem_collect_iff.mpr ⟨(h.isContainer b).trans (hw.isContainer_of_under hu hxc), ?_, hm⟩
    exact (mem_subtree_iff h.wellFormed.forest).mpr ((h.under_iff hw hxc).mpr hu)
  have hcol := (mem_collect_of_style h hw).mp hcol'
  obtain ⟨-, hsub, hmd⟩ := mem_collect_iff.mp hcol
  rcases hD : D.target with _ | name
  · refine ⟨holds_text_of_redrawn hw hc h hD hcol (hxt D hD hmd), fun _ => ?_⟩
    have htext := (holdsText_iff hw).mpr (hc.childless x hsub D hD hmd)
    exact h.wellFormed.textContent_of_texts ((h.isContainer x).trans hxc)
      ((h.holdsText_iff hw hxc).mpr htext)
  · exact ⟨hattr D name hD x hcol', by simp⟩

-- What is not below the root of a pass keeps its attributes, and its text where it asks for one.
private theorem untouched_of_redrawn (hw : d.WellFormed)
    (h : Redrawn d (styling c l b d) (wording c l b d) d') (hel : d.isElement x = true)
    (hb : ¬d.links.Under x b)
    (hxt : ∀ D : Directive, D.target = .textContent → d.hasAttribute x D.marker = true →
      d.HoldsText x ∧ x ≠ Document.title) (hs : Shown c l d x) : Shown c l d' x := by
  have hxc := isContainer_of_isElement hel
  have hbound : bound d b Directive.all x = [] := by
    refine List.filter_eq_nil_iff.mpr fun D _ hm => hb ?_
    exact (mem_subtree_iff hw.forest).mp (mem_collect_iff.mp (of_decide_eq_true hm)).2.1
  have hkind : d'.kind? x = d.kind? x := by
    obtain ⟨e, hk⟩ := isElement_iff.mp hel
    have hattr : styling c l b d x = e.attributes := by
      simp [styling, hbound, style, strokes, attributes, element?, hk]
    rw [h.element x e hk, hk, hattr]
  refine hs.of_kind? hkind fun D hD hm => ?_
  obtain ⟨htext, hne⟩ := hxt D hD hm
  obtain ⟨htext', hsame⟩ := h.text hw hxc htext
  rw [wording, if_neg fun hx => hne hx.1, hbound, word?_of_none (by simp),
    Option.getD_none] at hsame
  rwa [h.wellFormed.textContent_of_texts ((h.isContainer x).trans hxc) htext',
    hw.textContent_of_texts hxc htext] at hsame

-- A pass over a part of the page leaves its name alone.
private theorem named_of_redrawn (hw : d.WellFormed) (hb : ¬(b = Document.root ∨ b = Document.body))
    (huntitled : ∀ D : Directive, D.target = .textContent →
      d.hasAttribute Document.title D.marker = false) (ht : d.HoldsText Document.title)
    (h : Redrawn d (styling c l b d) (wording c l b d) d') (hn : Named c l d) : Named c l d' := by
  have hsame := (h.text hw (isContainer_of_isElement (hw.element _ (by simp))) ht).2
  have hnone : ∀ E ∈ bound d b Directive.all Document.title, E.target ≠ .textContent := by
    intro E hE hD
    have hm := (mem_collect_iff.mp (of_decide_eq_true (List.mem_filter.mp hE).2)).2.2
    simp [huntitled E hD] at hm
  rw [wording, if_neg fun hx => hb hx.2, word?_of_none hnone, Option.getD_none] at hsame
  unfold Named titleText at hn ⊢
  rwa [hsame]

end Attached

-- A page whose language is shown on its document element.
section Marked

-- The pages differ at most in attributes that ask for nothing.
structure Labelled (d d' : Document) : Prop where
  wellFormed : d'.WellFormed
  links : d'.links = d.links
  isElement : ∀ x, d'.isElement x = d.isElement x
  marker : ∀ x (D : Directive), d'.hasAttribute x D.marker = d.hasAttribute x D.marker

theorem Labelled.refl (hw : d.WellFormed) : Labelled d d :=
  ⟨hw, rfl, fun _ => rfl, fun _ _ => rfl⟩

theorem Labelled.trans {d'' : Document} (h : Labelled d d') (h' : Labelled d' d'') :
    Labelled d d'' where
  wellFormed := h'.wellFormed
  links := h'.links.trans h.links
  isElement x := (h'.isElement x).trans (h.isElement x)
  marker x D := (h'.marker x D).trans (h.marker x D)

theorem ConflictFree.labelled {r : NodeId} (hc : ConflictFree d r) (hw : d.WellFormed)
    (h : Labelled d d') : ConflictFree d' r := by
  have hsub : ∀ {x}, x ∈ d'.subtree r → x ∈ d.subtree r := fun hx => by
    rw [mem_subtree_iff h.wellFormed.forest, h.links] at hx
    exact (mem_subtree_iff hw.forest).mpr hx
  have hplain : ∀ {x}, (∀ y ∈ d.children x, d.isElement y = false) →
      ∀ y ∈ d'.children x, d'.isElement y = false := fun hx y hy => by
    rw [children_of_links h.links] at hy
    rw [h.isElement]
    exact hx y hy
  refine ⟨fun x hx D E hD hE hm hm' => ?_, fun x hx D hD hm => ?_, fun hr => ⟨fun D hD => ?_, ?_⟩⟩
  · rw [h.marker] at hm hm'
    exact hc.single x (hsub hx) D E hD hE hm hm'
  · rw [h.marker] at hm
    exact hplain (hc.childless x (hsub hx) D hD hm)
  · rw [h.marker]
    exact (hc.title hr).1 D hD
  · exact hplain (hc.title hr).2

theorem succeeds_ensureAttribute (id : NodeId) (name value : String) :
    Succeeds (Engine.ensureAttribute id name value) := by
  intro d
  unfold Engine.ensureAttribute
  split
  · rfl
  · exact succeeds_setAttribute id name value d

end Marked

namespace Abreast

theorem pass_attached (h : Abreast c l (b :: waiting) d) (hc : ConflictFree d root)
    (hb : d.Attached b) : Abreast c l waiting (pass c l b d).document := by
  have hw := h.wellFormed
  have hcb := hc.below hw hb
  have hr := redrawn_pass hw hcb c l
  have hw' := hr.wellFormed
  obtain ⟨-, hattr, hname⟩ := pass_keeps hw c l b
  have huntitled := (hc.title (Or.inl rfl)).1
  have hxt : ∀ {x} {D : Directive}, D.target = .textContent → d.hasAttribute x D.marker = true →
      x ≠ Document.title := by
    rintro x D hD hm rfl
    simp [huntitled D hD] at hm
  constructor
  · exact hw'
  · exact h.inPlace.redrawn hw hr
  · refine (attribute?_of_style hr (hw.element _ (by simp)) fun E _ => ?_).trans h.locale
    cases E <;> simp [Directive.target, EngineSettings.standard]
  · exact (hr.holdsText_iff hw (isContainer_of_isElement (hw.element _ (by simp)))).mpr h.title
  · by_cases hroot : b = Document.root ∨ b = Document.body
    · exact Or.inr (hname hroot)
    · refine h.named.imp (fun hm => ?_) (named_of_redrawn hw hroot huntitled h.title hr)
      exact (List.mem_cons.mp hm).resolve_left fun he => hroot (Or.inl he.symm)
  · intro x hx'
    by_cases hxe : (pass c l b d).document.isElement x = true
    · have hxd : d.isElement x = true := (hr.isElement hw x).symm.trans hxe
      have hxc := isContainer_of_isElement hxd
      have hx : d.Attached x := by
        rw [attached_iff hw'] at hx'
        exact (attached_iff hw).mpr ((hr.under_iff hw hxc).mp hx')
      by_cases hu : d.links.Under x b
      · exact Or.inr (shown_of_redrawn hw hcb hr hxd hu (fun D => hxt) hattr)
      · rcases h.shown x hx with ⟨a, ha, hxa⟩ | hs
        · have hne : a ≠ b := fun he => hu (he ▸ hxa)
          exact Or.inl ⟨a, (List.mem_cons.mp ha).resolve_left hne, (hr.under_iff hw hxc).mpr hxa⟩
        · have hsub := (mem_subtree_iff hw.forest).mpr ((attached_iff hw).mp hx)
          exact Or.inr (untouched_of_redrawn hw hr hxd hu (fun D hD hm =>
            ⟨(holdsText_iff hw).mpr (hc.childless x hsub D hD hm), hxt hD hm⟩) hs)
    -- Only elements ask for anything.
    · refine Or.inr fun D _ hm => absurd ?_ hxe
      obtain ⟨v, hv⟩ := Option.isSome_iff_exists.mp hm
      exact isElement_of_attribute? hv

-- What is detached covers nothing of the tree.
theorem drop (h : Abreast c l (b :: waiting) d) (hb : ¬d.Attached b) :
    Abreast c l waiting d := by
  have hw := h.wellFormed
  refine ⟨hw, h.inPlace, h.locale, h.title, h.named.imp_left fun hm => ?_,
    fun x hx => (h.shown x hx).imp_left fun ⟨a, ha, hu⟩ => ⟨a, ?_, hu⟩⟩
  · exact (List.mem_cons.mp hm).resolve_left fun he => hb (he ▸ attached_root hw)
  · refine (List.mem_cons.mp ha).resolve_left fun he => hb (he ▸ ?_)
    rcases hu.total ((attached_iff hw).mp hx) with har | hra
    · exact (attached_iff hw).mpr har
    · exact hra.eq_of_parent_none hw.root_parent ▸ attached_root hw

theorem pass_detached (h : Abreast c l (b :: waiting) d) (hb : ¬d.Attached b) :
    Abreast c l waiting (Translation.pass c l b d).document := by
  have hs := sameTree_pass h.wellFormed h.inPlace hb c l
  exact (h.sameTree hs).drop fun ha => hb ((hs.attached_iff h.wellFormed).mp ha)

-- A pass over a part that waits, wherever it is by now.
theorem pass (h : Abreast c l (b :: waiting) d) (hc : ConflictFree d root) :
    Abreast c l waiting (Translation.pass c l b d).document ∧
      ConflictFree (Translation.pass c l b d).document root := by
  have hw := h.wellFormed
  by_cases hb : d.Attached b
  · exact ⟨h.pass_attached hc hb, hc.redrawn hw (redrawn_pass hw (hc.below hw hb) c l)⟩
  · exact ⟨h.pass_detached hb, hc.sameTree hw h.inPlace (sameTree_pass hw h.inPlace hb c l)⟩

theorem passes (h : Abreast c l waiting d) (hc : ConflictFree d root) :
    let done := waiting.foldl (fun d b => (Translation.pass c l b d).document) d
    Abreast c l [] done ∧ ConflictFree done root := by
  induction waiting generalizing d with
  | nil => exact ⟨h, hc⟩
  | cons b rest ih =>
      obtain ⟨hnext, hcnext⟩ := h.pass hc
      exact ih hnext hcnext

end Abreast

end PageLocalizer.Translation
