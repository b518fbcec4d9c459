import PageLocalizer.Proofs.Document.TreeEdits
import PageLocalizer.Proofs.Translation.Growth
import PageLocalizer.Proofs.Translation.Patching

-- Pages that stand firm under translation: each text that is asked for has one text node to go to,
-- and no text that is given is empty. So translations write over what is there, and no node comes
-- or goes.
namespace PageLocalizer

namespace Document

-- One text node, and nothing else, below `x`.
def HoldsWord (d : Document) (x : NodeId) : Prop := ∃ t, d.children x = [t] ∧ d.isText t = true

-- The same nodes in the same places, which ask for the same texts.
structure Reshown (d d' : Document) : Prop where
  wellFormed : d'.WellFormed
  sameTenants : d.SameTenants d'
  links : d'.links = d.links
  isText : ∀ x, d'.isText x = d.isText x
  isElement : ∀ x, d'.isElement x = d.isElement x
  marker : ∀ x (D : Directive), D.target = .textContent →
    d'.attribute? x D.marker = d.attribute? x D.marker

variable {d d' d'' : Document} {x t : NodeId} {text name : String}

theorem HoldsWord.congr (h : d.HoldsWord x) (hc : d'.children x = d.children x)
    (ht : ∀ t ∈ d.children x, d'.isText t = d.isText t) : d'.HoldsWord x := by
  obtain ⟨t, hx, htext⟩ := h
  exact ⟨t, hc.trans hx, (ht t (by simp [hx])).trans htext⟩

theorem HoldsOnly.holdsWord (h : d.HoldsOnly x text) (hne : text ≠ "") : d.HoldsWord x := by
  obtain ⟨hnil, -⟩ | ⟨-, t, ht, hk⟩ := h
  · exact absurd hnil hne
  · exact ⟨t, ht, isText_iff.mpr ⟨text, hk⟩⟩

namespace Reshown

theorem refl (hw : d.WellFormed) : d.Reshown d :=
  ⟨hw, .refl d, rfl, fun _ => rfl, fun _ => rfl, fun _ _ _ => rfl⟩

theorem trans (h : d.Reshown d') (h' : d'.Reshown d'') : d.Reshown d'' where
  wellFormed := h'.wellFormed
  sameTenants := h.sameTenants.trans h'.sameTenants
  links := h'.links.trans h.links
  isText x := (h'.isText x).trans (h.isText x)
  isElement x := (h'.isElement x).trans (h.isElement x)
  marker x D hD := (h'.marker x D hD).trans (h.marker x D hD)

theorem holdsWord (h : d.Reshown d') (hx : d.HoldsWord x) : d'.HoldsWord x :=
  hx.congr (children_of_links h.links x) fun t _ => h.isText t

end Reshown

theorem Reworded.reshown (h : d.Reworded t text d') : d.Reshown d' := by
  obtain ⟨data, hk⟩ := isText_iff.mp h.wasText
  refine ⟨h.wellFormed, h.sameTenants, h.links, fun x => ?_, fun x => ?_, fun x D _ => ?_⟩
  all_goals by_cases hx : x = t
  · simp [isText, h.kind?, hx, hk, NodeKind.isText]
  · simp [isText, h.kind?, hx]
  · simp [isElement, h.kind?, hx, hk, NodeKind.isElement]
  · simp [isElement, h.kind?, hx]
  · simp [attribute?, attributes, element?, h.kind?, hx, hk]
  · exact attribute?_congr ((h.kind? x).trans (if_neg hx)) D.marker

theorem WellFormed.reshown_setAttribute (hw : d.WellFormed)
    (hname : ∀ D : Directive, D.target = .textContent → D.marker ≠ name) (x : NodeId)
    (value : String) : d.Reshown (Document.setAttribute x name value d).document := by
  cases he : d.element? x with
  | none =>
      have hdoc : (Document.setAttribute x name value d).document = d := by
        simp [Document.setAttribute, he]
      rw [hdoc]
      exact .refl hw
  | some e =>
      have hdoc : (Document.setAttribute x name value d).document =
          d.withAttributes x e (setEntry name value e.attributes) := by
        simp [Document.setAttribute, he]
      obtain ⟨hw', hsame⟩ := hw.setAttribute x name value
      rw [hdoc] at hw' hsame ⊢
      have hkind := kind?_withAttributes he (setEntry name value e.attributes)
      obtain ⟨node, hn, hnk⟩ := node?_of_element? he
      have hx : d.kind? x = some (.element e) := by rw [kind?_of_node? hn, hnk]
      refine ⟨hw', hsame, links_withAttributes _, fun y => ?_, fun y => ?_, fun y D hD => ?_⟩
      all_goals by_cases hy : y = x
      · simp [isText, hkind, hy, hx, NodeKind.isText]
      · simp [isText, hkind, hy]
      · simp [isElement, hkind, hy, hx, NodeKind.isElement]
      · simp [isElement, hkind, hy]
      · have hlookup := lookup_setEntry name value D.marker e.attributes
        rw [if_neg (hname D hD)] at hlookup
        simpa [attribute?, attributes, element?, hkind, hy, hx] using hlookup
      · exact attribute?_congr ((hkind y).trans (if_neg hy)) D.marker

-- Others than before may observe the page.
theorem WellFormed.reshown_of_observers (hw : d.WellFormed) (hs : d'.slots = d.slots)
    (hf : d'.free = d.free) : d.Reshown d' := by
  have hn : d'.node? = d.node? := by
    funext x
    simp [node?, hs]
  have hk : d'.kind? = d.kind? := by
    funext x
    simp [kind?, hn]
  obtain ⟨hw', hsame⟩ := Operation.wellFormed_of_observers hw hs hf
  refine ⟨hw', hsame, ?_, fun x => ?_, fun x => ?_, fun x D _ => attribute?_congr (by rw [hk]) _⟩
  · simp only [links, Links.mk.injEq]
    constructor <;> funext x
    · simp [Document.parent?, hn]
    · simp [Document.children, hn]
  · simp [isText, hk]
  · simp [isElement, hk]

end Document

namespace Translation

open Document Edit

structure Firm (c : Catalog) (d : Document) : Prop where
  wellFormed : d.WellFormed
  worded : ∀ x (D : Directive), D.target = .textContent → d.hasAttribute x D.marker = true →
    d.HoldsWord x
  spoken : ∀ x key, d.attribute? x Directive.text.marker = some key →
    ∀ l, c.lookupMessage l (Text.trim key) none ≠ ""
  named : d.HoldsWord Document.title

variable {c : Catalog} {l : Locale} {d d' : Document} {x p : NodeId} {D : Directive}
  {as : List (String × String)} {e : Element} {place : Option NodeId} {text v : String}

section Elements

theorem hasAttribute_iff_mem_texting (hx : d.kind? x = some (.element e))
    (hD : D.target = .textContent) :
    d.hasAttribute x D.marker = true ↔ D ∈ texting e.attributes := by
  rw [mem_texting_iff, hasAttribute, Sown.attribute?_eq hx]
  simp [hD]

-- An element that asks for a text has one from the beginning.
theorem Seeded.text_ne (h : Seeded c as text) (hD : D ∈ texting as) : text ≠ "" := by
  obtain ⟨htarget, hsome⟩ := mem_texting_iff.mp hD
  obtain ⟨value, hv⟩ := Option.isSome_iff_exists.mp hsome
  have hagrees := h.agrees D value hv
  cases D with
  | languageIndicator =>
      obtain rfl : text = Locale.en.indicator := hagrees
      decide
  | template =>
      obtain ⟨-, hr⟩ := hagrees
      exact hr.english ▸ hr.everywhere .en
  | text =>
      obtain ⟨-, label, hs, hsays⟩ := hagrees
      obtain rfl : text = label := Option.some.inj hs
      exact hsays.english ▸ hsays.everywhere .en
  | _ => simp [Directive.target] at htarget

theorem Bed.reshown (hb : Bed d p) (hr : d.Reshown d') : Bed d' p where
  alive := (hr.sameTenants.alive_iff p).mpr hb.alive
  isText := (hr.isText p).trans hb.isText
  ne_title := hb.ne_title
  bare e' he' := by
    obtain ⟨e, he⟩ := isElement_iff.mp ((hr.isElement p).symm.trans (isElement_iff.mpr ⟨e', he'⟩))
    refine List.eq_nil_iff_forall_not_mem.mpr fun D hD => ?_
    have htarget := (mem_texting_iff.mp hD).1
    have hmark := (hasAttribute_iff_mem_texting he' htarget).mpr hD
    rw [hasAttribute, hr.marker p D htarget] at hmark
    have hold := (hasAttribute_iff_mem_texting he htarget).mp hmark
    simp [hb.bare e he] at hold

end Elements

namespace Firm

theorem reshown (h : Firm c d) (hr : d.Reshown d') : Firm c d' where
  wellFormed := hr.wellFormed
  worded x D hD hx := hr.holdsWord (h.worded x D hD (by rwa [hasAttribute, ← hr.marker x D hD]))
  spoken x key hx := h.spoken x key ((hr.marker x .text rfl).symm.trans hx)
  named := hr.holdsWord h.named

section Growth

-- Elements have joined the page, in beds or apart, and they are firm themselves.
theorem extend (h : Firm c d) (hw : d'.WellFormed)
    (hkind : ∀ y, d.Alive y → d'.kind? y = d.kind? y)
    (hchildren : ∀ y, d.Alive y → d'.children y = d.children y ∨ Bed d y)
    (hnew : ∀ x e, d'.kind? x = some (.element e) → ¬d.Alive x →
      ∃ text, Seeded c e.attributes text ∧ d'.HoldsOnly x text) : Firm c d' := by
  have hkept : ∀ y, d.Alive y → ¬Bed d y → d.HoldsWord y → d'.HoldsWord y := fun y ha hb hy =>
    hy.congr ((hchildren y ha).resolve_right hb) fun t ht =>
      have hp := h.wellFormed.forest.parent_of_mem ht
      isText_congr (hkind t (h.wellFormed.alive_of_parent? hp).1)
  have htitle := h.wellFormed.skeleton_alive Document.title (by simp [skeleton])
  refine ⟨hw, fun x D hD hx => ?_, fun x key hx => ?_, ?_⟩
  · obtain ⟨e, value, he, -⟩ := Sown.carrier hx
    have hmem := (hasAttribute_iff_mem_texting he hD).mp hx
    by_cases ha : d.Alive x
    · have hold := (hkind x ha).symm.trans he
      have hbed : ¬Bed d x := fun hb => by simp [hb.bare e hold] at hmem
      exact hkept x ha hbed (h.worded x D hD ((hasAttribute_iff_mem_texting hold hD).mpr hmem))
    · obtain ⟨text, hs, htext⟩ := hnew x e he ha
      exact htext.holdsWord (hs.text_ne hmem)
  · obtain ⟨e, he⟩ := isElement_iff.mp (isElement_of_attribute? hx)
    by_cases ha : d.Alive x
    · exact h.spoken x key ((attribute?_congr (hkind x ha) _).symm.trans hx)
    · obtain ⟨text, hs, -⟩ := hnew x e he ha
      obtain ⟨-, label, -, hsays⟩ := hs.agrees .text key ((Sown.attribute?_eq he _).symm.trans hx)
      exact hsays.everywhere
  · exact hkept _ htitle (fun hb => hb.ne_title rfl) h.named

theorem planted (h : Firm c d) (hb : ∀ p, place = some p → Bed d p)
    (hp : d.Planted place e text d') (hs : Seeded c e.attributes text) : Firm c d' := by
  refine h.extend hp.wellFormed hp.kind? (fun y ha => ?_) fun x e' hx ha => ?_
  · rw [hp.children y ha]
    split
    · rename_i hplace
      exact .inr (hb y hplace)
    · exact .inl rfl
  · obtain rfl : x = d.nextId := (hp.only x (isElement_iff.mpr ⟨e', hx⟩)).resolve_left ha
    obtain rfl : e = e' := by simpa [hp.self] using hx
    exact ⟨text, hs, hp.text⟩

theorem linked (h : Firm c d) (hb : Bed d p) (hx : d.Alive x) (hw : (d.link p x).WellFormed) :
    Firm c (d.link p x) := by
  refine h.extend hw (fun y _ => kind?_link y) (fun y _ => ?_) fun y e' hy ha => ?_
  · rw [children_link hb.alive hx]
    by_cases hyp : y = p
    · exact .inr (hyp ▸ hb)
    · exact .inl (if_neg hyp)
  · exact absurd (h.wellFormed.alive_of_kind? ((kind?_link y).symm.trans hy) rfl) ha

-- An element that goes takes no text of another one along.
theorem released (h : Firm c d) (hx : d.isElement x = true) (hr : d.Released x d')
    (hw : d'.WellFormed) : Firm c d' := by
  have hkept : ∀ y, d'.Alive y → d.HoldsWord y → d'.HoldsWord y := by
    rintro y ha ⟨t, hy, ht⟩
    have hne : t ≠ x := by
      rintro rfl
      simp [isText_of_isContainer (isContainer_of_isElement hx)] at ht
    have hy' : d'.children y = [t] := by
      rw [hr.children y ha, hy]
      simp [hne]
    have hmem : t ∈ d'.children y := by simp [hy']
    have hta := (hw.alive_of_parent? (hw.forest.parent_of_mem hmem)).1
    exact ⟨t, hy', (isText_congr (hr.kind? t hta)).trans ht⟩
  have hold : ∀ {y name value}, d'.attribute? y name = some value →
      d'.Alive y ∧ d.attribute? y name = some value := fun hy =>
    have ha := hw.alive_of_isContainer (isContainer_of_isElement (isElement_of_attribute? hy))
    ⟨ha, (attribute?_congr (hr.kind? _ ha) _).symm.trans hy⟩
  refine ⟨hw, fun y D hD hy => ?_, fun y key hy => h.spoken y key (hold hy).2, ?_⟩
  · obtain ⟨value, hv⟩ := Option.isSome_iff_exists.mp hy
    exact hkept y (hold hv).1 (h.worded y D hD (by simp [hasAttribute, (hold hv).2]))
  · exact hkept _ (hw.skeleton_alive _ (by simp [skeleton])) h.named

end Growth

section Passes

theorem setText (h : Firm c d) (hx : d.HoldsWord x) (hv : v ≠ "") :
    d.Reshown (Document.setText x v d).document := by
  rcases h.wellFormed.setText_cases x v with ⟨-, he⟩ | ⟨node, t, -, -, hr, -⟩ |
    ⟨-, -, ⟨node, hn, htarget⟩, -⟩
  · rw [he]
    exact .refl h.wellFormed
  · exact hr.reshown
  · obtain ⟨t, hc, ht⟩ := hx
    exact absurd (eq_empty_of_textTarget?_none hn htarget hc ht) hv

-- No element is given the empty text.
private theorem resolve_ne (h : Firm c d) (hD : D.target = .textContent)
    (hres : resolve c l d D x = some v) : v ≠ "" := by
  cases D with
  | languageIndicator =>
      obtain rfl : l.indicator = v := Option.some.inj hres
      cases l <;> decide
  | template => exact of_decide_eq_true (Option.filter_eq_some_iff.mp hres).2
  | text =>
      obtain ⟨key, hkey, rfl⟩ := Option.map_eq_some_iff.mp hres
      obtain ⟨hvalue, -⟩ := Option.filter_eq_some_iff.mp hkey
      obtain ⟨value, hv, rfl⟩ := Option.map_eq_some_iff.mp hvalue
      have hspoken := h.spoken x value hv l
      rwa [Catalog.lookupMessage_of_ne hspoken]
  | _ => simp [Directive.target] at hD

theorem write (h : Firm c d) (hx : D.target = .textContent → d.HoldsWord x ∧ v ≠ "") :
    d.Reshown (Translation.write x D.target v d).document := by
  rcases hD : D.target with _ | name
  · obtain ⟨hword, hne⟩ := hx hD
    unfold Translation.write
    dsimp only
    split
    · exact .refl h.wellFormed
    · exact h.setText hword hne
  · have hset := h.wellFormed.reshown_setAttribute (fun E _ => marker_ne E hD) x v
    unfold Translation.write
    dsimp only
    split
    · split
      · exact .refl h.wellFormed
      · exact hset
    · split
      · exact .refl h.wellFormed
      · exact hset

theorem applyTo (h : Firm c d) (l : Locale) (hx : D.target = .textContent → d.HoldsWord x) :
    d.Reshown (Translation.applyTo c l D x d).document := by
  unfold Translation.applyTo
  split
  · rename_i v hres
    exact h.write fun hD => ⟨hx hD, h.resolve_ne hD hres⟩
  · exact .refl h.wellFormed

theorem applyDirective (h : Firm c d) (l : Locale) (site : NodeId) (D : Directive) :
    d.Reshown (Translation.applyDirective c l site D d).document := by
  refine each_induction (succeeds_applyTo c l D) (.refl h.wellFormed) fun x hx d' hd' => ?_
  refine hd'.trans ((h.reshown hd').applyTo l fun hD => hd'.holdsWord ?_)
  exact h.worded x D hD (mem_collect_iff.mp hx).2.2

variable (hname : ∀ l, c.lookupMessage l titleKey none ≠ "")

include hname

theorem retitle (h : Firm c d) (l : Locale) : d.Reshown (Translation.retitle c l d).document := by
  have hne : c.lookupMessage l titleKey (some d.titleText) ≠ "" := by
    rw [Catalog.lookupMessage_of_ne (hname l)]
    exact hname l
  unfold Translation.retitle
  dsimp only
  split
  · exact .refl h.wellFormed
  · exact h.setText h.named hne

-- A pass gives texts and attributes, and every node keeps its place.
theorem pass (h : Firm c d) (l : Locale) (site : NodeId) :
    d.Reshown (Translation.pass c l site d).document := by
  have hall : d.Reshown (each Directive.all (Translation.applyDirective c l site) d).document :=
    each_induction (succeeds_applyDirective c l site) (.refl h.wellFormed) fun D _ d' hd' =>
      hd'.trans ((h.reshown hd').applyDirective l site D)
  rw [pass_eq, bind_document (succeeds_each (succeeds_applyDirective c l site) _)]
  split
  · exact hall.trans ((h.reshown hall).retitle hname l)
  · exact hall

end Passes

end Firm

-- Whoever is gone asks for nothing.
theorem skipped_pass_of_not_alive (hw : d.WellFormed) (hx : ¬d.Alive x) (c : Catalog) (l : Locale) :
    Skipped (pass c l x) d := by
  have hnone : ∀ D : Directive, D.collect d x = [] := fun D =>
    if_neg fun hcon => hx (hw.alive_of_isContainer hcon)
  have hplace : ¬(x = Document.root ∨ x = Document.body) := by
    rintro (rfl | rfl)
    · exact hx (hw.skeleton_alive _ (by simp [skeleton]))
    · exact hx (hw.skeleton_alive _ (by simp [skeleton]))
  rw [pass_eq, if_neg hplace]
  refine skipped_bind (skipped_each fun D _ => ?_) rfl
  unfold Skipped applyDirective
  rw [hnone D]
  rfl

-- Firm pages in the middle of their building.
structure Founded (c : Catalog) (beds : List NodeId) (d : Document) : Prop where
  firm : Firm c d
  beds : ∀ p ∈ beds, Bed d p

instance : Soil c (Founded c) where
  wellFormed hd := hd.firm.wellFormed
  bed hd := hd.beds
  subset hd hs := ⟨hd.firm, fun p hp => hd.beds p (hs hp)⟩
  planted {beds d d' p e text} hd hp hplanted hs := by
    have hbed : ∀ q, some p = some q → Bed d q := fun q hq => Option.some.inj hq ▸ hd.beds p hp
    have hold : ∀ q ∈ beds, Bed d' q := fun q hq => (hd.beds q hq).stays (stays_planted hplanted)
    have hfirm := hd.firm.planted hbed hplanted hs
    refine ⟨⟨hfirm, hold⟩, fun hbare => ⟨hfirm, fun q hq => ?_⟩⟩
    rcases List.mem_cons.mp hq with rfl | hq
    · exact bed_nextId hd.firm.wellFormed hplanted hbare
    · exact hold q hq

end Translation

namespace Engine

open Document Translation Edit

variable {e : Engine} {d : Document}

-- The marks are no markers.
theorem reshown_mark (hw : d.WellFormed) (hset : e.settings = .standard) (l : Locale) :
    d.Reshown (e.mark l d).document := by
  have hensure : ∀ {d' : Document} (name value : String), d'.WellFormed →
      (∀ D : Directive, D.target = .textContent → D.marker ≠ name) →
        d'.Reshown (ensureAttribute html name value d').document := by
    intro d' name value hw' hname
    unfold ensureAttribute
    split
    · exact .refl hw'
    · exact hw'.reshown_setAttribute hname html value
  have hdoc : (e.mark l d).document = (ensureAttribute html "lang" l.languageTag
      (ensureAttribute html e.settings.localeAttribute l.tag d).document).document :=
    bind_document (succeeds_ensureAttribute _ _ _) d
  rw [hdoc, hset]
  have hshown := hensure EngineSettings.standard.localeAttribute l.tag hw
    (fun D _ => by cases D <;> decide)
  exact hshown.trans (hensure "lang" l.languageTag hshown.wellFormed
    (fun D _ => by cases D <;> decide))

end Engine
end PageLocalizer
