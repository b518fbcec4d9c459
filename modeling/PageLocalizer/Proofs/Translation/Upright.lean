import PageLocalizer.Document.Markup
import PageLocalizer.Proofs.Dashboard.Rows
import PageLocalizer.Proofs.Translation.Patching
import PageLocalizer.Proofs.Translation.Sparing

-- Pages with a way up to the body that no translation cuts, so that what stands on the way keeps
-- its place whatever happens around it.
namespace PageLocalizer

namespace Document

open Translation

-- The document element is all that the page holds, and `lang` is what it says of the language. The
-- nodes of the way are elements that lead up to the body, and none of them asks for a text.
structure Upright (lang : Option String) (way : List NodeId) (d : Document) : Prop where
  wellFormed : d.WellFormed
  only : d.children root = [html]
  headed : ∃ as, d.kind? html = some (.element ⟨"html", as⟩) ∧ as.lookup "lang" = lang
  element : ∀ n ∈ way, d.isElement n = true
  parent : ∀ n ∈ way, n = body ∨ ∃ p ∈ way, d.parent? n = some p
  unmarked : ∀ n ∈ way, ∀ D : Directive, D.target = .textContent →
    d.hasAttribute n D.marker = false
  untitled : title ∉ way

variable {lang : Option String} {way : List NodeId} {d d' : Document} {id n x place : NodeId}
  {name value text : String}

namespace Upright

private theorem attribute?_lang (h : Upright lang way d) : d.attribute? html "lang" = lang := by
  obtain ⟨as, hk, hlookup⟩ := h.headed
  simpa [attribute?, attributes, element?_of_kind? hk] using hlookup

theorem root_not_mem (h : Upright lang way d) : root ∉ way := by
  intro hm
  have hel := h.element root hm
  simp [isElement, h.wellFormed.root_kind, NodeKind.isElement] at hel

private theorem html_not_mem (h : Upright lang way d) : html ∉ way := by
  intro hm
  have hp : d.parent? html = some root :=
    h.wellFormed.forest.parent_of_mem (by simp [links, h.only])
  rcases h.parent html hm with heq | ⟨p, hpm, hpp⟩
  · exact absurd heq (by decide)
  · obtain rfl : root = p := Option.some.inj (hp.symm.trans hpp)
    exact h.root_not_mem hpm

-- Nothing below the root but the document element, and the same things on the way.
theorem of_links (h : Upright lang way d) (hw : d'.WellFormed)
    (honly : d'.children root = d.children root)
    (hkind : ∀ n, n = html ∨ n ∈ way → d'.kind? n = d.kind? n)
    (hparent : ∀ n ∈ way, n ≠ body → d'.parent? n = d.parent? n) : Upright lang way d' where
  wellFormed := hw
  only := honly.trans h.only
  headed := by
    rw [hkind html (.inl rfl)]
    exact h.headed
  element n hn := by simpa [isElement, hkind n (.inr hn)] using h.element n hn
  parent n hn := by
    by_cases hb : n = body
    · exact .inl hb
    · rw [hparent n hn hb]
      exact h.parent n hn
  unmarked n hn D hD := by
    rw [hasAttribute, attribute?_congr (hkind n (.inr hn))]
    exact h.unmarked n hn D hD
  untitled := h.untitled

-- Whatever is above a node of the way is on the way, or above the body.
theorem above (h : Upright lang way d) (hn : n ∈ way) (hu : d.links.Under n x) :
    x ∈ way ∨ d.links.Under body x := by
  induction hu using Relation.ReflTransGen.head_induction_on with
  | refl => exact .inl hn
  | @head c p hp hu ih =>
      rcases h.parent c hn with rfl | ⟨q, hq, hcq⟩
      · exact .inr ((Links.under_of_parent hp).trans hu)
      · obtain rfl : q = p := Option.some.inj (hcq.symm.trans hp)
        exact ih hq

-- Who makes room for a text does not take the way along: as it is not on the way itself, it would
-- hold the body.
theorem not_mem_goneBelow (h : Upright lang way d) (hid : id ∉ way) (hn : n ∈ way) :
    n ∉ d.goneBelow id := by
  intro hm
  have hf := h.wellFormed.forest
  obtain ⟨c, hc, hleaves⟩ := List.mem_flatMap.mp hm
  have hp := hf.parent_of_mem hc
  have hu : d.links.Under n c := (mem_subtree_iff hf).mp (leaving_subset hleaves)
  have hbody : d.links.Under body c := by
    rcases h.above hn hu with hway | hbody
    · rcases h.parent c hway with rfl | ⟨q, hq, hcq⟩
      · exact Links.Under.refl _ body
      · exact absurd (Option.some.inj (hcq.symm.trans hp) ▸ hq) hid
    · exact hbody
  unfold leaving at hleaves
  cases hr : d.releasable c with
  | error e => simp [hr] at hleaves
  | ok ids =>
      exact (releasable_eq_ok hr).2.2 body (by simp [skeleton]) ((mem_subtree_iff hf).mpr hbody)

theorem refilled (h : Upright lang way d) (hr : d.Refilled id text d') (hid : id ∉ way)
    (hroot : id ≠ root) : Upright lang way d' := by
  have hw := h.wellFormed
  have hskeleton : ∀ n ∈ skeleton, n ∉ d.goneBelow id := fun n hn =>
    ((hr.turnover.alive_iff n).mp (hr.wellFormed.skeleton_alive n hn)).2
  have halive : ∀ n, n = html ∨ n ∈ way → d.Alive n := by
    rintro n (rfl | hn)
    · exact hw.skeleton_alive html (by simp [skeleton])
    · exact hw.alive_of_isContainer (isContainer_of_isElement (h.element n hn))
  have hstays : ∀ n, n = html ∨ n ∈ way → n ∉ d.goneBelow id := by
    rintro n (rfl | hn)
    · exact hskeleton html (by simp [skeleton])
    · exact h.not_mem_goneBelow hid hn
  refine h.of_links hr.wellFormed ?_ (fun n hn => ?_) fun n hn hb => ?_
  · rw [hr.children, if_neg hroot.symm, if_neg (hskeleton root (by simp [skeleton]))]
  · have ha : d'.Alive n := (hr.turnover.alive_iff n).mpr ⟨.inl (halive n hn), hstays n hn⟩
    rw [hr.kind? n ha, if_neg (WellFormed.not_mem_arrivals (halive n hn) text)]
  · have hchild : n ∉ d.children id := by
      intro hc
      have hp := hw.forest.parent_of_mem hc
      rcases h.parent n hn with heq | ⟨q, hq, hnq⟩
      · exact hb heq
      · exact hid (Option.some.inj (hnq.symm.trans hp) ▸ hq)
    rw [hr.parent?, if_neg (WellFormed.not_mem_arrivals (halive n (.inr hn)) text),
      if_neg (not_or.mpr ⟨hchild, hstays n (.inr hn)⟩)]

theorem setText (h : Upright lang way d) (hid : id ∉ way) (hroot : id ≠ root) (text : String) :
    Upright lang way (Document.setText id text d).document := by
  rcases h.wellFormed.setText_cases id text with ⟨-, he⟩ | ⟨node, target, -, -, hr, -⟩ |
    ⟨-, -, -, hr, -⟩
  · rw [he]
    exact h
  · have hne : ∀ n, d.isElement n = true → n ≠ target := by
      rintro n hn rfl
      exact absurd hr.wasText (by simp [isText_of_isContainer (isContainer_of_isElement hn)])
    refine h.of_links hr.wellFormed (children_of_links hr.links root) (fun n hn => ?_) fun n _ _ =>
      parent?_of_links hr.links n
    rw [hr.kind?, if_neg]
    rcases hn with rfl | hn
    · exact hne html (h.wellFormed.element html (by simp))
    · exact hne n (h.element n hn)
  · exact h.refilled hr hid hroot

theorem setAttribute (h : Upright lang way d)
    (hid : id ∈ way → ∀ D : Directive, D.target = .textContent → D.marker ≠ name)
    (value : String) :
    Upright (if id = html ∧ name = "lang" then some value else lang) way
      (Document.setAttribute id name value d).document := by
  have hw := (h.wellFormed.setAttribute id name value).1
  cases he : d.element? id with
  | none =>
      have hdoc : (Document.setAttribute id name value d).document = d := by
        simp [Document.setAttribute, he]
      have hne : id ≠ html := by
        rintro rfl
        obtain ⟨as, hk, -⟩ := h.headed
        simp [element?_of_kind? hk] at he
      rw [hdoc, if_neg fun hboth => hne hboth.1]
      exact h
  | some e =>
      obtain ⟨node, hn, hnk⟩ := node?_of_element? he
      have hel : d.isElement id = true :=
        isElement_iff.mpr ⟨e, by rw [kind?_of_node? hn, hnk]⟩
      have hdoc : (Document.setAttribute id name value d).document =
          d.withAttributes id e (setEntry name value e.attributes) := by
        simp [Document.setAttribute, he]
      have hlinks : (Document.setAttribute id name value d).document.links = d.links := by
        rw [hdoc]
        exact links_withAttributes _
      have hkind := kind?_withAttributes he (setEntry name value e.attributes)
      rw [← hdoc] at hkind
      have hattribute : ∀ n other,
          (Document.setAttribute id name value d).document.attribute? n other =
            if n = id ∧ other = name then some value else d.attribute? n other := by
        intro n other
        by_cases hn : n = id
        · subst hn
          simp [attribute?_setAttribute hel]
        · rw [if_neg fun hboth => hn hboth.1]
          exact attribute?_congr ((hkind n).trans (if_neg hn)) other
      refine ⟨hw, (children_of_links hlinks root).trans h.only, ?_, fun n hway => ?_,
        fun n hway => ?_, fun n hway D hD => ?_, h.untitled⟩
      · obtain ⟨as, hk, hlookup⟩ := h.headed
        rw [hkind]
        by_cases hid : id = html
        · subst hid
          obtain rfl : e = ⟨"html", as⟩ := by simpa [element?_of_kind? hk, eq_comm] using he
          refine ⟨_, if_pos rfl, ?_⟩
          rw [lookup_setEntry, hlookup]
          simp [eq_comm]
        · exact ⟨as, (if_neg (Ne.symm hid)).trans hk, by rw [hlookup, if_neg fun h => hid h.1]⟩
      · simp only [isElement, hkind]
        split
        · rfl
        · exact h.element n hway
      · rw [parent?_of_links hlinks n]
        exact h.parent n hway
      · rw [hasAttribute, hattribute, if_neg]
        · exact h.unmarked n hway D hD
        · rintro ⟨rfl, hmarker⟩
          exact hid hway D hD hmarker

-- More can be built beside the way and on it.
theorem extended (h : Upright lang way d) (he : d.Extends place d') (hplace : place ≠ root) :
    Upright lang way d' := by
  have hw := h.wellFormed
  have halive : ∀ n, n = html ∨ n ∈ way → d.Alive n := by
    rintro n (rfl | hn)
    · exact hw.skeleton_alive html (by simp [skeleton])
    · exact hw.alive_of_isContainer (isContainer_of_isElement (h.element n hn))
  refine h.of_links he.wellFormed ?_ (fun n hn => he.kind? n (halive n hn)) fun n hn _ =>
    he.parent? n (halive n (.inr hn))
  exact he.children root (hw.skeleton_alive root (by simp [skeleton])) hplace.symm

-- The page begins with the document element.
theorem outerHtml (h : Upright lang way d) : ∃ attributes rest,
    d.outerHtml root =
      String.ofList (Markup.doctype ++ Markup.openTag ⟨"html", attributes⟩ ++ rest) ∧
    attributes.lookup "lang" = lang := by
  obtain ⟨attributes, hk, hlookup⟩ := h.headed
  obtain ⟨node, hn⟩ := Option.isSome_iff_exists.mp
    (h.wellFormed.skeleton_alive root (by simp [skeleton])).1
  obtain ⟨levels, hlevels⟩ : ∃ levels, d.allocated = levels + 1 :=
    Nat.exists_eq_succ_of_ne_zero (Nat.ne_of_gt (Nat.zero_lt_of_lt (lt_allocated_of_node? hn)))
  refine ⟨attributes, (d.children html).flatMap (d.markup levels) ++
    Markup.closeTag ⟨"html", attributes⟩, ?_, hlookup⟩
  have hvoid : ("html" : String) ∉ Markup.voidTags := by decide
  simp [Document.outerHtml, hlevels, markup, h.wellFormed.root_kind, h.only, hk, hvoid]

-- Others than before may observe the page.
theorem of_observers (h : Upright lang way d) (hs : d'.slots = d.slots) (hf : d'.free = d.free) :
    Upright lang way d' := by
  have hn : d'.node? = d.node? := by
    funext x
    simp [node?, hs]
  exact h.of_links (Operation.wellFormed_of_observers h.wellFormed hs hf).1
    (by simp [children, hn]) (fun n _ => by simp [kind?, hn]) fun n _ _ => by simp [parent?, hn]

end Upright

end Document

namespace Translation

open Document Edit

variable {lang : Option String} {way : List NodeId} {d d' : Document} {x : NodeId} {D : Directive}

-- Nothing that is on the way asks for a text, and no directive writes to a marker or to the
-- language.
theorem upright_write (h : Upright lang way d) (hroot : x ≠ root)
    (hx : D.target = .textContent → x ∉ way) (v : String) :
    Upright lang way (write x D.target v d).document := by
  rcases hD : D.target with _ | name
  · have hset := h.setText (hx hD) hroot v
    unfold write
    dsimp only
    split
    · exact h
    · exact hset
  · have hlang : name ≠ "lang" := by
      rintro rfl
      cases D <;> simp [Directive.target] at hD
    have hset : Upright _ way (setAttribute x name v d).document :=
      h.setAttribute (fun _ E _ => marker_ne E hD) v
    rw [if_neg fun hboth => hlang hboth.2] at hset
    unfold write
    dsimp only
    split
    · split
      · exact h
      · exact hset
    · split
      · exact h
      · exact hset

theorem upright_applyTo (h : Upright lang way d) (hroot : x ≠ root)
    (hx : D.target = .textContent → x ∉ way) (c : Catalog) (l : Locale) :
    Upright lang way (applyTo c l D x d).document := by
  unfold applyTo
  split
  · exact upright_write h hroot hx _
  · exact h

theorem upright_applyDirective (h : Upright lang way d) (c : Catalog) (l : Locale) (site : NodeId)
    (D : Directive) : Upright lang way (applyDirective c l site D d).document := by
  refine each_induction (succeeds_applyTo c l D) h fun x hx d' hd' => ?_
  obtain ⟨-, -, hmark⟩ := mem_collect_iff.mp hx
  refine upright_applyTo hd' ?_ (fun hD hway => ?_) c l
  · rintro rfl
    obtain ⟨value, hv⟩ := Option.isSome_iff_exists.mp hmark
    have hel := isElement_of_attribute? hv
    simp [Document.isElement, h.wellFormed.root_kind, NodeKind.isElement] at hel
  · simp [h.unmarked x hway D hD] at hmark

theorem upright_pass (h : Upright lang way d) (c : Catalog) (l : Locale) (x : NodeId) :
    Upright lang way (pass c l x d).document := by
  have hall : Upright lang way (Edit.each Directive.all (applyDirective c l x) d).document :=
    each_induction (succeeds_applyDirective c l x) h
      fun D _ _ hd' => upright_applyDirective hd' c l x D
  rw [pass_eq, bind_document (succeeds_each (succeeds_applyDirective c l x) _)]
  split
  · unfold retitle
    dsimp only
    split
    · exact hall
    · exact hall.setText hall.untitled (by decide) _
  · exact hall

end Translation

namespace Engine

open Document Edit

variable {lang : Option String} {way : List NodeId} {d : Document}

-- Whatever the attribute is that shows the locale, the document element says its language.
theorem upright_mark (h : Upright lang way d) (e : Engine) (l : Locale) :
    Upright (some l.languageTag) way (e.mark l d).document := by
  have hensure : ∀ {lang' d'} (name value : String), Upright lang' way d' →
      Upright (if name = "lang" then some value else lang') way
        (ensureAttribute html name value d').document := by
    intro lang' d' name value h'
    unfold ensureAttribute
    by_cases hsame : d'.attribute? html name = some value
    · rw [if_pos hsame]
      by_cases hname : name = "lang"
      · subst hname
        rw [if_pos rfl, ← hsame, h'.attribute?_lang]
        exact h'
      · rw [if_neg hname]
        exact h'
    · rw [if_neg hsame]
      have hset : Upright _ way (setAttribute html name value d').document :=
        h'.setAttribute (fun hm => absurd hm h'.html_not_mem) value
      simpa using hset
  have hdoc : (e.mark l d).document = (ensureAttribute html "lang" l.languageTag
      (ensureAttribute html e.settings.localeAttribute l.tag d).document).document :=
    bind_document (Translation.succeeds_ensureAttribute _ _ _) d
  rw [hdoc]
  exact hensure "lang" l.languageTag (hensure _ _ h)

end Engine
end PageLocalizer
