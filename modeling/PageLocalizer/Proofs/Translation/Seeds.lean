import PageLocalizer.Proofs.Catalog.Standard
import PageLocalizer.Proofs.Document.Planting
import PageLocalizer.Proofs.Translation.Switching

-- Pages that show in English already what the catalog says in English.
namespace PageLocalizer.Translation

open Document Edit Catalog

section Seeds

variable {c : Catalog} {as : List (String × String)} {text value : String} {D E : Directive}

-- The directives by which an element with these attributes gets its text.
def texting (as : List (String × String)) : List Directive :=
  [Directive.text, .template, .languageIndicator].filter fun D => (as.lookup D.marker).isSome

theorem mem_texting_iff : D ∈ texting as ↔
    D.target = .textContent ∧ (as.lookup D.marker).isSome = true := by
  unfold texting
  rw [List.mem_filter]
  refine and_congr_left fun _ => ?_
  cases D <;> simp [Directive.target]

-- What a target holds in an element with these attributes and this text.
def shown? (as : List (String × String)) (text : String) : Target → Option String
  | .textContent => some text
  | .attribute name => as.lookup name

def paramsOf (as : List (String × String)) : Params :=
  Table.ofList ((Dataset.ofAttributes as).filter fun (name, _) => !Directive.isMarker name)

-- The target of a directive with this value holds what the catalog says in English, and the catalog
-- says something in every locale.
def Agrees (c : Catalog) (as : List (String × String)) (text : String) (D : Directive)
    (value : String) : Prop :=
  match D with
  | .languageIndicator => text = Locale.en.indicator
  | .template => Text.trim value ≠ "" ∧ c.Renders (Text.trim value) (paramsOf as) text
  | .text | .title | .ariaLabel | .placeholder => Text.trim value ≠ "" ∧
      ∃ label, shown? as text D.target = some label ∧ c.Says (Text.trim value) label

-- An element whose directives all agree. It gets its text from one of them at most.
structure Seeded (c : Catalog) (as : List (String × String)) (text : String) : Prop where
  single : (texting as).length ≤ 1
  agrees : ∀ D value, as.lookup D.marker = some value → Agrees c as text D value

theorem Seeded.eq (h : Seeded c as text) (hD : D ∈ texting as) (hE : E ∈ texting as) : D = E := by
  have hs := h.single
  match ht : texting as, hs with
  | [], _ => simp [ht] at hD
  | [F], _ =>
      simp only [ht, List.mem_singleton] at hD hE
      rw [hD, hE]

end Seeds

-- A page of such elements, with this name.
structure Sown (c : Catalog) (name : String) (d : Document) : Prop where
  wellFormed : d.WellFormed
  seeded : ∀ x e, d.kind? x = some (.element e) → Seeded c e.attributes (d.ownText x)
  worded : ∀ x e, d.kind? x = some (.element e) → texting e.attributes ≠ [] → d.HoldsText x
  title : d.kind? Document.title = some (bareElement "title")
  named : d.HoldsOnly Document.title name

namespace Sown

variable {c : Catalog} {name value : String} {d : Document} {D : Directive} {r x : NodeId}
  {e : Element}

theorem attribute?_eq (hx : d.kind? x = some (.element e)) (name : String) :
    d.attribute? x name = e.attributes.lookup name := by
  simp [Document.attribute?, attributes, element?_of_kind? hx]

-- An element that carries the directive.
theorem carrier (hx : d.hasAttribute x D.marker = true) :
    ∃ e value, d.kind? x = some (.element e) ∧ e.attributes.lookup D.marker = some value := by
  obtain ⟨value, hv⟩ := Option.isSome_iff_exists.mp hx
  obtain ⟨e, he⟩ := isElement_iff.mp (isElement_of_attribute? hv)
  exact ⟨e, value, he, (attribute?_eq he _).symm.trans hv⟩

theorem key?_eq (hx : d.kind? x = some (.element e))
    (hv : e.attributes.lookup D.marker = some value) (ht : Text.trim value ≠ "") :
    D.key? d x = some (Text.trim value) := by
  simp [Directive.key?, attribute?_eq hx, hv, Option.filter, ht]

theorem templateParams_eq (hx : d.kind? x = some (.element e)) :
    d.templateParams x = paramsOf e.attributes := by
  simp [Document.templateParams, paramsOf, dataset, attributes, element?_of_kind? hx]

variable (h : Sown c name d)

include h

private theorem textContent_eq (hx : d.kind? x = some (.element e))
    (ht : texting e.attributes ≠ []) : d.textContent x = d.ownText x :=
  h.wellFormed.textContent_of_texts (isContainer_of_isElement (isElement_iff.mpr ⟨e, hx⟩))
    (h.worded x e hx ht)

private theorem titleText_eq : d.titleText = name := by
  have hcon : d.isContainer Document.title = true :=
    isContainer_iff.mpr ⟨_, h.title, rfl⟩
  exact (h.wellFormed.textContent_of_texts hcon h.named.holdsText).trans h.named.ownText

-- What a directive with a value of its own finds in its target.
theorem current?_eq (hx : d.kind? x = some (.element e))
    (hv : e.attributes.lookup D.marker = some value) :
    current? d x D.target = shown? e.attributes (d.ownText x) D.target := by
  rcases ht : D.target with _ | name
  · have hmem : D ∈ texting e.attributes := mem_texting_iff.mpr ⟨ht, by simp [hv]⟩
    simp [current?, shown?, h.textContent_eq hx (List.ne_nil_of_mem hmem)]
  · exact attribute?_eq hx name

theorem agrees (hx : d.kind? x = some (.element e))
    (hv : e.attributes.lookup D.marker = some value) :
    Agrees c e.attributes (d.ownText x) D value := (h.seeded x e hx).agrees D value hv

theorem holds_message (hD : D ∈ [Directive.text, .title, .ariaLabel, .placeholder])
    (hx : d.kind? x = some (.element e)) (hv : e.attributes.lookup D.marker = some value)
    {label : String} (ht : Text.trim value ≠ "")
    (hs : shown? e.attributes (d.ownText x) D.target = some label)
    (hc : c.Says (Text.trim value) label) : Holds c .en d D x := by
  intro v hres
  rw [resolve_of_message hD, key?_eq hx hv ht, Option.map_some] at hres
  have hlabel := lookupMessage_of_ne (hc.everywhere .en) (current? d x D.target)
  rw [hlabel, hc.english] at hres
  rw [Held, h.current?_eq hx hv, hs, Option.getD_some]
  exact Option.some.inj hres

-- English is shown already, so English has nothing to write.
theorem holds (hx : d.hasAttribute x D.marker = true) : Holds c .en d D x := by
  obtain ⟨e, value, he, hv⟩ := carrier hx
  have hagrees := h.agrees he hv
  have hcurrent := h.current?_eq he hv
  cases D with
  | languageIndicator =>
      intro v hres
      obtain rfl : Locale.en.indicator = v := Option.some.inj hres
      rw [Held, hcurrent]
      exact hagrees
  | template =>
      intro v hres
      obtain ⟨ht, hr⟩ := hagrees
      have hkey := key?_eq he hv ht
      simp only [resolve, hkey, Option.map_some, templateParams_eq he, hr.english] at hres
      rw [Held, hcurrent]
      exact Option.some.inj (Option.filter_eq_some_iff.mp hres).1
  | text =>
      obtain ⟨ht, label, hs, hc⟩ := hagrees
      exact h.holds_message (by simp) he hv ht hs hc
  | title =>
      obtain ⟨ht, label, hs, hc⟩ := hagrees
      exact h.holds_message (by simp) he hv ht hs hc
  | ariaLabel =>
      obtain ⟨ht, label, hs, hc⟩ := hagrees
      exact h.holds_message (by simp) he hv ht hs hc
  | placeholder =>
      obtain ⟨ht, label, hs, hc⟩ := hagrees
      exact h.holds_message (by simp) he hv ht hs hc

private theorem conflictFree (r : NodeId) : ConflictFree d r where
  single x _ D E hD hE hDx hEx := by
    obtain ⟨e, value, he, hv⟩ := carrier hDx
    obtain ⟨e', value', he', hv'⟩ := carrier hEx
    obtain rfl : e = e' := by simpa [he] using he'
    exact (h.seeded x e he).eq (mem_texting_iff.mpr ⟨hD, by simp [hv]⟩)
      (mem_texting_iff.mpr ⟨hE, by simp [hv']⟩)
  childless x _ D hD hDx y hy := by
    obtain ⟨e, value, he, hv⟩ := carrier hDx
    have hmem : D ∈ texting e.attributes := mem_texting_iff.mpr ⟨hD, by simp [hv]⟩
    have htext := h.worded x e he (List.ne_nil_of_mem hmem) y hy
    obtain ⟨data, hk⟩ := isText_iff.mp htext
    simp [isElement, hk, NodeKind.isElement]
  title _ := by
    refine ⟨fun D _ => ?_, fun y hy => ?_⟩
    · simp [hasAttribute, attribute?_eq h.title]
    · obtain ⟨data, hk⟩ := isText_iff.mp (h.named.holdsText y hy)
      simp [isElement, hk, NodeKind.isElement]

private theorem even (hc : c.Says titleKey name) (r : NodeId) : Even c d r where
  message D hD x hx key hk := by
    obtain ⟨e, value, he, hv⟩ := carrier (mem_collect_iff.mp hx).2.2
    have hagrees := h.agrees he hv
    refine .inl ?_
    simp only [List.mem_cons, List.not_mem_nil, or_false] at hD
    obtain ⟨ht, label, -, hs⟩ : Text.trim value ≠ "" ∧ ∃ label,
        shown? e.attributes (d.ownText x) D.target = some label ∧
          c.Says (Text.trim value) label := by
      rcases hD with rfl | rfl | rfl | rfl <;> exact hagrees
    obtain rfl : Text.trim value = key :=
      Option.some.inj ((key?_eq he hv ht).symm.trans hk)
    exact hs.everywhere
  template x hx key hk := by
    obtain ⟨e, value, he, hv⟩ := carrier (mem_collect_iff.mp hx).2.2
    obtain ⟨ht, hr⟩ := h.agrees he hv
    obtain rfl : Text.trim value = key :=
      Option.some.inj ((key?_eq he hv ht).symm.trans hk)
    rw [templateParams_eq he]
    exact .inl hr.everywhere
  name _ := .inl hc.everywhere

theorem skipped (hc : c.Says titleKey name) (r : NodeId) : Skipped (pass c .en r) d := by
  rw [pass_eq]
  refine skipped_bind (skipped_each fun D _ => ?_) ?_
  · exact (skipped_applyDirective_iff h.wellFormed).mpr fun x hx =>
      h.holds (mem_collect_iff.mp hx).2.2
  · have hname : c.lookupMessage .en titleKey (some d.titleText) = d.titleText := by
      rw [lookupMessage_of_ne (hc.everywhere .en), hc.english, h.titleText_eq]
    split
    · simp [Skipped, retitle, hname, Edit.pure]
    · rfl

-- Whatever locales come in between, English brings the page back.
theorem restored (hc : c.Says titleKey name) (r : NodeId) (ls : List Locale) :
    ((ls ++ [Locale.en]).foldl (fun d l => (pass c l r d).document) d).outerHtml Document.root =
      d.outerHtml Document.root := by
  have hfree := h.conflictFree r
  have hroot : d.isContainer Document.root = true :=
    isContainer_iff.mpr ⟨_, h.wellFormed.root_kind, rfl⟩
  have hall := redrawn_foldl h.wellFormed hfree (h.even hc r) ls .en
  have hone := redrawn_pass h.wellFormed hfree c .en
  rw [h.skipped hc r] at hone
  exact hall.outerHtml_eq hone h.wellFormed hroot

end Sown
end PageLocalizer.Translation
