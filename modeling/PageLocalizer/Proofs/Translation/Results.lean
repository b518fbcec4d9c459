import PageLocalizer.Proofs.Catalog.Lookup
import PageLocalizer.Proofs.Translation.Switching

-- What each target shows after a pass: what its directive asks for, or else what it showed before.
namespace PageLocalizer.Translation

open Document Catalog

variable {c : Catalog} {l : Locale} {d d' : Document} {D : Directive} {x root : NodeId}
  {name R : String}

-- What a directive of an element asks for. A blank key asks for nothing, and neither does one
-- without an entry.
inductive Asks (c : Catalog) (l : Locale) (d : Document) (x : NodeId) :
    Directive → String → Prop where
  | message {D : Directive} {key R : String} :
      D ∈ [Directive.text, .title, .ariaLabel, .placeholder] → D.key? d x = some key →
      Finds (c.message? · key) l R → Asks c l d x D R
  | template {key R : String} : Directive.template.key? d x = some key →
      Finds (c.template? · key (d.templateParams x)) l R → R ≠ "" → Asks c l d x .template R
  | languageIndicator : Asks c l d x .languageIndicator l.indicator

-- The target has the value, and an attribute that was absent is not added with an empty one.
def Shows (d d' : Document) (x : NodeId) (R : String) : Target → Prop
  | .textContent => d'.textContent x = R
  | .attribute name =>
    d'.attribute? x name = if R = "" ∧ d.attribute? x name = none then none else some R

section Resolve

private theorem resolve_of_asks (h : Asks c l d x D R) : resolve c l d D x = some R := by
  cases h with
  | message hD hkey hfinds =>
      rw [resolve_of_message hD, hkey, Option.map_some, lookupMessage_of_finds hfinds]
  | template hkey hfinds hR =>
      simp [resolve, hkey, lookupTemplate, orDefault_eq_some_iff.mpr hfinds, Option.filter, hR]
  | languageIndicator => rfl

private theorem resolve_template_of_not_asks (h : ∀ R, ¬Asks c l d x .template R) :
    resolve c l d .template x = none := by
  cases hkey : Directive.template.key? d x with
  | none => simp [resolve, hkey]
  | some key =>
      have hempty : c.lookupTemplate l key (d.templateParams x) = "" := by
        by_contra hne
        obtain ⟨text, htext⟩ :
            ∃ text, orDefault l (c.template? · key (d.templateParams x)) = some text := by
          cases hfound : orDefault l (c.template? · key (d.templateParams x)) with
          | none => simp [lookupTemplate, hfound] at hne
          | some text => exact ⟨text, rfl⟩
        rw [lookupTemplate, htext, Option.getD_some] at hne
        exact h text (.template hkey (orDefault_eq_some_iff.mp htext) hne)
      simp [resolve, hkey, hempty, Option.filter]

-- A message without an entry comes to what is there.
private theorem resolve_of_not_asks (h : ∀ R, ¬Asks c l d x D R) :
    resolve c l d D x = none ∨ resolve c l d D x = some ((current? d x D.target).getD "") := by
  have hmessage : D ∈ [Directive.text, .title, .ariaLabel, .placeholder] →
      resolve c l d D x = none ∨
        resolve c l d D x = some ((current? d x D.target).getD "") := by
    intro hD
    rw [resolve_of_message hD]
    cases hkey : D.key? d x with
    | none => exact .inl rfl
    | some key =>
        right
        rw [Option.map_some, lookupMessage_of_not_finds fun R hR => h R (.message hD hkey hR)]
  cases D with
  | languageIndicator => exact absurd .languageIndicator (h l.indicator)
  | template => exact .inl (resolve_template_of_not_asks h)
  | _ => exact hmessage (by simp)

end Resolve

section Pass

variable (hw : d.WellFormed) (hc : ConflictFree d root)

include hw

private theorem mem_collect_of_marker (hx : x ∈ d.subtree root)
    (hm : d.hasAttribute x D.marker = true) : x ∈ D.collect d root := by
  refine mem_collect_iff.mpr ⟨?_, hx, hm⟩
  obtain ⟨value, hv⟩ := Option.isSome_iff_exists.mp hm
  have hel := isElement_of_attribute? hv
  rcases Relation.ReflTransGen.cases_tail ((mem_subtree_iff hw.forest).mp hx) with rfl | ⟨y, -, hy⟩
  · exact isContainer_of_isElement hel
  · exact hw.isContainer_of_mem_children (hw.forest.mem_of_parent hy)

include hc

-- The only directive for a text decides on the text.
theorem textContent_pass (c : Catalog) (l : Locale) (hx : x ∈ D.collect d root)
    (hD : D.target = .textContent) :
    (pass c l root d).document.textContent x = (resolve c l d D x).getD (d.textContent x) := by
  obtain ⟨-, hsub, hm⟩ := mem_collect_iff.mp hx
  have hcon := isContainer_of_isElement (isElement_of_mem_collect hx)
  have htext : d.HoldsText x := (holdsText_iff hw).mpr (hc.childless x hsub D hD hm)
  have htitle : ¬(x = title ∧ (root = Document.root ∨ root = Document.body)) := by
    rintro ⟨rfl, hroot⟩
    simp [(hc.title hroot).1 D hD] at hm
  have hfind :
      (bound d root Directive.all x).find? (fun E => E.target = .textContent) = some D := by
    have hsome : ((bound d root Directive.all x).find? fun E => E.target = .textContent).isSome :=
      List.find?_isSome.mpr ⟨D, mem_bound hx, by simpa using hD⟩
    obtain ⟨E, hE⟩ := Option.isSome_iff_exists.mp hsome
    have hET : E.target = .textContent := by simpa using List.find?_some hE
    have hcol := of_decide_eq_true (List.mem_filter.mp (List.mem_of_find?_eq_some hE)).2
    rw [hE, hc.single x hsub E D hET hD (mem_collect_iff.mp hcol).2.2 hm]
  have ht := ((redrawn_pass hw hc c l).text hw hcon htext).2
  rw [wording, if_neg htitle, word?, hfind] at ht
  simpa using ht

theorem attribute?_pass (c : Catalog) (l : Locale) (hx : x ∈ D.collect d root)
    (hD : D.target = .attribute name) :
    (pass c l root d).document.attribute? x name =
      ((stroke? c l d x D).map Prod.snd).or (d.attribute? x name) := by
  have hnd : (bound d root Directive.all x).Nodup := List.Nodup.filter _ (by decide)
  rw [attribute?, (redrawn_pass hw hc c l).attributes (isElement_of_mem_collect hx)]
  exact lookup_style_of_mem hnd (mem_bound hx) hD

private theorem shows_pass (hx : x ∈ D.collect d root) (h : Asks c l d x D R) :
    Shows d (pass c l root d).document x R D.target := by
  have hres := resolve_of_asks h
  rcases hD : D.target with _ | name
  · rw [Shows, textContent_pass hw hc c l hx hD, hres, Option.getD_some]
  · rw [Shows, attribute?_pass hw hc c l hx hD, stroke?, hD, hres]
    dsimp only
    split
    · next hempty => exact hempty.2
    · rfl

private theorem current?_pass (hx : x ∈ D.collect d root) (h : ∀ R, ¬Asks c l d x D R) :
    current? (pass c l root d).document x D.target = current? d x D.target := by
  have hres := resolve_of_not_asks h
  rcases hD : D.target with _ | name
  · rw [hD] at hres
    refine congrArg some ?_
    rw [textContent_pass hw hc c l hx hD]
    rcases hres with hres | hres <;> simp [hres, current?]
  · rw [hD] at hres
    refine (attribute?_pass hw hc c l hx hD).trans ?_
    rcases hres with hres | hres
    · simp [stroke?, hD, hres, current?]
    · cases hheld : d.attribute? x name <;> simp [stroke?, hD, hres, current?, hheld]

theorem titleText_pass (c : Catalog) (l : Locale)
    (hroot : root = Document.root ∨ root = Document.body) :
    (pass c l root d).document.titleText = c.lookupMessage l titleKey (some d.titleText) := by
  have hcon : d.isContainer title = true := isContainer_of_isElement (hw.element title (by simp))
  have htext : d.HoldsText title := (holdsText_iff hw).mpr (hc.title hroot).2
  have ht := ((redrawn_pass hw hc c l).text hw hcon htext).2
  rwa [wording, if_pos ⟨rfl, hroot⟩] at ht

end Pass

-- After a pass over a part of the page in which no text is asked for twice, every target below the
-- root shows what its directive asks for, and one whose directive asks for nothing shows what it
-- showed before. Where the pass names the page, the same holds for the title.
theorem pass_delivers {h : Chronicle} (hr : Chronicle.Recorded h) {root : NodeId}
    (hc : ConflictFree h.document root) (c : Catalog) (l : Locale) :
    let d := h.document
    let d' := (pass c l root d).document
    (∀ x ∈ d.subtree root, ∀ D : Directive, d.hasAttribute x D.marker = true →
      x ∈ d'.subtree root ∧ (∀ R, Asks c l d x D R → Shows d d' x R D.target) ∧
      ((∀ R, ¬Asks c l d x D R) → current? d' x D.target = current? d x D.target)) ∧
    (root = Document.root ∨ root = Document.body →
      (∀ R, Finds (c.message? · titleKey) l R → d'.titleText = R) ∧
      ((∀ R, ¬Finds (c.message? · titleKey) l R) → d'.titleText = d.titleText)) := by
  intro d d'
  have hw : d.WellFormed := (Chronicle.sound_of_recorded hr).wellFormed
  refine ⟨fun x hx D hm => ?_, fun hroot => ⟨fun R hR => ?_, fun hnone => ?_⟩⟩
  · have hcol := mem_collect_of_marker hw hx hm
    have hcon := isContainer_of_isElement (isElement_of_mem_collect hcol)
    exact ⟨((redrawn_pass hw hc c l).mem_subtree hw hcon).mpr hx,
      fun R hR => shows_pass hw hc hcol hR, fun hnone => current?_pass hw hc hcol hnone⟩
  · exact (titleText_pass hw hc c l hroot).trans (lookupMessage_of_finds hR _)
  · exact (titleText_pass hw hc c l hroot).trans (lookupMessage_of_not_finds hnone _)

-- A page in Chinese whose paragraph asks for the same message twice.
theorem pass_delivers_greeting : Chronicle.Recorded greeting ∧
    ConflictFree greeting.document Document.root ∧
    let d := greeting.document
    let d' := (pass greetings .zh Document.root d).document
    (∀ x ∈ d.subtree Document.root, ∀ D : Directive, d.hasAttribute x D.marker = true →
      x ∈ d'.subtree Document.root ∧
      (∀ R, Asks greetings .zh d x D R → Shows d d' x R D.target) ∧
      ((∀ R, ¬Asks greetings .zh d x D R) → current? d' x D.target = current? d x D.target)) ∧
    (Document.root = Document.root ∨ Document.root = Document.body →
      (∀ R, Finds (greetings.message? · titleKey) .zh R → d'.titleText = R) ∧
      ((∀ R, ¬Finds (greetings.message? · titleKey) .zh R) → d'.titleText = d.titleText)) :=
  ⟨recorded_greeting, conflictFree_greeting,
    pass_delivers recorded_greeting conflictFree_greeting greetings .zh⟩

end PageLocalizer.Translation
