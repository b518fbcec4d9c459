import Mathlib.Data.Fintype.Basic
import PageLocalizer.Proofs.Document.Entries
import PageLocalizer.Proofs.Document.Redrawing
import PageLocalizer.Proofs.Translation.Repetition

-- What a pass makes of a page in which no text is written twice: attributes and texts after the
-- pass, told by the page before it.
namespace PageLocalizer.Translation

open Document Edit

-- Below `root`, an element that gets a text gets it from one directive, and holds no elements that
-- would go with its old text. The same holds for the title where the pass names the page.
structure ConflictFree (d : Document) (root : NodeId) : Prop where
  single : ∀ x ∈ d.subtree root, ∀ D E : Directive, D.target = .textContent →
    E.target = .textContent → d.hasAttribute x D.marker = true →
    d.hasAttribute x E.marker = true → D = E
  childless : ∀ x ∈ d.subtree root, ∀ D : Directive, D.target = .textContent →
    d.hasAttribute x D.marker = true → ∀ y ∈ d.children x, d.isElement y = false
  title : root = Document.root ∨ root = Document.body →
    (∀ D : Directive, D.target = .textContent → d.hasAttribute Document.title D.marker = false) ∧
      ∀ y ∈ d.children Document.title, d.isElement y = false

instance : Fintype Directive where
  elems := Directive.all.toFinset
  complete D := by cases D <;> decide

instance (d : Document) (root : NodeId) : Decidable (ConflictFree d root) :=
  decidable_of_iff
    ((∀ x ∈ d.subtree root, ∀ D E : Directive, D.target = .textContent →
      E.target = .textContent → d.hasAttribute x D.marker = true →
      d.hasAttribute x E.marker = true → D = E) ∧
    (∀ x ∈ d.subtree root, ∀ D : Directive, D.target = .textContent →
      d.hasAttribute x D.marker = true → ∀ y ∈ d.children x, d.isElement y = false) ∧
    (root = Document.root ∨ root = Document.body →
      (∀ D : Directive, D.target = .textContent →
        d.hasAttribute Document.title D.marker = false) ∧
      ∀ y ∈ d.children Document.title, d.isElement y = false))
    ⟨fun h => ⟨h.1, h.2.1, h.2.2⟩, fun h => ⟨h.single, h.childless, h.title⟩⟩

variable {c : Catalog} {l k : Locale} {d d' : Document} {D E : Directive} {e x root : NodeId}
  {name v : String} {ds : List Directive}

theorem mem_collect_iff : x ∈ D.collect d root ↔
    d.isContainer root = true ∧ x ∈ d.subtree root ∧ d.hasAttribute x D.marker = true := by
  unfold Directive.collect
  split
  · rename_i h
    simp [h]
  · rename_i h
    simp [h]

section Strokes

-- The entry that a directive sets in the attributes of an element. An attribute that is absent is
-- not added with an empty value.
def stroke? (c : Catalog) (l : Locale) (d : Document) (x : NodeId) (D : Directive) :
    Option (String × String) :=
  match D.target, resolve c l d D x with
  | .attribute name, some v =>
    if v = "" ∧ d.attribute? x name = none then none else some (name, v)
  | _, _ => none

def strokes (c : Catalog) (l : Locale) (d : Document) (ds : List Directive) (x : NodeId) :
    List (String × String) := ds.filterMap (stroke? c l d x)

-- The attributes of an element after the directives `ds`.
def style (c : Catalog) (l : Locale) (d : Document) (ds : List Directive) (x : NodeId) :
    List (String × String) := redraw (d.attributes x) (strokes c l d ds x)

-- The text that an element is given by the directives `ds`, if there is one for texts among them.
def word? (c : Catalog) (l : Locale) (d : Document) (ds : List Directive) (x : NodeId) :
    Option String :=
  (ds.find? fun D => D.target = .textContent).map fun D =>
    (resolve c l d D x).getD (d.textContent x)

theorem target_of_stroke? {s : String × String} (h : stroke? c l d x D = some s) :
    D.target = .attribute s.1 := by
  unfold stroke? at h
  split at h
  · rename_i hD _
    split at h
    · simp at h
    · rw [hD, ← Option.some.inj h]
  · simp at h

theorem stroke?_of_text (hD : D.target = .textContent) : stroke? c l d x D = none := by
  simp [stroke?, hD]

theorem mem_strokes_names {n : String} (h : n ∈ (strokes c l d ds x).map Prod.fst) :
    ∃ D ∈ ds, D.target = .attribute n := by
  obtain ⟨s, hs, rfl⟩ := List.mem_map.mp h
  obtain ⟨D, hD, hstroke⟩ := List.mem_filterMap.mp hs
  exact ⟨D, hD, target_of_stroke? hstroke⟩

theorem strokes_nodup (hnd : ds.Nodup) : ((strokes c l d ds x).map Prod.fst).Nodup := by
  unfold strokes List.Nodup
  rw [List.pairwise_map]
  refine List.Pairwise.filterMap _ (fun D E hne s hs t ht hst => hne ?_) hnd
  exact target_attribute_inj (target_of_stroke? hs) (hst ▸ target_of_stroke? ht)

private theorem suffix?_of_mem_strokes {n : String} (h : n ∈ (strokes c l d ds x).map Prod.fst) :
    Dataset.suffix? n = none := by
  obtain ⟨D, -, hD⟩ := mem_strokes_names h
  cases D <;> simp only [Directive.target, reduceCtorEq, Target.attribute.injEq] at hD <;>
    subst hD <;> decide

private theorem lookup_style {n : String} (h : ∀ D ∈ ds, D.target ≠ .attribute n) :
    (style c l d ds x).lookup n = d.attribute? x n := by
  refine lookup_redraw_of_not_mem fun hn => ?_
  obtain ⟨D, hD, ht⟩ := mem_strokes_names hn
  exact h D hD ht

theorem style_append (D : Directive) :
    style c l d (ds ++ [D]) x =
      redraw (style c l d ds x) (stroke? c l d x D).toList := by
  unfold style strokes
  rw [List.filterMap_append, redraw_append]
  cases h : stroke? c l d x D <;> simp [h]

theorem word?_append_of_attribute (hD : D.target = .attribute name) :
    word? c l d (ds ++ [D]) x = word? c l d ds x := by
  simp [word?, List.find?_append, hD]

private theorem find?_of_none (hds : ∀ E ∈ ds, E.target ≠ .textContent) :
    ds.find? (fun E => E.target = .textContent) = none := by
  rw [List.find?_eq_none]
  simpa using hds

theorem word?_append_of_text (hD : D.target = .textContent)
    (hds : ∀ E ∈ ds, E.target ≠ .textContent) :
    word? c l d (ds ++ [D]) x = some ((resolve c l d D x).getD (d.textContent x)) := by
  simp [word?, List.find?_append, find?_of_none hds, hD]

theorem word?_of_none (hds : ∀ E ∈ ds, E.target ≠ .textContent) : word? c l d ds x = none := by
  simp [word?, find?_of_none hds]

end Strokes

section Styled

variable {applied : NodeId → List Directive} {words : NodeId → Option String}
  (h : Redrawn d (fun x => style c l d (applied x) x) words d')

include h

theorem attribute?_of_style (hel : d.isElement e = true) {n : String}
    (hn : ∀ E ∈ applied e, E.target ≠ .attribute n) :
    d'.attribute? e n = d.attribute? e n := by
  calc d'.attribute? e n
    _ = (d'.attributes e).lookup n := rfl
    _ = (style c l d (applied e) e).lookup n := by rw [h.attributes hel]
    _ = d.attribute? e n := lookup_style hn

theorem marker_of_style (hel : d.isElement e = true) (D : Directive) :
    d'.attribute? e D.marker = d.attribute? e D.marker :=
  attribute?_of_style h hel fun _ _ hE => marker_ne D hE rfl

theorem templateParams_of_style (hel : d.isElement e = true) :
    d'.templateParams e = d.templateParams e := by
  have hdata : d'.dataset e = d.dataset e := by
    rw [dataset, h.attributes hel]
    exact ofAttributes_redraw fun n hn => suffix?_of_mem_strokes hn
  simp [Document.templateParams, hdata]

-- The elements that carry a directive stay the same.
theorem mem_collect_of_style (hw : d.WellFormed) :
    x ∈ D.collect d' root ↔ x ∈ D.collect d root := by
  have hsame : d.isElement x = true → (x ∈ D.collect d' root ↔ x ∈ D.collect d root) := by
    intro hel
    have hsub := h.mem_subtree hw (a := root) (isContainer_of_isElement hel)
    have hmarker : d'.hasAttribute x D.marker = d.hasAttribute x D.marker :=
      congrArg Option.isSome (marker_of_style h hel D)
    calc x ∈ D.collect d' root
      _ ↔ d'.isContainer root = true ∧ x ∈ d'.subtree root ∧
            d'.hasAttribute x D.marker = true := mem_collect_iff
      _ ↔ d.isContainer root = true ∧ x ∈ d.subtree root ∧
            d.hasAttribute x D.marker = true := by rw [h.isContainer root, hsub, hmarker]
      _ ↔ x ∈ D.collect d root := mem_collect_iff.symm
  constructor
  · intro hx
    exact (hsame ((h.isElement hw x).symm.trans (isElement_of_mem_collect hx))).mp hx
  · intro hx
    exact (hsame (isElement_of_mem_collect hx)).mpr hx

end Styled

-- The page in the middle of a pass. `applied` tells which directives have been applied to a node.
def Drawn (c : Catalog) (l : Locale) (d : Document) (applied : NodeId → List Directive)
    (d' : Document) : Prop :=
  Redrawn d (fun x => style c l d (applied x) x) (fun x => word? c l d (applied x) x) d'

-- A directive comes to an element for the first time, and no other one has given it a text.
structure Due (d : Document) (applied : List Directive) (D : Directive) (e : NodeId) : Prop where
  isElement : d.isElement e = true
  fresh : D ∉ applied
  text : D.target = .textContent →
    d.HoldsText e ∧ ∀ E ∈ applied, E.target ≠ .textContent

namespace Drawn

variable {applied : NodeId → List Directive}

theorem held (h : Drawn c l d applied d') (hdue : Due d (applied e) D e)
    (hD : D.target = .attribute name) : d'.attribute? e name = d.attribute? e name := by
  refine attribute?_of_style h hdue.isElement fun E hE hname => hdue.fresh ?_
  exact target_attribute_inj hD hname ▸ hE

theorem textContent (h : Drawn c l d applied d') (hw : d.WellFormed)
    (hdue : Due d (applied e) D e) (hD : D.target = .textContent) :
    d'.textContent e = d.textContent e := by
  obtain ⟨htext, hfirst⟩ := hdue.text hD
  have ht := (Redrawn.text h hw (isContainer_of_isElement hdue.isElement) htext).2
  rwa [word?_of_none hfirst, Option.getD_none] at ht

-- A directive that is due comes to the same as before the pass.
theorem resolve_eq (h : Drawn c l d applied d') (hw : d.WellFormed)
    (hdue : Due d (applied e) D e) : resolve c l d' D e = resolve c l d D e := by
  have hel := hdue.isElement
  have hkey : D.key? d' e = D.key? d e := key?_congr (marker_of_style h hel D)
  have hcur : current? d' e D.target = current? d e D.target := by
    rcases hD : D.target with _ | name
    · exact congrArg some (h.textContent hw hdue hD)
    · exact h.held hdue hD
  cases D <;> simp only [resolve, hkey, hcur, templateParams_of_style h hel]

-- A directive for an attribute changes no texts, and no attributes but those of its element.
theorem of_attribute {attributes : List (String × String)} (hD : D.target = .attribute name)
    (h : Redrawn d (Function.update (fun x => style c l d (applied x) x) e attributes)
      (fun x => word? c l d (applied x) x) d')
    (he : redraw (style c l d (applied e) e) (stroke? c l d e D).toList = attributes) :
    Drawn c l d (Function.update applied e (applied e ++ [D])) d' := by
  refine Redrawn.congr h (fun x _ => ?_) fun x _ => ?_
  · by_cases hx : x = e
    · subst hx
      rw [Function.update_self, Function.update_self, style_append, he]
    · rw [Function.update_of_ne hx, Function.update_of_ne hx]
  · by_cases hx : x = e
    · subst hx
      rw [Function.update_self, word?_append_of_attribute hD]
    · rw [Function.update_of_ne hx]

theorem applyTo_of_attribute (h : Drawn c l d applied d') (hw : d.WellFormed)
    (hdue : Due d (applied e) D e) (hD : D.target = .attribute name) :
    Drawn c l d (Function.update applied e (applied e ++ [D]))
      (Translation.applyTo c l D e d').document := by
  have hel := hdue.isElement
  have hres := h.resolve_eq hw hdue
  have hheld := h.held hdue hD
  have hskip : redraw (style c l d (applied e) e) (stroke? c l d e D).toList =
      style c l d (applied e) e →
      Drawn c l d (Function.update applied e (applied e ++ [D])) d' :=
    of_attribute hD (by rwa [Function.update_eq_self])
  have hset : ∀ u, stroke? c l d e D = some (name, u) →
      Drawn c l d (Function.update applied e (applied e ++ [D]))
        (Document.setAttribute e name u d').document := fun u hu =>
    of_attribute hD (Redrawn.setAttribute h hel name u) (by rw [hu]; rfl)
  cases hv : resolve c l d D e with
  | none =>
      have hdoc : Translation.applyTo c l D e d' = Edit.pure () d' := by
        simp [Translation.applyTo, hres, hv]
      rw [hdoc]
      exact hskip (by simp [stroke?, hD, hv])
  | some u =>
      have hdoc : Translation.applyTo c l D e d' = write e (.attribute name) u d' := by
        simp [Translation.applyTo, hres, hv, hD]
      rw [hdoc]
      unfold write
      dsimp only
      rw [hheld]
      cases ha : d.attribute? e name with
      | none =>
          by_cases hu : u = ""
          · simp only [hu, if_true]
            exact hskip (by simp [stroke?, hD, hv, hu, ha])
          · simp only [hu, if_false]
            exact hset u (by simp [stroke?, hD, hv, hu])
      | some held =>
          have hstroke : stroke? c l d e D = some (name, u) := by simp [stroke?, hD, hv, ha]
          by_cases hu : held = u
          · have hlookup : (style c l d (applied e) e).lookup name = some u := by
              have hstyle := congrArg (List.lookup name) (Redrawn.attributes h hel)
              calc (style c l d (applied e) e).lookup name
                _ = d'.attribute? e name := hstyle.symm
                _ = d.attribute? e name := hheld
                _ = some held := ha
                _ = some u := congrArg some hu
            simp only [hu, if_true]
            refine hskip ?_
            rw [hstroke]
            simp [setEntry_self hlookup]
          · simp only [hu, if_false]
            exact hset u hstroke

theorem applyTo_of_text (h : Drawn c l d applied d') (hw : d.WellFormed)
    (hdue : Due d (applied e) D e) (hD : D.target = .textContent) :
    Drawn c l d (Function.update applied e (applied e ++ [D]))
      (Translation.applyTo c l D e d').document := by
  have hcon := isContainer_of_isElement hdue.isElement
  have hres := h.resolve_eq hw hdue
  obtain ⟨htext, hfirst⟩ := hdue.text hD
  have hstyle : ∀ x, style c l d (Function.update applied e (applied e ++ [D]) x) x =
      style c l d (applied x) x := by
    intro x
    by_cases hx : x = e
    · subst hx
      rw [Function.update_self, style_append, stroke?_of_text hD]
      rfl
    · rw [Function.update_of_ne hx]
  have hword : ∀ x, word? c l d (Function.update applied e (applied e ++ [D]) x) x =
      Function.update (fun x => word? c l d (applied x) x) e
        (some ((resolve c l d D e).getD (d.textContent e))) x := by
    intro x
    by_cases hx : x = e
    · subst hx
      simp [word?_append_of_text hD hfirst]
    · simp [hx]
  have hsame := Redrawn.setSame h hw hcon htext
  cases hv : resolve c l d D e with
  | none =>
      have hdoc : Translation.applyTo c l D e d' = Edit.pure () d' := by
        simp [Translation.applyTo, hres, hv]
      rw [hdoc]
      refine Redrawn.congr hsame (fun x _ => hstyle x) fun x _ => ?_
      rw [hword x, hv, Option.getD_none, h.textContent hw hdue hD]
  | some u =>
      have hdoc : Translation.applyTo c l D e d' = write e .textContent u d' := by
        simp [Translation.applyTo, hres, hv, hD]
      rw [hdoc]
      unfold write
      dsimp only
      by_cases hu : d'.textContent e = u
      · simp only [hu, if_true]
        refine Redrawn.congr hsame (fun x _ => hstyle x) fun x _ => ?_
        rw [hword x, hv, Option.getD_some, hu]
      · simp only [hu, if_false]
        refine Redrawn.congr (Redrawn.setText h hw hcon htext u) (fun x _ => hstyle x)
          fun x _ => ?_
        rw [hword x, hv, Option.getD_some]

theorem applyTo (h : Drawn c l d applied d') (hw : d.WellFormed)
    (hdue : Due d (applied e) D e) :
    Drawn c l d (Function.update applied e (applied e ++ [D]))
      (Translation.applyTo c l D e d').document := by
  rcases hD : D.target with _ | name
  · exact h.applyTo_of_text hw hdue hD
  · exact h.applyTo_of_attribute hw hdue hD

theorem each (h : Drawn c l d applied d') (hw : d.WellFormed) {es : List NodeId} (hnd : es.Nodup)
    (hdue : ∀ e ∈ es, Due d (applied e) D e) :
    Drawn c l d (fun x => if x ∈ es then applied x ++ [D] else applied x)
      (Edit.each es (Translation.applyTo c l D) d').document := by
  induction es generalizing applied d' with
  | nil => simpa [Edit.each, Edit.pure] using h
  | cons e es ih =>
      obtain ⟨hnew, hnd⟩ := List.nodup_cons.mp hnd
      have hrest := ih (h.applyTo hw (hdue e List.mem_cons_self)) hnd fun x hx => by
        have hne : x ≠ e := fun he => hnew (he ▸ hx)
        rw [Function.update_of_ne hne]
        exact hdue x (List.mem_cons_of_mem e hx)
      rw [each_cons, bind_document (succeeds_applyTo c l D e)]
      convert hrest using 2 with x
      by_cases hx : x = e
      · subst hx
        simp [hnew]
      · simp [hx]

end Drawn

section Pass

-- The directives among `ds` that an element below `root` carries.
def bound (d : Document) (root : NodeId) (ds : List Directive) (x : NodeId) : List Directive :=
  ds.filter fun D => x ∈ D.collect d root

theorem mem_bound (hx : x ∈ D.collect d root) : D ∈ bound d root Directive.all x :=
  List.mem_filter.mpr ⟨mem_all D, decide_eq_true hx⟩

theorem holdsText_iff (hw : d.WellFormed) :
    d.HoldsText x ↔ ∀ y ∈ d.children x, d.isElement y = false := by
  constructor
  · intro h y hy
    cases hel : d.isElement y with
    | false => rfl
    | true =>
        have ht := h y hy
        simp [isText_of_isContainer (isContainer_of_isElement hel)] at ht
  · intro h y hy
    by_contra ht
    have hel := hw.isElement_of_child (hw.forest.parent_of_mem hy) (by simpa using ht)
    simp [h y hy] at hel

namespace ConflictFree

variable (hc : ConflictFree d root) (hw : d.WellFormed)

include hc hw

theorem due (he : e ∈ D.collect d root) (hD : D ∉ ds) : Due d (bound d root ds e) D e := by
  obtain ⟨-, hsub, hm⟩ := mem_collect_iff.mp he
  refine ⟨isElement_of_mem_collect he, fun h => hD (List.mem_filter.mp h).1, fun ht => ⟨?_, ?_⟩⟩
  · exact (holdsText_iff hw).mpr (hc.childless e hsub D ht hm)
  · intro E hE hET
    obtain ⟨hmem, hcol⟩ := List.mem_filter.mp hE
    have hEm := (mem_collect_iff.mp (of_decide_eq_true hcol)).2.2
    exact hD (hc.single e hsub D E ht hET hm hEm ▸ hmem)

-- Whatever a pass sets, the page has the same elements with the same markers.
theorem redrawn {applied : NodeId → List Directive} {words : NodeId → Option String}
    (h : Redrawn d (fun x => style c l d (applied x) x) words d') : ConflictFree d' root := by
  have hel : ∀ {x} {D : Directive}, d'.hasAttribute x D.marker = true →
      d.isElement x = true := fun hm => by
    obtain ⟨v, hv⟩ := Option.isSome_iff_exists.mp hm
    exact (h.isElement hw _).symm.trans (isElement_of_attribute? hv)
  have hmark : ∀ {x} {D : Directive}, d'.hasAttribute x D.marker = true →
      d.hasAttribute x D.marker = true := fun {x D} hm => by
    rw [hasAttribute, ← marker_of_style h (hel hm) D]
    exact hm
  have hsub : ∀ {x} {D : Directive}, d'.hasAttribute x D.marker = true →
      x ∈ d'.subtree root → x ∈ d.subtree root := fun hm hx =>
    (h.mem_subtree hw (isContainer_of_isElement (hel hm))).mp hx
  have hchildless : ∀ {x}, d.isElement x = true → (∀ y ∈ d.children x, d.isElement y = false) →
      ∀ y ∈ d'.children x, d'.isElement y = false := fun hx hy =>
    (holdsText_iff h.wellFormed).mp
      ((h.holdsText_iff hw (isContainer_of_isElement hx)).mpr ((holdsText_iff hw).mpr hy))
  refine ⟨fun x hx D E hD hE hm hm' => ?_, fun x hx D hD hm => ?_, fun hroot => ⟨?_, ?_⟩⟩
  · exact hc.single x (hsub hm hx) D E hD hE (hmark hm) (hmark hm')
  · exact hchildless (hel hm) (hc.childless x (hsub hm hx) D hD (hmark hm))
  · intro D hD
    cases hm : d'.hasAttribute Document.title D.marker with
    | false => rfl
    | true => exact absurd (hmark hm) (by simp [(hc.title hroot).1 D hD])
  · exact hchildless (hw.element _ (by simp)) (hc.title hroot).2

private theorem drawn_each (ds todo : List Directive) (hnd : (ds ++ todo).Nodup)
    (h : Drawn c l d (bound d root ds) d') :
    Drawn c l d (bound d root (ds ++ todo))
      (Edit.each todo (applyDirective c l root) d').document := by
  induction todo generalizing ds d' with
  | nil => simpa [Edit.each, Edit.pure] using h
  | cons D todo ih =>
      have hD : D ∉ ds := fun hm => (List.nodup_append.mp hnd).2.2 D hm D List.mem_cons_self rfl
      have hcollect : (D.collect d' root).Nodup := by
        unfold Directive.collect
        split
        · exact (subtree_nodup (Redrawn.wellFormed h).forest root).filter _
        · exact List.nodup_nil
      have hstep : Drawn c l d _ (applyDirective c l root D d').document :=
        h.each hw hcollect fun e he => hc.due hw ((mem_collect_of_style h hw).mp he) hD
      rw [each_cons, bind_document (succeeds_applyDirective c l root D), List.append_cons]
      refine ih (ds ++ [D]) (by simpa using hnd) ?_
      convert hstep using 2 with x
      by_cases hx : x ∈ D.collect d root
      · simp [bound, mem_collect_of_style h hw, hx]
      · simp [bound, mem_collect_of_style h hw, hx]

end ConflictFree

-- The attributes and the texts of elements after a pass. The name of the page is a text too.
def styling (c : Catalog) (l : Locale) (root : NodeId) (d : Document) (x : NodeId) :
    List (String × String) := style c l d (bound d root Directive.all x) x

def wording (c : Catalog) (l : Locale) (root : NodeId) (d : Document) (x : NodeId) :
    Option String :=
  if x = title ∧ (root = Document.root ∨ root = Document.body) then
    some (c.lookupMessage l titleKey (some d.titleText))
  else word? c l d (bound d root Directive.all x) x

theorem ConflictFree.untitled (hc : ConflictFree d root)
    (hroot : root = Document.root ∨ root = Document.body) :
    ∀ E ∈ bound d root ds Document.title, E.target ≠ .textContent := by
  intro E hE ht
  have hm := (mem_collect_iff.mp (of_decide_eq_true (List.mem_filter.mp hE).2)).2.2
  simp [(hc.title hroot).1 E ht] at hm

-- A pass does all it does at once.
theorem redrawn_pass (hw : d.WellFormed) (hc : ConflictFree d root) (c : Catalog) (l : Locale) :
    Redrawn d (styling c l root d) (wording c l root d) (pass c l root d).document := by
  have hstart : Drawn c l d (bound d root []) d := by
    refine (Redrawn.refl hw).congr (fun x _ => ?_) fun x _ => ?_
    · simp [style, strokes, bound]
    · simp [word?, bound]
  have hdrawn := hc.drawn_each hw [] Directive.all (by decide) hstart
  rw [List.nil_append] at hdrawn
  rw [pass_eq, bind_document (succeeds_each (succeeds_applyDirective c l root) _)]
  by_cases hroot : root = Document.root ∨ root = Document.body
  · rw [if_pos hroot]
    have hcon : d.isContainer title = true :=
      isContainer_of_isElement (hw.element title (by simp))
    have htext : d.HoldsText title := (holdsText_iff hw).mpr (hc.title hroot).2
    have hname : (Edit.each Directive.all (applyDirective c l root) d).document.titleText =
        d.titleText := by
      have ht := (Redrawn.text hdrawn hw hcon htext).2
      rwa [word?_of_none (hc.untitled hroot), Option.getD_none] at ht
    have hword : ∀ v, v = c.lookupMessage l titleKey (some d.titleText) →
        ∀ x, wording c l root d x = Function.update
          (fun x => word? c l d (bound d root Directive.all x) x) title (some v) x := by
      rintro v rfl x
      by_cases hx : x = title <;> simp [wording, hx, hroot]
    unfold retitle
    dsimp only
    rw [hname]
    split
    · rename_i hsame
      refine Redrawn.congr (Redrawn.setSame hdrawn hw hcon htext) (fun _ _ => rfl) fun x _ => ?_
      exact hword _ (hname.trans hsame.symm) x
    · exact Redrawn.congr (Redrawn.setText hdrawn hw hcon htext _) (fun _ _ => rfl)
        fun x _ => hword _ rfl x
  · rw [if_neg hroot]
    refine Redrawn.congr hdrawn (fun _ _ => rfl) fun x _ => ?_
    simp [wording, hroot]

end Pass

end PageLocalizer.Translation
