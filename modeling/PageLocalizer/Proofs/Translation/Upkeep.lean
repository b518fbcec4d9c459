import PageLocalizer.Proofs.Document.Attachment
import PageLocalizer.Proofs.Document.Insertions
import PageLocalizer.Proofs.Translation.Switching

-- A translated page that is edited outside of its tree. What goes into the tree waits to be
-- translated, and all else stays translated.
namespace PageLocalizer

namespace Document

-- A node that may be moved: one outside of the tree, or an element of it.
def Movable (d : Document) (x : NodeId) : Prop :=
  d.Attached x → d.isElement x = true ∧ x ∉ fixtures

-- What leaves the tree alone, but for elements that move, and come to nodes of the body.
def Operation.Outside (d : Document) : Operation → Prop
  | .createElement _ | .createText _ | .release _ => True
  | .setAttribute id _ _ | .removeAttribute id _ | .setText id _ => ¬d.Attached id
  | .removeChild _ child | .remove child => d.Movable child
  | .appendChild parent child => d.Movable child ∧
    (d.Attached parent → d.contains body parent = true ∧ d.isElement child = true)
  | .setTitle _ | .observe _ | .disconnect _ => False

instance (d : Document) (x : NodeId) : Decidable (d.Movable x) :=
  inferInstanceAs (Decidable (_ → _))

instance (d : Document) : DecidablePred (Operation.Outside d)
  | .createElement _ | .createText _ | .release _ => inferInstanceAs (Decidable True)
  | .setAttribute _ _ _ | .removeAttribute _ _ | .setText _ _ => inferInstanceAs (Decidable (¬_))
  | .removeChild _ child | .remove child => inferInstanceAs (Decidable (d.Movable child))
  | .appendChild _ _ => inferInstanceAs (Decidable (_ ∧ _))
  | .setTitle _ | .observe _ | .disconnect _ => inferInstanceAs (Decidable False)

end Document

namespace Translation

open Document Edit

-- The element shows all that it asks for once the elements in it are gone. Those that are in the
-- way of its text do not matter.
def Shown (c : Catalog) (l : Locale) (d : Document) (x : NodeId) : Prop :=
  ∀ (D : Directive) (bare : Document), d.hasAttribute x D.marker = true →
    bare.kind? x = d.kind? x →
    (D.target = .textContent → bare.textContent x = d.ownText x) → Holds c l bare D x

-- The page is translated but for what waits. It has its name, unless all of it waits.
structure Abreast (c : Catalog) (l : Locale) (waiting : List NodeId) (d : Document) : Prop where
  wellFormed : d.WellFormed
  inPlace : d.InPlace
  locale : d.attribute? html EngineSettings.standard.localeAttribute = some l.tag
  title : d.HoldsText Document.title
  named : root ∈ waiting ∨ Named c l d
  shown : ∀ x, d.Attached x → (∃ b ∈ waiting, d.links.Under x b) ∨ Shown c l d x

variable {c : Catalog} {l : Locale} {d d' seen : Document} {D : Directive} {x b p child : NodeId}
  {waiting come : List NodeId} {ws : List Write} {changes : List Change}

section Shown

-- A directive looks at its element and, where it is for a text, at the text.
theorem Holds.of_kind? (h : Holds c l d D x) (hk : d'.kind? x = d.kind? x)
    (ht : D.target = .textContent → d'.textContent x = d.textContent x) : Holds c l d' D x := by
  have hattr : ∀ name, d'.attribute? x name = d.attribute? x name := attribute?_congr hk
  have hcur : current? d' x D.target = current? d x D.target := by
    rcases hD : D.target with _ | name
    · exact congrArg some (ht hD)
    · exact hattr name
  have hparams : d'.templateParams x = d.templateParams x := by
    simp [Document.templateParams, dataset, attributes, element?, hk]
  have hres : resolve c l d' D x = resolve c l d D x := by
    have hkey := key?_congr (hattr D.marker)
    cases D <;> simp only [resolve, hkey, hcur, hparams]
  intro v hv
  have hheld := h v (hres ▸ hv)
  unfold Held at hheld ⊢
  rw [hcur]
  exact hheld

theorem shown_of_holds (h : ∀ D : Directive, d.hasAttribute x D.marker = true → Holds c l d D x ∧
    (D.target = .textContent → d.textContent x = d.ownText x)) : Shown c l d x := by
  intro D bare hm hk ht
  obtain ⟨hholds, hown⟩ := h D hm
  exact hholds.of_kind? hk fun hD => (ht hD).trans (hown hD).symm

theorem Shown.of_kind? (h : Shown c l d x) (hk : d'.kind? x = d.kind? x)
    (ht : ∀ D : Directive, D.target = .textContent → d.hasAttribute x D.marker = true →
      d'.ownText x = d.ownText x) : Shown c l d' x := by
  intro D bare hm hk' ht'
  rw [hasAttribute, attribute?_congr hk] at hm
  exact h D bare hm (hk'.trans hk) fun hD => (ht' hD).trans (ht D hD hm)

end Shown

namespace Abreast

theorem mono {more : List NodeId} (h : Abreast c l waiting d) (hs : waiting ⊆ more) :
    Abreast c l more d where
  wellFormed := h.wellFormed
  inPlace := h.inPlace
  locale := h.locale
  title := h.title
  named := h.named.imp_left (hs ·)
  shown x hx := (h.shown x hx).imp_left fun ⟨b, hb, hu⟩ => ⟨b, hs hb, hu⟩

theorem regrown (h : Abreast c l waiting d) (hr : d.Regrown come d') :
    Abreast c l (waiting ++ come) d' := by
  have hw := h.wellFormed
  have hw' := hr.wellFormed
  obtain ⟨hhtml, -, htitle, -⟩ := h.inPlace.attached hw
  obtain ⟨hhtml', -, -, -⟩ := (hr.inPlace h.inPlace).attached hw'
  have htext' := hr.title h.inPlace h.title
  have hname : d'.titleText = d.titleText := by
    have hcon : ∀ {e : Document}, e.WellFormed → e.isContainer Document.title = true :=
      fun he => isContainer_of_isElement (he.element _ (by simp))
    unfold titleText
    rw [hw'.textContent_of_texts (hcon hw') htext', hw.textContent_of_texts (hcon hw) h.title,
      hr.ownText _ htitle]
  constructor
  · exact hw'
  · exact hr.inPlace h.inPlace
  · rw [attribute?_congr (hr.kind? html hhtml hhtml')]
    exact h.locale
  · exact htext'
  · refine h.named.imp (List.mem_append_left _) fun hnamed => ?_
    unfold Named at hnamed ⊢
    rwa [hname]
  · intro x hx'
    rcases hr.kept x hx' with ⟨b, hb, hu⟩ | ⟨hx, hup⟩
    · exact Or.inl ⟨b, List.mem_append_right _ hb, hu⟩
    · rcases h.shown x hx with ⟨b, hb, hu⟩ | hshown
      · exact Or.inl ⟨b, List.mem_append_left _ hb, hup b hu⟩
      · exact Or.inr (hshown.of_kind? (hr.kind? x hx hx') fun _ _ _ => hr.ownText x hx)

theorem sameTree (h : Abreast c l waiting d) (hs : SameTree d d') : Abreast c l waiting d' := by
  have hgrown := h.regrown (hs.regrown h.wellFormed)
  rwa [List.append_nil] at hgrown

theorem leave (h : Abreast c l waiting d) (hm : Made d (.children p [child] []) d')
    (hp : d.parent? child = some p) (hmov : d.Movable child) : Abreast c l waiting d' := by
  have hw := h.wellFormed
  by_cases hpa : d.Attached p
  · have hgrown : d.Regrown [] d' := by
      refine hm.regrown hw (fun x hx => ?_) (by simp)
      rw [List.mem_singleton.mp hx]
      exact ⟨hw.forest.mem_of_parent hp, hmov ((attached_of_parent hw hp).mpr hpa)⟩
    have hdone := h.regrown hgrown
    rwa [List.append_nil] at hdone
  · exact h.sameTree (hm.sameTree hw hpa)

theorem join (h : Abreast c l waiting d) (hm : Made d (.children p [] [child]) d')
    (hhost : d.Attached p → d.links.Under p body ∧ d.isElement child = true) :
    Abreast c l (waiting ++ if d.Attached p then [child] else []) d' := by
  have hw := h.wellFormed
  by_cases hpa : d.Attached p
  · rw [if_pos hpa]
    obtain ⟨hbody, hel⟩ := hhost hpa
    refine h.regrown (hm.regrown hw (by simp) fun c hc => ?_)
    rw [List.mem_singleton.mp hc]
    refine ⟨hel, ?_⟩
    rintro rfl
    exact h.inPlace.title_not_under_body hw hbody
  · rw [if_neg hpa, List.append_nil]
    exact h.sameTree (hm.sameTree hw hpa)

-- A single removal, after which nodes may go.
theorem left (h : Abreast c l waiting d) (hp : d.parent? child = some p) (hmov : d.Movable child)
    (ha : Account d [.children p [child] []] changes d') : Abreast c l waiting d' := by
  obtain ⟨seen, _, -, hm, hrest⟩ := ha.uncons
  have hleft := h.leave hm hp hmov
  exact hleft.sameTree (hrest.quiet.sameTree hleft.wellFormed)

-- A child joins a parent, and it may leave another one before.
theorem appended {edited : Edited α} (h : Abreast c l waiting d)
    (hadm : d.admits p child = true) (hmov : d.Movable child)
    (hhost : d.Attached p → d.links.Under p body ∧ d.isElement child = true)
    (ha : Accounted d ((Operation.appendChild p child).writes d) edited) :
    Abreast c l (waiting ++ if d.Attached p then [child] else []) edited.document := by
  have hw := h.wellFormed
  obtain ⟨result, d', changes⟩ := edited
  obtain ⟨hacc, hseen, -⟩ := ha
  dsimp only at hacc hseen ⊢
  simp only [Operation.writes, hadm, if_true] at hacc
  cases hold : d.parent? child with
  | none =>
      rw [hold] at hacc
      obtain ⟨seen, _, -, hm, hrest⟩ := hacc.uncons
      have hjoined := h.join hm hhost
      exact hjoined.sameTree (hrest.quiet.sameTree hjoined.wellFormed)
  | some old =>
      rw [hold] at hacc
      obtain ⟨mid, _, rfl, hm, hrest⟩ := hacc.uncons
      obtain ⟨seen, _, rfl, hm', hrest⟩ := hrest.uncons
      have hleft := h.leave hm hold hmov
      have hwm := hleft.wellFormed
      -- The new parent stays where it is while the child leaves the old one.
      have hup : ∀ a, mid.links.Under p a ↔ d.links.Under p a := fun a =>
        (hm'.scope a).symm.trans (hseen _ (List.mem_cons_of_mem _ List.mem_cons_self) a)
      have hpa : mid.Attached p ↔ d.Attached p := by
        rw [attached_iff hwm, attached_iff hw, hup]
      have hjoined := hleft.join hm' fun hp => by
        obtain ⟨hbody, hel⟩ := hhost (hpa.mp hp)
        refine ⟨(hup body).mpr hbody, ?_⟩
        have hkind : mid.kind? child = d.kind? child := by
          rw [hm.kind? child (hw.alive_of_parent? hold).1]
          cases d.kind? child <;> rfl
        simpa [isElement, hkind] using hel
      simp only [hpa] at hjoined
      exact hjoined.sameTree (hrest.quiet.sameTree hjoined.wellFormed)

theorem outside {op : Operation} (h : Abreast c l waiting d) (hout : op.Outside d)
    (hm : ∀ x ∈ op.mentions, (d.node? x).isSome → d.Alive x) :
    Abreast c l (waiting ++ op.brings d) (op.edit d).document := by
  have hw := h.wellFormed
  have hacc := accounted_edit op hw hm
  have hnone : op.brings d = [] → Abreast c l waiting (op.edit d).document →
      Abreast c l (waiting ++ op.brings d) (op.edit d).document := fun hb hd => by
    rwa [hb, List.append_nil]
  have hstill : (∀ w ∈ op.writes d, ¬d.Attached w.target) →
      Abreast c l waiting (op.edit d).document := fun hws =>
    h.sameTree (hacc.account.sameTree hw hws)
  cases op with
  | createElement tag => exact hnone rfl (hstill (by simp [Operation.writes]))
  | createText data => exact hnone rfl (hstill (by simp [Operation.writes]))
  | release id => exact hnone rfl (hstill (by simp [Operation.writes]))
  | setAttribute id name value => exact hnone rfl (hstill (detached_of_setAttribute hout))
  | removeAttribute id name => exact hnone rfl (hstill (detached_of_removeAttribute hout))
  | setText id text => exact hnone rfl (hstill (detached_of_textWrites hw hout text))
  | removeChild p child =>
      refine hnone rfl ?_
      by_cases hp : d.parent? child = some p
      · have ha := hacc.account
        simp only [Operation.writes, hp, if_true] at ha
        exact h.left hp hout ha
      · exact hstill (by simp [Operation.writes, hp])
  | remove id =>
      refine hnone rfl ?_
      cases hr : d.releasable id with
      | error e => exact hstill (by simp [Operation.writes, hr])
      | ok ids =>
          cases hp : d.parent? id with
          | none => exact hstill (by simp [Operation.writes, hr, hp])
          | some p =>
              have ha := hacc.account
              simp only [Operation.writes, hr, hp] at ha
              exact h.left hp hout ha
  | appendChild p child =>
      obtain ⟨hmov, hhost⟩ : d.Movable child ∧
        (d.Attached p → d.contains body p = true ∧ d.isElement child = true) := hout
      cases hadm : d.admits p child with
      | false =>
          have hws : Operation.writes d (.appendChild p child) = [] := by
            simp [Operation.writes, hadm]
          exact (hstill (by simp [hws])).mono (List.subset_append_left _ _)
      | true =>
          have hjoined := h.appended hadm hmov (fun hp => by
            obtain ⟨hbody, hel⟩ := hhost hp
            exact ⟨(contains_iff hw.forest body p).mp hbody, hel⟩) hacc
          refine hjoined.mono (List.append_subset.mpr ⟨List.subset_append_left _ _, ?_⟩)
          by_cases hp : d.Attached p
          · obtain ⟨hbody, hel⟩ := hhost hp
            rw [if_pos hp, brings_of_admits hw hadm hm
              ((contains_iff hw.forest body p).mp hbody) hel]
            exact List.subset_append_right _ _
          · rw [if_neg hp]
            exact List.nil_subset _
  | setTitle text => exact absurd hout id
  | observe target => exact absurd hout id
  | disconnect observer => exact absurd hout id

end Abreast
end Translation
end PageLocalizer
