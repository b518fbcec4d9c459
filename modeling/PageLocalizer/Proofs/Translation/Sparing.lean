import PageLocalizer.Proofs.Document.Sparing
import PageLocalizer.Proofs.Translation.Outcome

-- A pass touches nothing but its targets.
namespace PageLocalizer.Translation

open Document Edit

variable {c : Catalog} {l : Locale} {d d' : Document} {D : Directive} {n e x root : NodeId}
  {name : String}

-- The elements below `root` that ask for a text, and the title where a pass names the page.
def Rewrites (d : Document) (root e : NodeId) : Prop :=
  (e ∈ d.subtree root ∧
    ∃ D : Directive, D.target = .textContent ∧ d.hasAttribute e D.marker = true) ∨
  ((root = Document.root ∨ root = body) ∧ e = title)

-- Whether an element below `root` asks for the attribute.
def restyles (d : Document) (root e : NodeId) (name : String) : Bool :=
  (d.subtree root).contains e &&
    Directive.all.any fun D => D.target == .attribute name && d.hasAttribute e D.marker

theorem restyles_iff : restyles d root e name = true ↔ e ∈ d.subtree root ∧
    ∃ D : Directive, D.target = .attribute name ∧ d.hasAttribute e D.marker = true := by
  simp [restyles, mem_all]

-- Nobody asks for a marker.
private theorem restyles_marker (D : Directive) (root e : NodeId) :
    restyles d root e D.marker = false := by
  rw [Bool.eq_false_iff]
  intro h
  obtain ⟨-, E, hE, -⟩ := restyles_iff.mp h
  exact marker_ne D hE rfl

private theorem isText_of_rewrites (hw : d.WellFormed) (h : Rewrites d root e) :
    d.isText e = false := by
  refine isText_of_isContainer (isContainer_of_isElement ?_)
  rcases h with ⟨-, D, -, hm⟩ | ⟨-, rfl⟩
  · obtain ⟨value, hv⟩ := Option.isSome_iff_exists.mp hm
    exact isElement_of_attribute? hv
  · exact hw.element title (by simp)

section Pass

variable (h : Spares (Rewrites d root) (restyles d root) d d') (hw : d.WellFormed)

include h hw

-- Whoever is found to carry a directive has carried it from the start, unless it is not spared.
private theorem mem_collect_of_spares (hx : x ∈ D.collect d' root)
    (hs : d.Spared (Rewrites d root) x) :
    x ∈ d.subtree root ∧ d.hasAttribute x D.marker = true := by
  obtain ⟨-, hm, hmark⟩ := mem_collect_iff.mp hx
  have hu := (mem_subtree_iff h.wellFormed.forest).mp hm
  refine ⟨(mem_subtree_iff hw.forest).mpr (h.under hw hs hu).2, ?_⟩
  rwa [hasAttribute, ← h.attribute? hs (restyles_marker D root x)]

theorem spares_setText (hx : d.Spared (Rewrites d root) x → Rewrites d root x) (v : String) :
    Spares (Rewrites d root) (restyles d root) d (setText x v d').document :=
  h.setText hw (fun hs => ⟨hx hs, isText_of_rewrites hw (hx hs)⟩) v

private theorem spares_write (v : String)
    (hx : d.Spared (Rewrites d root) x → x ∈ d.subtree root ∧ d.hasAttribute x D.marker = true) :
    Spares (Rewrites d root) (restyles d root) d (write x D.target v d').document := by
  rcases hD : D.target with _ | name
  · unfold write
    dsimp only
    split
    · exact h
    · exact spares_setText h hw (fun hs => .inl ⟨(hx hs).1, D, hD, (hx hs).2⟩) v
  · have hset : Spares (Rewrites d root) (restyles d root) d (setAttribute x name v d').document :=
      h.setAttribute (fun hs => restyles_iff.mpr ⟨(hx hs).1, D, hD, (hx hs).2⟩) v
    unfold write
    dsimp only
    split
    · split
      · exact h
      · exact hset
    · split
      · exact h
      · exact hset

private theorem spares_applyTo (c : Catalog) (l : Locale)
    (hx : d.Spared (Rewrites d root) x → x ∈ d.subtree root ∧ d.hasAttribute x D.marker = true) :
    Spares (Rewrites d root) (restyles d root) d (applyTo c l D x d').document := by
  unfold applyTo
  split
  · exact spares_write h hw _ hx
  · exact h

private theorem spares_applyDirective (c : Catalog) (l : Locale) (D : Directive) :
    Spares (Rewrites d root) (restyles d root) d (applyDirective c l root D d').document :=
  each_induction (succeeds_applyTo c l D) h fun _ hx _ hd'' =>
    spares_applyTo hd'' hw c l fun hs => mem_collect_of_spares h hw hx hs

private theorem spares_retitle (c : Catalog) (l : Locale)
    (hroot : root = Document.root ∨ root = body) :
    Spares (Rewrites d root) (restyles d root) d (retitle c l d').document := by
  unfold retitle
  dsimp only
  split
  · exact h
  · exact spares_setText h hw (fun _ => .inr ⟨hroot, rfl⟩) _

omit h

private theorem spares_pass (c : Catalog) (l : Locale) (root : NodeId) :
    Spares (Rewrites d root) (restyles d root) d (pass c l root d).document := by
  have hall : Spares (Rewrites d root) (restyles d root) d
      (Edit.each Directive.all (applyDirective c l root) d).document :=
    each_induction (succeeds_applyDirective c l root) (Spares.refl hw)
      fun D _ _ hd' => spares_applyDirective hd' hw c l D
  rw [pass_eq, bind_document (succeeds_each (succeeds_applyDirective c l root) _)]
  split
  · next hroot => exact spares_retitle hall hw c l hroot
  · exact hall

-- There is nothing below a root that is no container, and only containers name the page.
private theorem skipped_pass (c : Catalog) (l : Locale) (hroot : d.isContainer root = false) :
    Skipped (pass c l root) d := by
  rw [pass_eq]
  refine skipped_bind (skipped_each fun D _ => ?_) ?_
  · simp [Skipped, applyDirective, Directive.collect, hroot, Edit.each, Edit.pure]
  · rw [if_neg]
    · rfl
    · rintro (rfl | rfl)
      · simp [isContainer, hw.root_kind, NodeKind.isContainer] at hroot
      · simp [isContainer_of_isElement (hw.element body (by simp))] at hroot

end Pass

-- Whatever is not held by an element that asks for a text, nor by the title where the page is
-- named, is where it was and what it was; only such an element and the title hold something else,
-- and of the attributes only those differ that were asked for.
theorem pass_frame {h : Chronicle} (hr : Chronicle.Recorded h) (c : Catalog) (l : Locale)
    (root : NodeId) :
    let d := h.document
    let d' := (pass c l root d).document
    (∀ n, d.Spared (Rewrites d root) n →
      d'.Alive n ∧ d'.parent? n = d.parent? n ∧
      (¬Rewrites d root n → d'.children n = d.children n) ∧
      ∃ kind kind', d.kind? n = some kind ∧ d'.kind? n = some kind' ∧
        kind.SameBut (restyles d root n) kind') ∧
    (¬d.Alive root ∨ d.isText root = true → Skipped (pass c l root) d) := by
  intro d d'
  have hw : d.WellFormed := (Chronicle.sound_of_recorded hr).wellFormed
  have hspares := spares_pass hw c l root
  refine ⟨fun n hn => ⟨hspares.alive n hn, hspares.parent? n hn, hspares.children n hn,
    hspares.kind? n hn⟩, fun hroot => skipped_pass hw c l ?_⟩
  rw [Bool.eq_false_iff]
  intro hcon
  rcases hroot with hdead | htext
  · exact hdead (hw.alive_of_isContainer hcon)
  · simp [isText_of_isContainer hcon] at htext

-- The inner indicator goes, and the page around the outer one stays.
theorem pass_frame_nestedIndicators : Chronicle.Recorded nestedIndicators ∧
    let d := nestedIndicators.document
    let d' := (pass Catalog.empty .en Document.root d).document
    (∀ n, d.Spared (Rewrites d Document.root) n →
      d'.Alive n ∧ d'.parent? n = d.parent? n ∧
      (¬Rewrites d Document.root n → d'.children n = d.children n) ∧
      ∃ kind kind', d.kind? n = some kind ∧ d'.kind? n = some kind' ∧
        kind.SameBut (restyles d Document.root n) kind') ∧
    (¬d.Alive Document.root ∨ d.isText Document.root = true →
      Skipped (pass Catalog.empty .en Document.root) d) :=
  ⟨recorded_nestedIndicators, pass_frame recorded_nestedIndicators Catalog.empty .en Document.root⟩

end PageLocalizer.Translation
