import PageLocalizer.Document.Markup
import PageLocalizer.Proofs.Document.Redrawing

-- The markup of a page depends on what the page shows, and not on how its texts are cut into nodes.
namespace PageLocalizer.Document

variable {d d' f g : Document} {a x t : NodeId} {n : Nat} {v : String}

section Levels

theorem markup_of_text (h : d.kind? x = some (.text v)) (n : Nat) :
    d.markup (n + 1) x = Markup.escape false v := by simp [markup, h]

private theorem markup_succ_eq (hf : d.links.Forest) (h : d.allocated ≤ d.depth a + n) :
    d.markup (n + 2) a = d.markup (n + 1) a := by
  refine level_succ_eq hf (fun n m x hchild => ?_) h
  unfold markup
  rw [List.flatMap_congr hchild]

theorem markup_stable (hf : d.links.Forest) (a : NodeId) (more : Nat) :
    d.markup (d.allocated + 1 + more) a = d.markup (d.allocated + 1) a := by
  induction more with
  | zero => rfl
  | succ more ih =>
      rw [← ih]
      have hs := markup_succ_eq (n := d.allocated + more) (a := a) hf (by omega)
      have hl : d.allocated + 1 + (more + 1) = d.allocated + more + 2 := by omega
      have hr : d.allocated + 1 + more = d.allocated + more + 1 := by omega
      rw [hl, hr, hs]

end Levels

section Texts

private theorem escape_join (quoted : Bool) (ss : List String) :
    Markup.escape quoted (String.join ss) = ss.flatMap (Markup.escape quoted) := by
  induction ss with
  | nil => simp [Markup.escape]
  | cons s rest ih =>
      rw [String.join_cons, List.flatMap_cons, ← ih]
      simp [Markup.escape]

-- Text nodes side by side are written like one text.
theorem flatMap_markup_texts (hw : d.WellFormed) (hx : d.isContainer x = true)
    (h : d.HoldsText x) : (d.children x).flatMap (d.markup (n + 1)) =
      Markup.escape false (d.textContent x) := by
  have hone : ∀ ts : List NodeId, (∀ t ∈ ts, d.isText t = true) →
      ts.flatMap (d.markup (n + 1)) = (ts.filterMap d.textData?).flatMap (Markup.escape false) := by
    intro ts hts
    induction ts with
    | nil => rfl
    | cons t rest ih =>
        obtain ⟨data, hk⟩ := isText_iff.mp (hts t List.mem_cons_self)
        have hdata : d.textData? t = some data := by simp [textData?, hk]
        rw [List.flatMap_cons, markup_of_text hk, List.filterMap_cons_some hdata,
          List.flatMap_cons, ih fun t ht => hts t (List.mem_cons_of_mem _ ht)]
  rw [hw.textContent_of_texts hx h, ownText, escape_join, hone _ h]

end Texts

section Redrawn

variable {style : NodeId → List (String × String)} {words : NodeId → Option String}

-- Two pages that are drawn alike are written alike, level by level.
theorem Redrawn.markup_eq (hf : Redrawn d style words f) (hg : Redrawn d style words g)
    (hw : d.WellFormed) (n : Nat) (hx : d.isContainer x = true) :
    f.markup n x = g.markup n x := by
  induction n generalizing x with
  | zero => rfl
  | succ n ih =>
      have hchildren :
          (f.children x).flatMap (f.markup n) = (g.children x).flatMap (g.markup n) := by
        cases hn : words x with
        | none =>
            obtain ⟨hcf, hkf⟩ := hf.kept x hx hn
            obtain ⟨hcg, hkg⟩ := hg.kept x hx hn
            rw [hcf, hcg]
            refine List.flatMap_congr fun t ht => ?_
            by_cases htext : d.isText t = true
            · cases n with
              | zero => rfl
              | succ n =>
                  obtain ⟨data, hk⟩ := isText_iff.mp htext
                  rw [markup_of_text ((hkf t ht htext).trans hk),
                    markup_of_text ((hkg t ht htext).trans hk)]
            · have hp := hw.forest.parent_of_mem ht
              exact ih (isContainer_of_parent hp (by simpa using htext))
        | some v =>
            obtain ⟨-, htf, hvf⟩ := hf.worded x v hx hn
            obtain ⟨-, htg, hvg⟩ := hg.worded x v hx hn
            have hxf := (hf.isContainer x).trans hx
            have hxg := (hg.isContainer x).trans hx
            cases n with
            | zero =>
                have hnil : ∀ (d : Document) (ts : List NodeId), ts.flatMap (d.markup 0) = [] :=
                  fun d ts => List.flatMap_eq_nil_iff.mpr fun _ _ => rfl
                rw [hnil, hnil]
            | succ n =>
                rw [flatMap_markup_texts hf.wellFormed hxf htf,
                  flatMap_markup_texts hg.wellFormed hxg htg, hvf, hvg]
      obtain ⟨k, hk, hkt⟩ := isContainer_iff.mp hx
      cases k with
      | text data => simp [NodeKind.isText] at hkt
      | document =>
          simp only [markup, hf.document hw hk, hg.document hw hk, hchildren]
      | element e =>
          simp only [markup, hf.element x e hk, hg.element x e hk, hchildren]

theorem Redrawn.outerHtml_eq (hf : Redrawn d style words f) (hg : Redrawn d style words g)
    (hw : d.WellFormed) (hx : d.isContainer x = true) : f.outerHtml x = g.outerHtml x := by
  have heq := hf.markup_eq hg hw (f.allocated + 1 + g.allocated) hx
  have hl : f.allocated + 1 + g.allocated = g.allocated + 1 + f.allocated := by omega
  rw [markup_stable hf.wellFormed.forest, hl, markup_stable hg.wellFormed.forest] at heq
  simp only [outerHtml, heq]

end Redrawn

end PageLocalizer.Document
