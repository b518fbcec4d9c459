import PageLocalizer.Proofs.Document.Retention
import PageLocalizer.Translation

-- A pass tells of nothing exactly when every directive below its root holds already.
namespace PageLocalizer.Translation

open Document Edit

variable {c : Catalog} {l : Locale} {d : Document} {D : Directive} {e root : NodeId}
  {target : Target} {v : String}

theorem mem_all (D : Directive) : D ∈ Directive.all := by cases D <;> decide

-- What a target holds, where an absent attribute is as good as an empty one.
def Held (d : Document) (e : NodeId) (target : Target) (v : String) : Prop :=
  (current? d e target).getD "" = v

-- The element shows what the directive comes to.
def Holds (c : Catalog) (l : Locale) (d : Document) (D : Directive) (e : NodeId) : Prop :=
  ∀ v, resolve c l d D e = some v → Held d e D.target v

-- The page has the name that the catalog gives it.
def Named (c : Catalog) (l : Locale) (d : Document) : Prop :=
  c.lookupMessage l titleKey (some d.titleText) = d.titleText

section Succeeds

theorem succeeds_write (e : NodeId) (target : Target) (v : String) :
    Succeeds (write e target v) := by
  intro d
  rcases target with _ | name
  · unfold write
    dsimp only
    split
    · rfl
    · exact succeeds_setText e v d
  · unfold write
    dsimp only
    split
    · split
      · rfl
      · exact succeeds_setAttribute e name v d
    · split
      · rfl
      · exact succeeds_setAttribute e name v d

theorem succeeds_applyTo (c : Catalog) (l : Locale) (D : Directive) (e : NodeId) :
    Succeeds (applyTo c l D e) := by
  intro d
  unfold applyTo
  split
  · exact succeeds_write e D.target _ d
  · rfl

theorem succeeds_applyDirective (c : Catalog) (l : Locale) (root : NodeId) (D : Directive) :
    Succeeds (applyDirective c l root D) := fun d =>
  succeeds_each (succeeds_applyTo c l D) (D.collect d root) d

end Succeeds

section Silent

theorem changes_setText_ne_nil (hw : d.WellFormed) (hel : d.isElement e)
    (h : d.textContent e ≠ v) : (setText e v d).changes ≠ [] := by
  obtain ⟨el, hk⟩ := isElement_iff.mp hel
  have hcon : d.isContainer e := isContainer_iff.mpr ⟨_, hk, rfl⟩
  rcases hw.setText_cases e v with ⟨hn, -⟩ | ⟨node, target, -, -, -, he⟩ | ⟨ha, -, -, -, he⟩
  · simp [kind?_of_unknown hn] at hk
  · rw [he]
    simp
  · intro hnil
    rw [he] at hnil
    unfold replaceChildren at hnil
    dsimp only at hnil
    split at hnil
    · rename_i hc
      have hsame : d.SameTenants (d.strip e (d.children e)) := sameTenants_strip
      have harr : d.arrivals v = [] := by
        rw [← hsame.arrivals v, ← snd_fill _ e v]
        exact hc.2
      have hv : v = "" := by
        by_contra hne
        simp [arrivals, hne] at harr
      exact h (hv ▸ textContent_of_childless hw.forest hcon hc.1)
    · simp at hnil

theorem changes_setAttribute_ne_nil (hel : d.isElement e) (name : String) :
    (setAttribute e name v d).changes ≠ [] := by
  obtain ⟨el, hk⟩ := isElement_iff.mp hel
  simp [setAttribute, element?_of_kind? hk]

theorem skipped_write (h : Held d e target v) : Skipped (write e target v) d := by
  unfold Held at h
  rcases target with _ | name
  · have ht : d.textContent e = v := h
    simp [Skipped, write, ht, Edit.pure]
  · cases ha : d.attribute? e name with
    | none =>
        have hv : "" = v := by simpa [current?, ha] using h
        simp [Skipped, write, ha, ← hv, Edit.pure]
    | some held =>
        have hv : held = v := by simpa [current?, ha] using h
        simp [Skipped, write, ha, hv, Edit.pure]

theorem changes_write_ne_nil (hw : d.WellFormed) (hel : d.isElement e)
    (h : ¬Held d e target v) : (write e target v d).changes ≠ [] := by
  unfold Held at h
  rcases target with _ | name
  · have ht : d.textContent e ≠ v := h
    simpa [write, ht] using changes_setText_ne_nil hw hel ht
  · have hs := changes_setAttribute_ne_nil (v := v) hel name
    cases ha : d.attribute? e name with
    | none =>
        have hv : v ≠ "" := by
          rintro rfl
          exact h (by simp [current?, ha])
        simpa [write, ha, hv] using hs
    | some held =>
        have hv : held ≠ v := by
          rintro rfl
          exact h (by simp [current?, ha])
        simpa [write, ha, hv] using hs

theorem changes_applyTo_eq_nil_iff (hw : d.WellFormed) (hel : d.isElement e) :
    (applyTo c l D e d).changes = [] ↔ Holds c l d D e := by
  unfold applyTo Holds
  cases hr : resolve c l d D e with
  | none => simp [Edit.pure]
  | some v =>
      constructor
      · intro h w hw'
        by_contra hn
        exact changes_write_ne_nil hw hel hn (Option.some.inj hw' ▸ h)
      · intro h
        have hs := skipped_write (h v rfl)
        rw [Skipped] at hs
        simp [hs]

theorem skipped_applyTo (h : Holds c l d D e) : Skipped (applyTo c l D e) d := by
  unfold Skipped applyTo
  cases hr : resolve c l d D e with
  | none => rfl
  | some v => exact skipped_write (h v hr)

theorem candid_applyTo (hw : d.WellFormed) (hel : d.isElement e) :
    Candid (applyTo c l D e) d := fun h =>
  skipped_applyTo ((changes_applyTo_eq_nil_iff hw hel).mp h)

theorem isElement_of_mem_collect (h : e ∈ D.collect d root) : d.isElement e := by
  unfold Directive.collect at h
  split at h
  · have ha := (List.mem_filter.mp h).2
    obtain ⟨value, hv⟩ := Option.isSome_iff_exists.mp ha
    exact isElement_of_attribute? hv
  · simp at h

private theorem candid_applyDirective (hw : d.WellFormed) :
    Candid (applyDirective c l root D) d :=
  candid_each (succeeds_applyTo c l D) fun _ he =>
    candid_applyTo hw (isElement_of_mem_collect he)

theorem skipped_applyDirective_iff (hw : d.WellFormed) :
    Skipped (applyDirective c l root D) d ↔ ∀ e ∈ D.collect d root, Holds c l d D e := by
  constructor
  · intro h e he
    have hnil : (applyDirective c l root D d).changes = [] := by
      rw [h]
    have hall := (each_changes_eq_nil_iff (succeeds_applyTo c l D) fun _ he =>
      candid_applyTo hw (isElement_of_mem_collect he)).mp hnil e he
    refine (changes_applyTo_eq_nil_iff hw (isElement_of_mem_collect he)).mp ?_
    rw [hall]
  · intro h
    exact skipped_each fun e he => skipped_applyTo (h e he)

theorem changes_retitle_eq_nil_iff (hw : d.WellFormed) :
    (retitle c l d).changes = [] ↔ Named c l d := by
  have hel : d.isElement title := hw.element title (by simp)
  unfold retitle Named setTitle
  by_cases h : c.lookupMessage l titleKey (some d.titleText) = d.titleText
  · simp [h, Edit.pure]
  · simpa [h] using changes_setText_ne_nil hw hel fun he => h he.symm

theorem pass_eq (c : Catalog) (l : Locale) (root : NodeId) :
    pass c l root = Edit.bind (Edit.each Directive.all (applyDirective c l root)) fun _ =>
      if root = Document.root ∨ root = Document.body then retitle c l else Edit.pure () := rfl

theorem changes_pass_eq_nil_iff (hw : d.WellFormed) :
    (pass c l root d).changes = [] ↔
      (∀ D, ∀ e ∈ D.collect d root, Holds c l d D e) ∧
        (root = Document.root ∨ root = Document.body → Named c l d) := by
  have hs := succeeds_applyDirective c l root
  have hc : ∀ D ∈ Directive.all, Candid (applyDirective c l root D) d := fun D _ =>
    candid_applyDirective hw
  have heach : Skipped (Edit.each Directive.all (applyDirective c l root)) d ↔
      ∀ D, ∀ e ∈ D.collect d root, Holds c l d D e := by
    constructor
    · intro h D
      have hnil : (Edit.each Directive.all (applyDirective c l root) d).changes = [] := by rw [h]
      exact (skipped_applyDirective_iff hw).mp
        ((each_changes_eq_nil_iff hs hc).mp hnil D (mem_all D))
    · intro h
      exact skipped_each fun D _ => (skipped_applyDirective_iff hw).mpr (h D)
  rw [pass_eq, bind_changes_eq_nil_iff (succeeds_each hs _) (candid_each hs hc), heach]
  refine and_congr_right fun _ => ?_
  by_cases hroot : root = Document.root ∨ root = Document.body
  · simp only [hroot, ite_true, forall_const]
    exact changes_retitle_eq_nil_iff hw
  · simp [hroot, Edit.pure]

end Silent

end PageLocalizer.Translation
