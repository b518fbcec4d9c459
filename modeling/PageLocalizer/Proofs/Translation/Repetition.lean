import PageLocalizer.Proofs.Document.Consistency
import PageLocalizer.Proofs.Translation.Silence

-- What holds after a pass, and what a second pass of the same kind still finds to do.
namespace PageLocalizer.Translation

open Document Edit

variable {c : Catalog} {l : Locale} {d d' : Document} {D E : Directive} {e x root : NodeId}
  {name v key : String} {touched : NodeId → String → Prop}

section Resolve

theorem target_attribute_inj (hD : D.target = .attribute name) (hE : E.target = .attribute name) :
    D = E := by
  have h := hD.trans hE.symm
  cases D <;> cases E <;> first
    | rfl
    | simp [Directive.target] at h hD

-- No directive writes to a marker.
theorem marker_ne (D : Directive) (hE : E.target = .attribute name) : D.marker ≠ name := by
  cases E <;> cases D <;> simp_all [Directive.target, Directive.marker] <;> subst hE <;> decide

-- A message stands for itself as the fallback of its own key.
theorem lookupMessage_fallback (c : Catalog) (l : Locale) (key : String)
    (fallback : Option String) :
    c.lookupMessage l key (some (c.lookupMessage l key fallback)) =
      c.lookupMessage l key fallback := by
  unfold Catalog.lookupMessage
  cases Catalog.orDefault l (c.message? · key) <;> simp

theorem lookupMessage_empty (c : Catalog) (l : Locale) (key : String) :
    c.lookupMessage l key (some "") = c.lookupMessage l key none := by
  unfold Catalog.lookupMessage
  cases Catalog.orDefault l (c.message? · key) <;> simp

theorem resolve_of_attribute (hD : D.target = .attribute name) :
    resolve c l d D e =
      (D.key? d e).map fun key => c.lookupMessage l key (d.attribute? e name) := by
  cases D <;> simp_all [Directive.target, resolve, current?]

theorem key?_congr (h : d'.attribute? e D.marker = d.attribute? e D.marker) :
    D.key? d' e = D.key? d e := by simp [Directive.key?, h]

-- A directive with an attribute for its target looks at two attributes only.
theorem Holds.congr (h : Holds c l d D e) (hD : D.target = .attribute name)
    (hm : d'.attribute? e D.marker = d.attribute? e D.marker)
    (ha : d'.attribute? e name = d.attribute? e name) : Holds c l d' D e := by
  intro v hv
  rw [resolve_of_attribute hD, key?_congr hm, ha, ← resolve_of_attribute hD] at hv
  have hheld := h v hv
  simp only [Held, hD, current?, ha] at hheld ⊢
  exact hheld

theorem holds_of_key?_none (hD : D.target = .attribute name) (hk : D.key? d e = none) :
    Holds c l d D e := by
  intro v hv
  rw [resolve_of_attribute hD, hk] at hv
  simp at hv

-- Once an attribute has its value, its directive comes to that value again.
private theorem holds_of_attribute? (hD : D.target = .attribute name) (hk : D.key? d e = some key)
    {fallback : Option String}
    (ha : (d.attribute? e name).getD "" = c.lookupMessage l key fallback) :
    Holds c l d D e := by
  intro v hv
  rw [resolve_of_attribute hD, hk, Option.map_some, Option.some.injEq] at hv
  have hcur : c.lookupMessage l key (d.attribute? e name) =
      c.lookupMessage l key (some ((d.attribute? e name).getD "")) := by
    cases d.attribute? e name with
    | none => simp [lookupMessage_empty]
    | some held => rfl
  have hfix : v = (d.attribute? e name).getD "" := by
    rw [← hv, hcur, ha, lookupMessage_fallback]
  simp only [Held, hD, current?]
  exact hfix.symm

end Resolve

section Pass

-- One step of a pass writes to one target.
private theorem write_keeps (hw : d.WellFormed) (e : NodeId) (target : Target) (v : String) :
    (write e target v d).document.WellFormed ∧
      Retains (fun x n => x = e ∧ target = .attribute n) d (write e target v d).document := by
  rcases target with _ | name
  · unfold write
    dsimp only
    split
    · exact ⟨hw, .refl _ d⟩
    · exact ⟨(hw.setText e v).1, hw.retains_setText e v⟩
  · have hset : (setAttribute e name v d).document.WellFormed ∧
        Retains (fun x n => x = e ∧ Target.attribute name = .attribute n) d
          (setAttribute e name v d).document := by
      refine ⟨(hw.setAttribute e name v).1, (retains_setAttribute e name v).mono ?_⟩
      rintro x n ⟨hx, rfl⟩
      exact ⟨hx, rfl⟩
    unfold write
    dsimp only
    split
    · split
      · exact ⟨hw, .refl _ d⟩
      · exact hset
    · split
      · exact ⟨hw, .refl _ d⟩
      · exact hset

theorem applyTo_keeps (hw : d.WellFormed) (c : Catalog) (l : Locale) (D : Directive) (e : NodeId) :
    (applyTo c l D e d).document.WellFormed ∧
      Retains (fun x n => x = e ∧ D.target = .attribute n) d (applyTo c l D e d).document := by
  unfold applyTo
  cases resolve c l d D e with
  | none => exact ⟨hw, .refl _ d⟩
  | some v => exact write_keeps hw e D.target v

private theorem attribute?_write (hel : d.isElement e) (name v : String) :
    ((write e (.attribute name) v d).document.attribute? e name).getD "" = v := by
  have hset := attribute?_setAttribute hel name v name
  rw [if_pos rfl] at hset
  cases ha : d.attribute? e name with
  | none =>
      by_cases hv : v = ""
      · simp [write, ha, hv, Edit.pure]
      · simp [write, ha, hv, hset]
  | some held =>
      by_cases hv : held = v
      · simp [write, ha, hv, Edit.pure]
      · simp [write, ha, hv, hset]

-- A step sees to it that its directive holds.
private theorem holds_applyTo (hw : d.WellFormed) (hD : D.target = .attribute name) :
    Holds c l (applyTo c l D e d).document D e := by
  have hkeep := (applyTo_keeps hw c l D e).2
  intro v hv
  by_cases hel' : (applyTo c l D e d).document.isElement e
  · have hm := hkeep.attribute? e D.marker hel' fun ht => marker_ne D ht.2 rfl
    have hk := key?_congr hm
    cases hkey : D.key? d e with
    | none => exact holds_of_key?_none hD (hk.trans hkey) v hv
    | some key =>
        have hr : resolve c l d D e = some (c.lookupMessage l key (d.attribute? e name)) := by
          rw [resolve_of_attribute hD, hkey, Option.map_some]
        have hdoc : applyTo c l D e d =
            write e (.attribute name) (c.lookupMessage l key (d.attribute? e name)) d := by
          simp [applyTo, hr, hD]
        have hval : ((applyTo c l D e d).document.attribute? e name).getD "" =
            c.lookupMessage l key (d.attribute? e name) := by
          rw [hdoc]
          exact attribute?_write (hkeep.isElement e hel') name _
        exact holds_of_attribute? hD (hk.trans hkey) hval v hv
  · have hnone : (applyTo c l D e d).document.attribute? e D.marker = none := by
      cases ha : (applyTo c l D e d).document.attribute? e D.marker with
      | none => rfl
      | some value => exact absurd (isElement_of_attribute? ha) hel'
    exact holds_of_key?_none hD (by simp [Directive.key?, hnone]) v hv

theorem Holds.retains (h : Holds c l d D e) (hD : D.target = .attribute name)
    (hr : Retains touched d d') (hm : ¬touched e D.marker) (ha : ¬touched e name) :
    Holds c l d' D e := by
  by_cases hel : d'.isElement e
  · exact h.congr hD (hr.attribute? e _ hel hm) (hr.attribute? e _ hel ha)
  · have hnone : d'.attribute? e D.marker = none := by
      cases hv : d'.attribute? e D.marker with
      | none => rfl
      | some value => exact absurd (isElement_of_attribute? hv) hel
    exact holds_of_key?_none hD (by simp [Directive.key?, hnone])

-- The steps for one directive. What an early step wrote, no later one touches.
private theorem each_applyTo_keeps (hw : d.WellFormed) (c : Catalog) (l : Locale) (D : Directive)
    (es : List NodeId) :
    let after := (Edit.each es (applyTo c l D) d).document
    after.WellFormed ∧ Retains (fun x n => x ∈ es ∧ D.target = .attribute n) d after ∧
      ∀ name, D.target = .attribute name → ∀ e ∈ es, Holds c l after D e := by
  induction es generalizing d with
  | nil => exact ⟨hw, .refl _ d, fun _ _ _ h => by simp at h⟩
  | cons e es ih =>
      obtain ⟨hw', hkeep⟩ := applyTo_keeps hw c l D e
      obtain ⟨hw'', hkeep', hall⟩ := ih hw'
      rw [each_cons, bind_document (succeeds_applyTo c l D e)]
      refine ⟨hw'', (hkeep.mono ?_).trans (hkeep'.mono ?_), fun name hD x hx => ?_⟩
      · rintro x n ⟨rfl, hn⟩
        exact ⟨List.mem_cons_self, hn⟩
      · rintro x n ⟨hx, hn⟩
        exact ⟨List.mem_cons_of_mem e hx, hn⟩
      · by_cases hmem : x ∈ es
        · exact hall name hD x hmem
        · have hxe : x = e := (List.mem_cons.mp hx).resolve_right hmem
          subst hxe
          exact (holds_applyTo hw hD).retains hD hkeep' (fun ht => hmem ht.1) fun ht => hmem ht.1

theorem mem_collect_of_retains (hr : Retains touched d d') (hw : d.WellFormed) (hw' : d'.WellFormed)
    (hm : ∀ x, ¬touched x D.marker) (h : e ∈ D.collect d' root) : e ∈ D.collect d root := by
  have hel := isElement_of_mem_collect h
  unfold Directive.collect at h ⊢
  by_cases hc' : d'.isContainer root
  · rw [if_pos hc', List.mem_filter] at h
    rw [if_pos (hr.isContainer root hc'), List.mem_filter]
    refine ⟨hr.mem_subtree hw hw' hel h.1, ?_⟩
    rw [hasAttribute, ← hr.attribute? e D.marker hel (hm e)]
    exact h.2
  · simp [hc'] at h

-- A directive that holds throughout goes on to hold while other attributes and texts are set.
theorem holds_all_retains (hr : Retains touched d d') (hw : d.WellFormed) (hw' : d'.WellFormed)
    (hD : D.target = .attribute name) (hm : ∀ x, ¬touched x D.marker)
    (ha : ∀ x, ¬touched x name) (h : ∀ e ∈ D.collect d root, Holds c l d D e) :
    ∀ e ∈ D.collect d' root, Holds c l d' D e := fun e he =>
  (h e (mem_collect_of_retains hr hw hw' hm he)).retains hD hr (hm e) (ha e)

-- The directives one after the other. Each has a target of its own.
private theorem each_applyDirective_keeps (hw : d.WellFormed) (c : Catalog) (l : Locale)
    (root : NodeId) {ds : List Directive} (hnd : ds.Nodup) :
    let after := (Edit.each ds (applyDirective c l root) d).document
    after.WellFormed ∧ Retains (fun _ n => ∃ D ∈ ds, D.target = .attribute n) d after ∧
      ∀ D ∈ ds, ∀ name, D.target = .attribute name →
        ∀ e ∈ D.collect after root, Holds c l after D e := by
  induction ds generalizing d with
  | nil => exact ⟨hw, .refl _ d, fun _ h => by simp at h⟩
  | cons D ds ih =>
      obtain ⟨hD, hnd'⟩ := List.nodup_cons.mp hnd
      obtain ⟨hw', hkeep, hall⟩ := each_applyTo_keeps hw c l D (D.collect d root)
      obtain ⟨hw'', hkeep', hall'⟩ := ih (d := (applyDirective c l root D d).document) hw' hnd'
      rw [each_cons, bind_document (succeeds_applyDirective c l root D)]
      refine ⟨hw'', (hkeep.mono ?_).trans (hkeep'.mono ?_), fun E hE name hname => ?_⟩
      · rintro x n ⟨-, hn⟩
        exact ⟨D, List.mem_cons_self, hn⟩
      · rintro x n ⟨E, hE, hn⟩
        exact ⟨E, List.mem_cons_of_mem D hE, hn⟩
      · rcases List.mem_cons.mp hE with rfl | hE
        · refine holds_all_retains hkeep' hw' hw'' hname ?_ ?_ fun e he => ?_
          · rintro x ⟨F, -, hF⟩
            exact marker_ne E hF rfl
          · rintro x ⟨F, hF, hname'⟩
            exact hD (target_attribute_inj hname hname' ▸ hF)
          · refine hall name hname e (mem_collect_of_retains hkeep hw hw' ?_ he)
            rintro x ⟨-, ht⟩
            exact marker_ne E ht rfl
        · exact hall' E hE name hname

private theorem retitle_keeps (hw : d.WellFormed) (c : Catalog) (l : Locale) :
    (retitle c l d).document.WellFormed ∧
      Retains (fun _ _ => False) d (retitle c l d).document ∧
      Named c l (retitle c l d).document := by
  have hcon : d.isContainer title := by
    obtain ⟨el, hk⟩ := isElement_iff.mp (hw.element title (by simp))
    exact isContainer_iff.mpr ⟨_, hk, rfl⟩
  unfold retitle
  dsimp only
  split
  · rename_i h
    exact ⟨hw, .refl _ d, h⟩
  · refine ⟨(hw.setText title _).1, hw.retains_setText title _, ?_⟩
    have ht : (setTitle (c.lookupMessage l titleKey (some d.titleText)) d).document.titleText =
        c.lookupMessage l titleKey (some d.titleText) := hw.textContent_setText hcon _
    unfold Named
    rw [ht]
    exact lookupMessage_fallback c l titleKey _

-- After a pass the page has its name, and all directives for attributes hold.
theorem pass_keeps (hw : d.WellFormed) (c : Catalog) (l : Locale) (root : NodeId) :
    let after := (pass c l root d).document
    after.WellFormed ∧
      (∀ D name, D.target = .attribute name → ∀ e ∈ D.collect after root, Holds c l after D e) ∧
      (root = Document.root ∨ root = Document.body → Named c l after) := by
  have hnd : Directive.all.Nodup := by decide
  obtain ⟨hw', -, hattr⟩ := each_applyDirective_keeps hw c l root hnd
  rw [pass_eq, bind_document (succeeds_each (succeeds_applyDirective c l root) _)]
  by_cases hroot : root = Document.root ∨ root = Document.body
  · rw [if_pos hroot]
    obtain ⟨hw'', hkeep, hnamed⟩ := retitle_keeps hw' c l
    refine ⟨hw'', fun D name hD => ?_, fun _ => hnamed⟩
    exact holds_all_retains hkeep hw' hw'' hD (fun _ h => h) (fun _ h => h)
      (hattr D (mem_all D) name hD)
  · rw [if_neg hroot]
    exact ⟨hw', fun D name hD => hattr D (mem_all D) name hD, fun h => absurd h hroot⟩

-- A second pass is silent exactly when the first one left every text as its directives want it.
-- Where two directives want different texts of one element, or the text of an element changes
-- with that of one below it, the last to write wins and the next pass starts over.
theorem second_pass_silent_iff {h : Chronicle} (hr : Chronicle.Recorded h) (c : Catalog)
    (l : Locale) (root : NodeId) :
    let after := (pass c l root h.document).document
    (pass c l root after).changes = [] ↔
      ∀ D, D.target = .textContent → ∀ e ∈ D.collect after root, ∀ v,
        resolve c l after D e = some v → after.textContent e = v := by
  intro after
  obtain ⟨hw, hattr, hnamed⟩ := pass_keeps (Chronicle.sound_of_recorded hr).wellFormed c l root
  rw [changes_pass_eq_nil_iff hw]
  constructor
  · intro hall D hD e he v hv
    have hheld := hall.1 D e he v hv
    rwa [hD] at hheld
  · intro htext
    refine ⟨fun D e he => ?_, hnamed⟩
    rcases hD : D.target with _ | name
    · intro v hv
      rw [hD]
      exact htext D hD e he v hv
    · exact hattr D name hD e he

-- A language indicator that shows the right text already, with another one below it that does not.
def nestedIndicators : Chronicle :=
  [Operation.createElement "span", .appendChild body ⟨5, 0⟩,
    .setAttribute ⟨5, 0⟩ Directive.languageIndicator.marker "",
    .createText "EN", .appendChild ⟨5, 0⟩ ⟨6, 0⟩,
    .createElement "b", .appendChild ⟨5, 0⟩ ⟨7, 0⟩,
    .setAttribute ⟨7, 0⟩ Directive.languageIndicator.marker ""].foldl
      Chronicle.after Chronicle.start

theorem recorded_nestedIndicators : Chronicle.Recorded nestedIndicators :=
  .foldl .start (by decide +kernel)

theorem second_pass_nestedIndicators : Chronicle.Recorded nestedIndicators ∧
    ((pass Catalog.empty .en Document.root
        (pass Catalog.empty .en Document.root nestedIndicators.document).document).changes = [] ↔
      ∀ D, D.target = .textContent →
        ∀ e ∈ D.collect (pass Catalog.empty .en Document.root nestedIndicators.document).document
          Document.root, ∀ v,
        resolve Catalog.empty .en
          (pass Catalog.empty .en Document.root nestedIndicators.document).document D e = some v →
        (pass Catalog.empty .en Document.root nestedIndicators.document).document.textContent e =
          v) :=
  ⟨recorded_nestedIndicators,
    second_pass_silent_iff recorded_nestedIndicators Catalog.empty .en Document.root⟩

-- The second pass puts the outer indicator right again, and the inner one is gone.
theorem second_pass_not_silent :
    ¬∀ h, Chronicle.Recorded h → ∀ c l root,
      (pass c l root (pass c l root h.document).document).changes = [] := by
  intro hall
  have hnil := hall nestedIndicators recorded_nestedIndicators Catalog.empty .en Document.root
  have hone : (pass Catalog.empty .en Document.root (pass Catalog.empty .en Document.root
      nestedIndicators.document).document).changes.length = 1 := by decide +kernel
  simp [hnil] at hone

end Pass

end PageLocalizer.Translation
