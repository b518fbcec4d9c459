import PageLocalizer.Document.Edit

-- Edits in sequence, and those that leave no trace.
namespace PageLocalizer.Edit

-- An edit that fails without a trace.
def Refused (edit : Edit Unit) (d : Document) : Prop := ∃ e, edit d = ⟨.error e, d, []⟩

-- An edit that succeeds without a trace. No observer hears of it.
def Skipped (edit : Edit Unit) (d : Document) : Prop := edit d = ⟨.ok (), d, []⟩

-- An edit that never fails.
def Succeeds (edit : Edit Unit) : Prop := ∀ d, (edit d).result = .ok ()

-- An edit that tells of whatever it does.
def Candid (edit : Edit Unit) (d : Document) : Prop := (edit d).changes = [] → Skipped edit d

variable {d : Document} {x y : Edit Unit} {f : β → Edit Unit} {bs : List β}

theorem Refused.result_ne (h : Refused x d) : (x d).result ≠ .ok () := by
  obtain ⟨e, he⟩ := h
  simp [he]

theorem succeeds_pure : Succeeds (Edit.pure ()) := fun _ => rfl

section Bind

variable (hx : Succeeds x)

include hx

theorem bind_document (d : Document) :
    (bind x (fun _ => y) d).document = (y (x d).document).document := by
  have h := hx d
  unfold bind
  cases he : x d with
  | mk result document changes =>
      rw [he] at h
      simp only at h
      subst h
      rfl

theorem bind_changes (d : Document) :
    (bind x (fun _ => y) d).changes = (x d).changes ++ (y (x d).document).changes := by
  have h := hx d
  unfold bind
  cases he : x d with
  | mk result document changes =>
      rw [he] at h
      simp only at h
      subst h
      rfl

theorem succeeds_bind (hy : Succeeds y) : Succeeds (bind x fun _ => y) := by
  intro d
  have h := hx d
  unfold bind
  cases he : x d with
  | mk result document changes =>
      rw [he] at h
      simp only at h
      subst h
      exact hy document

end Bind

-- The edit succeeds with the answer `a` and leaves the page `d'`.
def Gives (m : Edit α) (d : Document) (a : α) (d' : Document) : Prop :=
  (m d).result = .ok a ∧ (m d).document = d'

theorem Gives.bind {m : Edit α} {f : α → Edit β} {a : α} {b : β} {d' d'' : Document}
    (h : Gives m d a d') (hf : Gives (f a) d' b d'') : Gives (Edit.bind m f) d b d'' := by
  obtain ⟨hresult, rfl⟩ := h
  unfold Gives Edit.bind at *
  cases he : m d with
  | mk result document changes =>
      rw [he] at hresult hf
      simp only at hresult
      subst hresult
      exact hf

theorem Gives.bind_exists {m : Edit α} {f : α → Edit β} {a : α} {d' : Document}
    {P : β → Document → Prop} (h : Gives m d a d') (hf : ∃ b d'', Gives (f a) d' b d'' ∧ P b d'') :
    ∃ b d'', Gives (Edit.bind m f) d b d'' ∧ P b d'' := by
  obtain ⟨b, d'', hgives, hb⟩ := hf
  exact ⟨b, d'', h.bind hgives, hb⟩

theorem skipped_bind (hx : Skipped x d) (hy : Skipped y d) : Skipped (bind x fun _ => y) d := by
  unfold Skipped at hx hy ⊢
  simp [bind, hx, hy]

-- A sequence without changes is one of two edits without changes.
theorem bind_changes_eq_nil_iff (hx : Succeeds x) (hc : Candid x d) :
    (bind x (fun _ => y) d).changes = [] ↔ Skipped x d ∧ (y d).changes = [] := by
  rw [bind_changes hx, List.append_eq_nil_iff]
  constructor
  · rintro ⟨h, h'⟩
    have hs := hc h
    rw [Skipped] at hs
    exact ⟨hs, by simpa [hs] using h'⟩
  · rintro ⟨hs, h⟩
    rw [Skipped] at hs
    simp [hs, h]

theorem each_cons (b : β) (bs : List β) (f : β → Edit Unit) :
    each (b :: bs) f = bind (f b) fun _ => each bs f := rfl

theorem succeeds_each (hf : ∀ b, Succeeds (f b)) (bs : List β) : Succeeds (each bs f) := by
  induction bs with
  | nil => exact succeeds_pure
  | cons b bs ih => exact succeeds_bind (hf b) ih

-- What holds of a page at first and is kept by every edit of the sequence holds at the end.
theorem each_induction {P : Document → Prop} (hf : ∀ b, Succeeds (f b)) (h : P d)
    (hstep : ∀ b ∈ bs, ∀ d, P d → P (f b d).document) : P (each bs f d).document := by
  induction bs generalizing d with
  | nil => exact h
  | cons b bs ih =>
      rw [each_cons, bind_document (hf b)]
      exact ih (hstep b List.mem_cons_self d h) fun b' hb' =>
        hstep b' (List.mem_cons_of_mem _ hb')

theorem each_changes_eq_nil_iff (hf : ∀ b, Succeeds (f b)) (hc : ∀ b ∈ bs, Candid (f b) d) :
    (each bs f d).changes = [] ↔ ∀ b ∈ bs, Skipped (f b) d := by
  induction bs with
  | nil => simp [each, Edit.pure]
  | cons b bs ih =>
      have hrest : ∀ b ∈ bs, Candid (f b) d := fun b hb => hc b (List.mem_cons_of_mem _ hb)
      rw [each_cons, bind_changes_eq_nil_iff (hf b) (hc b (by simp)), ih hrest]
      simp

theorem skipped_each (h : ∀ b ∈ bs, Skipped (f b) d) : Skipped (each bs f) d := by
  induction bs with
  | nil => rfl
  | cons b bs ih =>
      exact skipped_bind (h b (by simp)) (ih fun b hb => h b (List.mem_cons_of_mem _ hb))

theorem candid_each (hf : ∀ b, Succeeds (f b)) (hc : ∀ b ∈ bs, Candid (f b) d) :
    Candid (each bs f) d := fun h => skipped_each ((each_changes_eq_nil_iff hf hc).mp h)

end PageLocalizer.Edit
