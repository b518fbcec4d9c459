import PageLocalizer.Catalog.Basic

-- Lookups fall back to English, and only to English.
namespace PageLocalizer.Catalog

-- What the locale has, or else what English has.
inductive Finds (lookup : Locale → Option α) (l : Locale) (a : α) : Prop where
  | own : lookup l = some a → Finds lookup l a
  | english : lookup l = none → lookup .en = some a → Finds lookup l a

theorem orDefault_eq_some_iff {lookup : Locale → Option α} {l : Locale} {a : α} :
    orDefault l lookup = some a ↔ Finds lookup l a := by
  unfold orDefault
  constructor
  · intro h
    cases hl : lookup l with
    | some b =>
        rw [hl, Option.some_or] at h
        exact .own (hl.trans h)
    | none =>
        rw [hl, Option.none_or] at h
        split at h
        · simp at h
        · exact .english hl h
  · rintro (h | ⟨hl, h⟩)
    · rw [h, Option.some_or]
    · have hne : l ≠ Locale.default := by
        rintro rfl
        exact absurd (hl.symm.trans h) (by simp)
      rw [hl, Option.none_or, if_neg hne]
      exact h

theorem orDefault_eq_none {lookup : Locale → Option α} {l : Locale}
    (h : ∀ a, ¬Finds lookup l a) : orDefault l lookup = none :=
  Option.eq_none_iff_forall_ne_some.mpr fun a ha => h a (orDefault_eq_some_iff.mp ha)

theorem lookupMessage_of_finds {c : Catalog} {l : Locale} {key text : String}
    (h : Finds (c.message? · key) l text) (fallback : Option String) :
    c.lookupMessage l key fallback = text := by
  simp [lookupMessage, orDefault_eq_some_iff.mpr h]

theorem lookupMessage_of_not_finds {c : Catalog} {l : Locale} {key : String}
    (h : ∀ text, ¬Finds (c.message? · key) l text) (fallback : Option String) :
    c.lookupMessage l key fallback = fallback.getD "" := by
  simp [lookupMessage, orDefault_eq_none h]

theorem lookupTemplate_of_finds {c : Catalog} {l : Locale} {key text : String} {params : Params}
    (h : Finds (c.template? · key params) l text) : c.lookupTemplate l key params = text := by
  simp [lookupTemplate, orDefault_eq_some_iff.mpr h]

theorem lookupTemplate_of_not_finds {c : Catalog} {l : Locale} {key : String} {params : Params}
    (h : ∀ text, ¬Finds (c.template? · key params) l text) :
    c.lookupTemplate l key params = "" := by
  simp [lookupTemplate, orDefault_eq_none h]

theorem Finds.map {lookup : Locale → Option α} {answer : Locale → Option β} {l : Locale} {a : α}
    {b : β} (h : Finds lookup l a) (hnone : ∀ l, lookup l = none → answer l = none)
    (hsome : ∀ l, lookup l = some a → answer l = some b) : Finds answer l b := by
  cases h with
  | own h => exact .own (hsome l h)
  | english hn h => exact .english (hnone l hn) (hsome .en h)

end PageLocalizer.Catalog
