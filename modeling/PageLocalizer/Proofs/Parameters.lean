import PageLocalizer.Directive
import PageLocalizer.Proofs.Document.Distinct

-- What a template is given by its element: the `data-*` attributes, each under a name of its own.
namespace PageLocalizer.Dataset

-- Attribute names as pages have them, without ASCII upper-case letters.
def Lowered (name : String) : Prop := ∀ c ∈ name.toList, c.isUpper = false

def dashed (c : Char) : List Char := if c.isUpper then ['-', c.toLower] else [c]

-- The way back: a dash and the lower-case letter for each ASCII upper-case letter.
def suffixOf (name : String) : String := String.ofList (name.toList.flatMap dashed)

variable {s t name : String} {cs : List Char}

private theorem dashed_of_not_isUpper {c : Char} (h : c.isUpper = false) : dashed c = [c] := by
  simp [dashed, h]

private theorem dashed_toUpper {c : Char} (h : isAsciiLower c = true) :
    dashed c.toUpper = ['-', c] := by
  have hletters : ∀ n ∈ List.range' 97 26, dashed (Char.ofNat n).toUpper = ['-', Char.ofNat n] := by
    decide
  simp only [isAsciiLower, Bool.and_eq_true, decide_eq_true_eq, Char.le_def,
    UInt32.le_iff_toNat_le, Char.reduceVal, UInt32.reduceToNat] at h
  have hn : c.toNat ∈ List.range' 97 26 := by
    rw [List.mem_range'_1]
    change 97 ≤ c.val.toNat ∧ c.val.toNat < 97 + 26
    omega
  simpa using hletters c.toNat hn

private theorem flatMap_dashed_keyChars (h : ∀ c ∈ cs, c.isUpper = false) :
    (keyChars cs).flatMap dashed = cs := by
  induction cs using keyChars.induct with
  | case1 c rest hc ih =>
      -- The dash went, and comes back with the letter.
      rw [keyChars, if_pos hc, List.flatMap_cons, dashed_toUpper hc, ih (by simp_all)]
      rfl
  | case2 c rest hc ih =>
      rw [keyChars, if_neg hc, List.flatMap_cons, ih (by simp_all)]
      rfl
  | case3 c rest hother ih =>
      rw [keyChars, List.flatMap_cons, dashed_of_not_isUpper (h c (by simp)), ih (by simp_all)]
      · rfl
      · exact hother
  | case4 => rfl

theorem suffixOf_key (h : Lowered s) : suffixOf (key s) = s := by
  simp [suffixOf, key, flatMap_dashed_keyChars h]

theorem key_injective (hs : Lowered s) (ht : Lowered t) (h : key s = key t) : s = t := by
  rw [← suffixOf_key hs, h, suffixOf_key ht]

theorem suffix?_eq_some_iff : suffix? name = some s ↔ name = "data-" ++ s := by
  unfold suffix?
  constructor
  · intro h
    split at h
    · next rest hrest =>
      rw [← String.toList_inj, hrest, ← Option.some.inj h]
      simp
    · simp at h
  · rintro rfl
    simp

theorem Lowered.suffix (h : Lowered name) (hs : suffix? name = some s) : Lowered s := by
  rw [suffix?_eq_some_iff] at hs
  subst hs
  exact fun c hc => h c (by simp [hc])

end PageLocalizer.Dataset

namespace PageLocalizer

open Dataset

section Markers

variable {s : String}

theorem Directive.marker_eq (directive : Directive) :
    directive.marker = "data-" ++ suffixOf directive.datasetName := by
  cases directive <;> decide

theorem Directive.key_suffixOf (directive : Directive) :
    key (suffixOf directive.datasetName) = directive.datasetName := by
  cases directive <;> decide

-- Dataset names of markers are not mixed up with those of other attributes.
theorem Directive.isMarker_key_iff (h : Lowered s) :
    isMarker (key s) = true ↔ "data-" ++ s ∈ all.map marker := by
  have hall (directive : Directive) :
      directive.datasetName = key s ↔ directive.marker = "data-" ++ s := by
    constructor
    · intro he
      rw [marker_eq, he, suffixOf_key h]
    · intro he
      rw [marker_eq, String.append_right_inj] at he
      rw [← he, key_suffixOf]
  simp [isMarker, hall]

end Markers

namespace Document

variable {d : Document} {id : NodeId}

-- What an attribute hands to the template of its element: its value, unless it is a marker or no
-- `data-*` attribute at all.
def handed? (a : String × String) : Option (String × String) :=
  if a.1 ∈ Directive.all.map Directive.marker then none
  else (suffix? a.1).map fun s => (key s, a.2)

theorem handed?_eq_some_iff {a : String × String} {name value : String} :
    handed? a = some (name, value) ↔
      ∃ s, a = ("data-" ++ s, value) ∧ "data-" ++ s ∉ Directive.all.map Directive.marker ∧
        key s = name := by
  obtain ⟨full, v⟩ := a
  by_cases hm : full ∈ Directive.all.map Directive.marker
  · simp only [handed?, hm, if_true, reduceCtorEq, false_iff]
    rintro ⟨s, he, hn, -⟩
    exact hn ((Prod.mk.inj he).1 ▸ hm)
  · simp only [handed?, hm, if_false, Option.map_eq_some_iff, suffix?_eq_some_iff, Prod.mk.injEq]
    constructor
    · rintro ⟨s, rfl, rfl, rfl⟩
      exact ⟨s, ⟨rfl, rfl⟩, hm, rfl⟩
    · rintro ⟨s, ⟨rfl, rfl⟩, -, rfl⟩
      exact ⟨s, rfl, rfl, rfl⟩

private theorem filter_dataset (h : ∀ a ∈ d.attributes id, Lowered a.1) :
    ((d.dataset id).filter fun (name, _) => !Directive.isMarker name) =
      (d.attributes id).filterMap handed? := by
  rw [dataset, ofAttributes, List.filter_filterMap]
  refine List.filterMap_congr fun a ha => ?_
  cases hs : suffix? a.1 with
  | none => simp [handed?, hs]
  | some s =>
    have hname : a.1 = "data-" ++ s := suffix?_eq_some_iff.mp hs
    have hmarker := Directive.isMarker_key_iff ((h a ha).suffix hs)
    by_cases hm : a.1 ∈ Directive.all.map Directive.marker
    · simp [handed?, hm, hs, hmarker.mpr (hname ▸ hm)]
    · have hkey : Directive.isMarker (key s) = false := by
        rw [← Bool.not_eq_true, hmarker, ← hname]
        exact hm
      simp [handed?, hm, hs, hkey]

theorem nodup_handed (hd : d.Distinct) (h : ∀ a ∈ d.attributes id, Lowered a.1) :
    (((d.attributes id).filterMap handed?).map Prod.fst).Nodup := by
  rw [List.Nodup, List.pairwise_map, List.pairwise_filterMap]
  have hnames := List.pairwise_map.mp (hd.attributes_nodup id)
  refine hnames.imp_of_mem fun {a b} ha hb hab => ?_
  rintro ⟨name, value⟩ hna ⟨other, value'⟩ hnb (rfl : name = other)
  obtain ⟨s, rfl, -, hs⟩ := handed?_eq_some_iff.mp hna
  obtain ⟨t, rfl, -, ht⟩ := handed?_eq_some_iff.mp hnb
  have hls := (h _ ha).suffix (suffix?_eq_some_iff.mpr rfl)
  have hlt := (h _ hb).suffix (suffix?_eq_some_iff.mpr rfl)
  exact hab (by rw [key_injective hls hlt (hs.trans ht.symm)])

theorem templateParams_perm (hd : d.Distinct) (h : ∀ a ∈ d.attributes id, Lowered a.1) :
    (d.templateParams id).Perm ((d.attributes id).filterMap handed?) := by
  rw [templateParams, filter_dataset h]
  exact Table.ofList_perm (nodup_handed hd h)

-- The parameters of a template are the `data-*` attributes of its element that are no markers, one
-- to one.
theorem templateParams_exact :
    (∀ s, Lowered s → suffixOf (key s) = s) ∧
    (∀ s t, Lowered s → Lowered t → key s = key t → s = t) ∧
    ∀ (ops : List Operation) (id : NodeId),
      (∀ a ∈ (empty.after ops).attributes id, Lowered a.1) →
        (((empty.after ops).templateParams id).map Prod.fst).Nodup ∧
        ((empty.after ops).templateParams id).Perm
          (((empty.after ops).attributes id).filterMap handed?) ∧
        ∀ name value, (name, value) ∈ (empty.after ops).templateParams id ↔
          ∃ s, ("data-" ++ s, value) ∈ (empty.after ops).attributes id ∧
            "data-" ++ s ∉ Directive.all.map Directive.marker ∧ key s = name := by
  refine ⟨fun s => suffixOf_key, fun s t => key_injective, fun ops id h => ?_⟩
  have hd := distinct_after ops
  have hperm := templateParams_perm hd h
  refine ⟨(hperm.map Prod.fst).nodup_iff.mpr (nodup_handed hd h), hperm, fun name value => ?_⟩
  rw [hperm.mem_iff, List.mem_filterMap]
  constructor
  · rintro ⟨a, ha, hh⟩
    obtain ⟨s, rfl, hm, rfl⟩ := handed?_eq_some_iff.mp hh
    exact ⟨s, ha, hm, rfl⟩
  · rintro ⟨s, ha, hm, rfl⟩
    exact ⟨_, ha, handed?_eq_some_iff.mpr ⟨s, rfl, hm, rfl⟩⟩

-- An element with a marker, a name that only begins like one, and dashes in unusual places.
def dashes : List Operation := [
  .createElement "p",
  .setAttribute ⟨5, 0⟩ "class" "note",
  .setAttribute ⟨5, 0⟩ "data-i18n-template" "page_of",
  .setAttribute ⟨5, 0⟩ "data-i18n-templates" "a",
  .setAttribute ⟨5, 0⟩ "data-total-pages" "b",
  .setAttribute ⟨5, 0⟩ "data-total--pages-" "c",
  .setAttribute ⟨5, 0⟩ "data--1-é" "d",
  .setAttribute ⟨5, 0⟩ "data-" "e"]

theorem templateParams_exact_dashes :
    (∀ a ∈ (empty.after dashes).attributes ⟨5, 0⟩, Lowered a.1) ∧
    ((empty.after dashes).templateParams ⟨5, 0⟩).Perm
      [("i18nTemplates", "a"), ("totalPages", "b"), ("total-Pages-", "c"), ("-1-é", "d"),
        ("", "e")] := by
  have hattributes : (empty.after dashes).attributes ⟨5, 0⟩ =
      [("class", "note"), ("data-i18n-template", "page_of"), ("data-i18n-templates", "a"),
        ("data-total-pages", "b"), ("data-total--pages-", "c"), ("data--1-é", "d"),
        ("data-", "e")] := rfl
  have h : ∀ a ∈ (empty.after dashes).attributes ⟨5, 0⟩, Lowered a.1 := by
    simp [hattributes, Lowered]
  have hhanded : ((empty.after dashes).attributes ⟨5, 0⟩).filterMap handed? =
      [("i18nTemplates", "a"), ("totalPages", "b"), ("total-Pages-", "c"), ("-1-é", "d"),
        ("", "e")] := by
    rw [hattributes]
    decide +kernel
  exact ⟨h, hhanded ▸ (templateParams_exact.2.2 dashes ⟨5, 0⟩ h).2.1⟩

end Document
end PageLocalizer
