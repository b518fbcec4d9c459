import PageLocalizer.Proofs.Catalog.Lookup
import PageLocalizer.Proofs.Fluent.Rendering

-- A template of texts and references is its pattern with all parameters put in at once.
namespace PageLocalizer

namespace Fluent

-- What a template says a parameter is, by the last attribute of that name.
def default? (m : Message) (name : String) : Option String :=
  (m.attributes.findRev? (·.name = name)).bind fun a => literal? a.value

-- What is given goes before what the template says.
def supply (m : Message) (params : Params) (name : String) : String :=
  (params.lookup name).getD ((default? m name).getD "")

-- The pattern mixes text with references to parameters that the template has defaults for.
structure Fillable (m : Message) (p : Pattern) : Prop where
  plain : ∀ segment ∈ p, segment.isPlain = true
  few : (parameters p).length ≤ 100
  declared : ∀ n ∈ parameters p, (default? m n).isSome

instance (m : Message) (p : Pattern) : Decidable (Fillable m p) :=
  decidable_of_iff (_ ∧ _ ∧ _) ⟨fun h => ⟨h.1, h.2.1, h.2.2⟩, fun h => ⟨h.1, h.2, h.3⟩⟩

end Fluent

namespace Catalog

open Fluent

variable {c : Catalog} {l : Locale} {key n text : String} {params : Params} {b : Bundle}
  {m : Message} {p : Pattern}

-- A template of exactly that locale: an entry with a pattern of its own.
def ownTemplate? (c : Catalog) (l : Locale) (key : String) : Option (Message × Pattern) := do
  let entries ← c.get? l
  let m ← entries.templates.message? key
  let p ← m.value
  some (m, p)

theorem template?_eq_none_iff (params : Params) :
    c.template? l key params = none ↔ c.ownTemplate? l key = none := by
  simp only [ownTemplate?, template?, Option.bind_eq_bind, Option.bind_eq_none_iff,
    reduceCtorEq]

private theorem lookup_map_attributes (attributes : List Attribute) (n : String)
    (f : Attribute → String) :
    (attributes.map fun a => (a.name, f a)).lookup n =
      (attributes.find? (·.name = n)).map f := by
  induction attributes with
  | nil => rfl
  | cons a rest ih =>
      by_cases ha : a.name = n
      · simp [ha]
      · have hb : (n == a.name) = false := by simpa using Ne.symm ha
        rw [List.map_cons, List.lookup_cons, hb, List.find?_cons_of_neg (by simpa using ha)]
        exact ih

private theorem lookup_templateDefaults (b : Bundle) (h : default? m n = some text) :
    (templateDefaults b m).lookup n = some text := by
  simp only [default?, Option.bind_eq_some_iff, List.findRev?_eq_find?_reverse] at h
  obtain ⟨a, ha, hliteral⟩ := h
  calc (templateDefaults b m).lookup n
    _ = (m.attributes.reverse.find? (·.name = n)).map fun a => (b.format [] a.value).text := by
        rw [templateDefaults, Table.lookup_ofList, ← List.map_reverse, lookup_map_attributes]
    _ = some (b.format [] a.value).text := by rw [ha, Option.map_some]
    _ = some text := by rw [Bundle.format_literal? b [] hliteral]

-- Arguments come from the caller, and from the template where the caller gives none.
private theorem lookup_filled (b : Bundle) (hf : Fillable m p) (hnd : (params.map Prod.fst).Nodup)
    (hn : n ∈ parameters p) :
    (Table.ofList (templateDefaults b m ++ params)).lookup n = some (supply m params n) := by
  obtain ⟨text, htext⟩ := Option.isSome_iff_exists.mp (hf.declared n hn)
  have hdefaults : ((templateDefaults b m).map Prod.fst).Nodup := Table.nodup_ofList _
  calc (Table.ofList (templateDefaults b m ++ params)).lookup n
    _ = (params.lookup n).or ((templateDefaults b m).lookup n) := by
        rw [Table.lookup_ofList_append, Table.lookup_ofList_of_nodup hnd,
          Table.lookup_ofList_of_nodup hdefaults]
    _ = (params.lookup n).or (some text) := by rw [lookup_templateDefaults b htext]
    _ = some (supply m params n) := by
        rw [supply, htext]
        cases params.lookup n <;> rfl

theorem template?_of_some (h : c.ownTemplate? l key = some (m, p)) (hf : Fillable m p)
    (hnd : (params.map Prod.fst).Nodup) :
    c.template? l key params = some (substitute (supply m params) p) := by
  simp only [ownTemplate?, Option.bind_eq_bind, Option.bind_eq_some_iff, Option.some.injEq,
    Prod.mk.injEq] at h
  obtain ⟨entries, he, m, hm, p, hp, rfl, rfl⟩ := h
  simp only [template?, he, hm, hp, Option.bind_eq_bind, Option.bind_some]
  rw [Bundle.format_substitute hf.plain hf.few fun n hn => lookup_filled _ hf hnd hn]

theorem lookupTemplate_of_fillable (h : Finds (c.ownTemplate? · key) l (m, p))
    (hf : Fillable m p) (hnd : (params.map Prod.fst).Nodup) :
    c.lookupTemplate l key params = substitute (supply m params) p :=
  lookupTemplate_of_finds (h.map (fun _ => (template?_eq_none_iff params).mpr)
    fun _ h => template?_of_some h hf hnd)

private theorem lookupTemplate_of_absent (h : ∀ entry, ¬Finds (c.ownTemplate? · key) l entry)
    (params : Params) : c.lookupTemplate l key params = "" := by
  have hsome {other : Locale} {text : String} (ht : c.template? other key params = some text) :
      ∃ entry, c.ownTemplate? other key = some entry := by
    rw [← Option.ne_none_iff_exists', ne_eq, ← template?_eq_none_iff params, ht]
    simp
  refine lookupTemplate_of_not_finds fun text hfinds => ?_
  cases hfinds with
  | own ht =>
      obtain ⟨entry, he⟩ := hsome ht
      exact h entry (.own he)
  | english hn ht =>
      obtain ⟨entry, he⟩ := hsome ht
      exact h entry (.english ((template?_eq_none_iff params).mp hn) he)

-- A template of the locale, or else of English, is filled in with what is given and with its own
-- defaults. What it does not use and the order of what is given do not matter.
theorem lookupTemplate_substitutes (c : Catalog) (l : Locale) (key : String) :
    (∀ m p, Finds (c.ownTemplate? · key) l (m, p) → Fillable m p →
      ∀ params : Params, (params.map Prod.fst).Nodup →
        c.lookupTemplate l key params = substitute (supply m params) p ∧
        (∀ other : Params, (other.map Prod.fst).Nodup →
          (∀ n ∈ parameters p, other.lookup n = params.lookup n) →
            c.lookupTemplate l key other = c.lookupTemplate l key params) ∧
        ∀ other : Params, other.Perm params →
          c.lookupTemplate l key other = c.lookupTemplate l key params) ∧
    ((∀ entry, ¬Finds (c.ownTemplate? · key) l entry) →
      ∀ params, c.lookupTemplate l key params = "") := by
  refine ⟨fun m p h hf params hnd => ?_, lookupTemplate_of_absent⟩
  have hsame (other : Params) (hother : (other.map Prod.fst).Nodup)
      (hl : ∀ n ∈ parameters p, other.lookup n = params.lookup n) :
      c.lookupTemplate l key other = c.lookupTemplate l key params := by
    rw [lookupTemplate_of_fillable h hf hother, lookupTemplate_of_fillable h hf hnd]
    exact substitute_congr fun n hn => by rw [supply, hl n hn, supply]
  refine ⟨lookupTemplate_of_fillable h hf hnd, hsame, fun other hp => ?_⟩
  have hother : (other.map Prod.fst).Nodup := (hp.map Prod.fst).nodup_iff.mpr hnd
  exact hsame other hother fun n _ => Table.lookup_perm hother hp n

def route : Message where
  name := "route"
  value := some [.text "From ", .placeable (.inline (.parameter "start")), .text " to ",
    .placeable (.inline (.parameter "end"))]
  attributes := [⟨"start", [.text "here"]⟩, ⟨"end", [.text "there"]⟩]

-- Chinese has the name, but not the template.
def routes : Catalog where
  en := some ⟨⟨.en, []⟩, ⟨.en, [.message route]⟩⟩
  zh := some ⟨⟨.zh, []⟩, ⟨.zh, [.message { route with value := none }]⟩⟩

theorem lookupTemplate_substitutes_routes :
    routes.lookupTemplate .zh "route" [("start", "\x7b $end \x7d"), ("via", "Rome")] =
      "From \x7b $end \x7d to there" := by
  have hfinds : Finds (routes.ownTemplate? · "route") .zh (route, route.value.getD []) :=
    .english rfl rfl
  have h := ((lookupTemplate_substitutes routes .zh "route").1 _ _ hfinds (by decide)
    [("start", "\x7b $end \x7d"), ("via", "Rome")] (by decide)).1
  exact h.trans (by decide)

end Catalog
end PageLocalizer
