import Mathlib.Data.List.Nodup
import PageLocalizer.Catalog.Basic
import PageLocalizer.Proofs.Fluent.Sameness

-- What a catalog holds of the sources that it is read from.
namespace PageLocalizer

open Fluent

def CatalogSource.text (s : CatalogSource) : CatalogKind → String
  | .message => s.messages
  | .template => s.templates

def LocaleCatalog.bundle (e : LocaleCatalog) : CatalogKind → Bundle
  | .message => e.messages
  | .template => e.templates

namespace Fluent

variable {b : Bundle} {m : Message} {name : String}

theorem Bundle.mem_of_message? (h : b.message? name = some m) :
    .message m ∈ b.entries ∧ m.name = name := by
  obtain ⟨e, he, hm⟩ := List.exists_of_findSome?_eq_some h
  cases e with
  | term t => simp at hm
  | message m' =>
      simp only [Option.ite_none_right_eq_some, Option.some.injEq] at hm
      obtain ⟨hname, rfl⟩ := hm
      exact ⟨he, hname⟩

-- Where no name comes twice, a message is found by its name.
theorem Bundle.message?_eq_some_iff (hnd : (b.entries.map Entry.name).Nodup) :
    b.message? name = some m ↔ .message m ∈ b.entries ∧ m.name = name := by
  refine ⟨mem_of_message?, fun ⟨hm, hname⟩ => ?_⟩
  have hsome : (b.message? name).isSome := by
    rw [message?, List.findSome?_isSome_iff]
    exact ⟨_, hm, by simp [hname]⟩
  obtain ⟨other, hother⟩ := Option.isSome_iff_exists.mp hsome
  obtain ⟨ho, hn⟩ := mem_of_message? hother
  have he := List.inj_on_of_nodup_map hnd ho hm (hn.trans hname.symm)
  rw [hother, Entry.message.inj he]

end Fluent

namespace Catalog

variable {c c' : Catalog} {l : Locale} {s : CatalogSource} {sources : List CatalogSource}
  {loaded : LocaleCatalog} {kind : CatalogKind} {b b' : Bundle} {seen : List String}
  {entries : List Entry}

-- The source that counts for a locale is the last one given for it.
def sourceOf? (sources : List CatalogSource) (l : Locale) : Option CatalogSource :=
  sources.reverse.find? (·.locale = l)

-- What the sources say in one catalog of a locale.
def bundle? (sources : List CatalogSource) (l : Locale) (kind : CatalogKind) : Option Bundle := do
  let s ← sourceOf? sources l
  let entries ← parse (s.text kind)
  some ⟨l, entries⟩

section Reading

theorem readSource_eq {source : String} (h : parse source = some entries)
    (hd : duplicates entries = []) : readSource l kind source = .ok ⟨l, entries⟩ := by
  simp [readSource, h, hd]

theorem readSource_blank (l : Locale) (kind : CatalogKind) :
    readSource l kind "" = .ok ⟨l, []⟩ :=
  readSource_eq (by decide +kernel) rfl

theorem readLocale_eq {messages templates : String}
    (hm : readSource l .message messages = .ok b) (ht : readSource l .template templates = .ok b') :
    readLocale ⟨l, messages, templates⟩ = .ok ⟨b, b'⟩ := by
  rw [readLocale, hm, ht]
  rfl

theorem sourceOf?_cons (s : CatalogSource) (rest : List CatalogSource) (l : Locale) :
    sourceOf? (s :: rest) l = (sourceOf? rest l).or (if s.locale = l then some s else none) := by
  by_cases hl : s.locale = l <;> simp [sourceOf?, List.find?_append, hl]

theorem isSome_sourceOf?_iff :
    (sourceOf? sources l).isSome ↔ ∃ s ∈ sources, s.locale = l := by
  simp [sourceOf?]

private theorem locale_of_sourceOf? (h : sourceOf? sources l = some s) : s.locale = l := by
  simpa using List.find?_some h

theorem nodup_of_duplicatesAfter (h : duplicatesAfter seen entries = []) :
    (entries.map Entry.name).Nodup ∧ ∀ e ∈ entries, e.name ∉ seen := by
  induction entries generalizing seen with
  | nil => simp
  | cons e rest ih =>
      by_cases he : e.name ∈ seen
      · simp [duplicatesAfter, he] at h
      · simp only [duplicatesAfter, he, if_false] at h
        obtain ⟨hnd, hnew⟩ := ih h
        refine ⟨?_, ?_⟩
        · rw [List.map_cons, List.nodup_cons, List.mem_map]
          exact ⟨fun ⟨other, ho, hn⟩ => hnew other ho (by simp [hn]), hnd⟩
        · rintro other (_ | ⟨_, ho⟩)
          · exact he
          · exact fun hs => hnew other ho (List.mem_cons_of_mem _ hs)

theorem readSource_ok {source : String} (h : readSource l kind source = .ok b) :
    ∃ entries, parse source = some entries ∧ (entries.map Entry.name).Nodup ∧
      b = ⟨l, entries⟩ := by
  unfold readSource at h
  split at h
  · cases h
  · next entries hparse =>
    split at h
    · next hd =>
      obtain rfl := Except.ok.inj h
      exact ⟨entries, hparse, (nodup_of_duplicatesAfter hd).1, rfl⟩
    · cases h

theorem readLocale_ok (h : readLocale s = .ok loaded) (kind : CatalogKind) :
    readSource s.locale kind (s.text kind) = .ok (loaded.bundle kind) := by
  unfold readLocale at h
  cases hm : readSource s.locale .message s.messages with
  | error e =>
      rw [hm] at h
      cases h
  | ok messages =>
      cases ht : readSource s.locale .template s.templates with
      | error e =>
          rw [hm, ht] at h
          cases h
      | ok templates =>
          rw [hm, ht] at h
          cases h
          cases kind
          · exact hm
          · exact ht

private theorem get?_set (c : Catalog) (l l' : Locale) (loaded : LocaleCatalog) :
    (c.set l loaded).get? l' = if l = l' then some loaded else c.get? l' := by
  cases l <;> cases l' <;> rfl

private theorem get?_foldlM
    (h : sources.foldlM (fun c s => do pure (c.set s.locale (← readLocale s))) c = .ok c')
    (l : Locale) :
    (∃ s loaded, sourceOf? sources l = some s ∧ readLocale s = .ok loaded ∧
      c'.get? l = some loaded) ∨
    (sourceOf? sources l = none ∧ c'.get? l = c.get? l) := by
  induction sources generalizing c with
  | nil =>
      obtain rfl : c = c' := Except.ok.inj h
      exact .inr ⟨rfl, rfl⟩
  | cons s rest ih =>
      simp only [List.foldlM_cons] at h
      cases hread : readLocale s with
      | error e =>
          rw [hread] at h
          cases h
      | ok loaded =>
          rw [hread] at h
          rcases ih (c := c.set s.locale loaded) h with ⟨s', loaded', hs, hr, hget⟩ | ⟨hs, hget⟩
          · exact .inl ⟨s', loaded', by simp [sourceOf?_cons, hs], hr, hget⟩
          · rw [get?_set] at hget
            by_cases hl : s.locale = l
            · rw [if_pos hl] at hget
              exact .inl ⟨s, loaded, by simp [sourceOf?_cons, hs, hl], hread, hget⟩
            · rw [if_neg hl] at hget
              exact .inr ⟨by simp [sourceOf?_cons, hs, hl], hget⟩

-- A locale is loaded from the source that counts for it, and not at all without one.
theorem get?_ofSources (h : ofSources sources = .ok c) (l : Locale) :
    (∃ s loaded, sourceOf? sources l = some s ∧ readLocale s = .ok loaded ∧
      c.get? l = some loaded) ∨
    (sourceOf? sources l = none ∧ c.get? l = none) := by
  have hempty : empty.get? l = none := by cases l <;> rfl
  have hget := get?_foldlM h l
  rwa [hempty] at hget

theorem bundle?_eq (h : ofSources sources = .ok c) (l : Locale) (kind : CatalogKind) :
    bundle? sources l kind = (c.get? l).map (·.bundle kind) := by
  rcases get?_ofSources h l with ⟨s, loaded, hs, hread, hget⟩ | ⟨hs, hget⟩
  · obtain ⟨entries, hparse, -, hb⟩ := readSource_ok (readLocale_ok hread kind)
    simp [bundle?, hs, hparse, hget, hb, locale_of_sourceOf? hs]
  · simp [bundle?, hs, hget]

theorem nodup_of_get? (h : ofSources sources = .ok c) (hget : c.get? l = some loaded)
    (kind : CatalogKind) : ((loaded.bundle kind).entries.map Entry.name).Nodup := by
  rcases get?_ofSources h l with ⟨s, loaded', -, hread, hget'⟩ | ⟨-, hget'⟩
  · obtain rfl : loaded' = loaded := Option.some.inj (hget'.symm.trans hget)
    obtain ⟨entries, -, hnd, hb⟩ := readSource_ok (readLocale_ok hread kind)
    rwa [hb]
  · cases hget'.symm.trans hget

theorem mem_loaded_iff (h : ofSources sources = .ok c) :
    l ∈ c.loaded ↔ ∃ s ∈ sources, s.locale = l := by
  have hall : l ∈ Locale.all := by cases l <;> decide
  rw [← isSome_sourceOf?_iff, Catalog.loaded, List.mem_filter]
  rcases get?_ofSources h l with ⟨s, loaded, hs, -, hget⟩ | ⟨hs, hget⟩
  · simp [hs, hget, hall]
  · simp [hs, hget]

end Reading

end Catalog
end PageLocalizer
