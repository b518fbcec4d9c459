import PageLocalizer.Proofs.Catalog.Sources
import PageLocalizer.Proofs.Catalog.Templates

-- What the report of missing keys says of the sources that a catalog is read from, and of lookups.
namespace PageLocalizer.Catalog

open Fluent

variable {c : Catalog} {l : Locale} {sources : List CatalogSource} {kind : CatalogKind}
  {key : String} {b : Bundle} {m : Message}

-- A message that the sources have for a key, and the bundle that it stands in.
structure Defines (sources : List CatalogSource) (l : Locale) (kind : CatalogKind) (key : String)
    (b : Bundle) (m : Message) : Prop where
  source : bundle? sources l kind = some b
  mem : .message m ∈ b.entries
  name : m.name = key

-- A message needs a pattern, and a literal one needs everything in it resolved.
def Resolves (b : Bundle) (kind : CatalogKind) (m : Message) : Prop :=
  ∃ p, m.value = some p ∧ (kind = .message → (b.format [] p).complete = true)

-- A lookup without any fallback. Templates are given no parameters.
def lookup? (c : Catalog) (l : Locale) (kind : CatalogKind) (key : String) : Option String :=
  match kind with
  | .message => c.message? l key
  | .template => c.template? l key []

section Entries

theorem mem_messageNames_iff :
    key ∈ messageNames b ↔ ∃ m, .message m ∈ b.entries ∧ m.name = key := by
  rw [messageNames, List.mem_filterMap]
  constructor
  · rintro ⟨e, he, hname⟩
    cases e with
    | term t => simp at hname
    | message m => exact ⟨m, he, Option.some.inj hname⟩
  · rintro ⟨m, hm, rfl⟩
    exact ⟨_, hm, rfl⟩

theorem mem_keys_iff : key ∈ c.keys l kind ↔
    ∃ loaded, c.get? l = some loaded ∧ key ∈ messageNames (loaded.bundle kind) := by
  unfold keys
  split
  · next hget => simp [hget]
  · next loaded hget =>
    rw [sorted, List.mem_mergeSort]
    cases kind <;> simp [hget, LocaleCatalog.bundle]

theorem isSome_lookup?_iff : (c.lookup? l kind key).isSome ↔
    ∃ loaded m, c.get? l = some loaded ∧ (loaded.bundle kind).message? key = some m ∧
      Resolves (loaded.bundle kind) kind m := by
  cases kind with
  | message =>
      simp only [lookup?, message?, Option.isSome_iff_exists, Option.bind_eq_bind,
        Option.bind_eq_some_iff, Option.ite_none_right_eq_some]
      constructor
      · rintro ⟨text, loaded, hget, m, hm, p, hp, hcomplete, -⟩
        exact ⟨loaded, m, hget, hm, p, hp, fun _ => hcomplete⟩
      · rintro ⟨loaded, m, hget, hm, p, hp, hcomplete⟩
        exact ⟨_, loaded, hget, m, hm, p, hp, hcomplete rfl, rfl⟩
  | template =>
      simp only [lookup?, template?, Option.isSome_iff_exists, Option.bind_eq_bind,
        Option.bind_eq_some_iff]
      constructor
      · rintro ⟨text, loaded, hget, m, hm, p, hp, -⟩
        exact ⟨loaded, m, hget, hm, p, hp, by simp⟩
      · rintro ⟨loaded, m, hget, hm, p, hp, -⟩
        exact ⟨_, loaded, hget, m, hm, p, hp, rfl⟩

theorem defines_iff (h : ofSources sources = .ok c) : Defines sources l kind key b m ↔
    ∃ loaded, c.get? l = some loaded ∧ loaded.bundle kind = b ∧
      .message m ∈ b.entries ∧ m.name = key := by
  have hbundle := bundle?_eq h l kind
  constructor
  · rintro ⟨hsource, hm, hname⟩
    obtain ⟨loaded, hget, hb⟩ := Option.map_eq_some_iff.mp (hbundle.symm.trans hsource)
    exact ⟨loaded, hget, hb, hm, hname⟩
  · rintro ⟨loaded, hget, rfl, hm, hname⟩
    exact ⟨by rw [hbundle, hget, Option.map_some], hm, hname⟩

theorem mem_keys_iff_defines (h : ofSources sources = .ok c) :
    key ∈ c.keys l kind ↔ ∃ b m, Defines sources l kind key b m := by
  simp only [mem_keys_iff, mem_messageNames_iff, defines_iff h]
  constructor
  · rintro ⟨loaded, hget, m, hm⟩
    exact ⟨_, m, loaded, hget, rfl, hm⟩
  · rintro ⟨_, m, loaded, hget, rfl, hm⟩
    exact ⟨loaded, hget, m, hm⟩

theorem isSome_lookup?_iff_defines (h : ofSources sources = .ok c) :
    (c.lookup? l kind key).isSome ↔
      ∃ b m, Defines sources l kind key b m ∧ Resolves b kind m := by
  simp only [isSome_lookup?_iff, defines_iff h]
  constructor
  · rintro ⟨loaded, m, hget, hm, hr⟩
    exact ⟨_, m, ⟨loaded, hget, rfl, Bundle.mem_of_message? hm⟩, hr⟩
  · rintro ⟨_, m, ⟨loaded, hget, rfl, hm⟩, hr⟩
    have hnd := nodup_of_get? h hget kind
    exact ⟨loaded, m, hget, (Bundle.message?_eq_some_iff hnd).mpr hm, hr⟩

end Entries

section Report

-- Entries of a report go by locale, then by catalog, then by key.
inductive MissingKey.Before : MissingKey → MissingKey → Prop where
  | locale {kind kind' : CatalogKind} {key key' : String} :
      Before ⟨.en, kind, key⟩ ⟨.zh, kind', key'⟩
  | kind {l : Locale} {key key' : String} : Before ⟨l, .message, key⟩ ⟨l, .template, key'⟩
  | key {l : Locale} {kind : CatalogKind} {key key' : String} :
      key < key' → Before ⟨l, kind, key⟩ ⟨l, kind, key'⟩

theorem mem_missingKeys_iff : ⟨l, kind, key⟩ ∈ c.missingKeys ↔
    l ∈ c.loaded ∧ key ∉ c.keys l kind ∧ ∃ l' ∈ c.loaded, key ∈ c.keys l' kind := by
  have hall : kind ∈ CatalogKind.all := by cases kind <;> decide
  simp only [missingKeys, sorted, List.mem_flatMap, List.mem_map, List.mem_filter,
    List.mem_eraseDups, List.mem_mergeSort, MissingKey.mk.injEq, decide_eq_true_eq]
  constructor
  · rintro ⟨l, hl, kind, -, key, ⟨hkey, hmissing⟩, rfl, rfl, rfl⟩
    exact ⟨hl, hmissing, hkey⟩
  · rintro ⟨hl, hmissing, hkey⟩
    exact ⟨l, hl, kind, hall, key, ⟨hkey, hmissing⟩, rfl, rfl, rfl⟩

theorem pairwise_eraseDups : (names : List String) → names.Pairwise (· ≤ ·) →
    names.eraseDups.Pairwise (· < ·)
  | [], _ => List.Pairwise.nil
  | name :: rest, h => by
      rw [List.pairwise_cons] at h
      rw [List.eraseDups_cons, List.pairwise_cons]
      refine ⟨fun other ho => ?_, pairwise_eraseDups _ (h.2.filter _)⟩
      obtain ⟨hm, hne⟩ := List.mem_filter.mp (List.mem_eraseDups.mp ho)
      exact Std.lt_of_le_of_ne (h.1 other hm) fun he => by simp [he] at hne
termination_by names => names.length
decreasing_by exact Nat.lt_succ_of_le (List.length_filter_le ..)

private theorem pairwise_sorted (names : List String) : (sorted names).Pairwise (· ≤ ·) := by
  have htrans (a b c : String) (hab : decide (a ≤ b) = true) (hbc : decide (b ≤ c) = true) :
      decide (a ≤ c) = true := by
    simp only [decide_eq_true_eq] at hab hbc ⊢
    exact String.le_trans hab hbc
  have htotal (a b : String) : (decide (a ≤ b) || decide (b ≤ a)) = true := by
    simpa using String.le_total a b
  simpa [sorted] using List.pairwise_mergeSort htrans htotal names

private theorem pairwise_missingKeys (c : Catalog) : c.missingKeys.Pairwise MissingKey.Before := by
  have hlocales : c.loaded.Pairwise fun l l' => l = .en ∧ l' = .zh :=
    List.Pairwise.filter _ (by decide)
  have hkinds : CatalogKind.all.Pairwise fun kind kind' => kind = .message ∧ kind' = .template := by
    decide
  refine List.pairwise_flatMap.mpr
    ⟨fun l _ => List.pairwise_flatMap.mpr ⟨fun kind _ => ?_, ?_⟩, ?_⟩
  · rw [List.pairwise_map]
    exact ((pairwise_eraseDups _ (pairwise_sorted _)).filter _).imp .key
  · refine hkinds.imp fun {kind kind'} ⟨hk, hk'⟩ x hx y hy => ?_
    obtain ⟨key, -, rfl⟩ := List.mem_map.mp hx
    obtain ⟨key', -, rfl⟩ := List.mem_map.mp hy
    subst hk hk'
    exact .kind
  · refine hlocales.imp fun {l l'} ⟨hl, hl'⟩ x hx y hy => ?_
    obtain ⟨kind, -, hx⟩ := List.mem_flatMap.mp hx
    obtain ⟨key, -, rfl⟩ := List.mem_map.mp hx
    obtain ⟨kind', -, hy⟩ := List.mem_flatMap.mp hy
    obtain ⟨key', -, rfl⟩ := List.mem_map.mp hy
    subst hl hl'
    exact .locale

end Report

section Parity

-- The locale answers for itself, and no lookup of the key falls back.
def Answers (c : Catalog) (l : Locale) (key : String) : CatalogKind → Prop
  | .message => ∃ text, c.message? l key = some text ∧
      ∀ fallback, c.lookupMessage l key fallback = text
  | .template => ∀ params, ∃ text, c.template? l key params = some text ∧
      c.lookupTemplate l key params = text

private theorem answers_of_isSome (h : (c.lookup? l kind key).isSome) : c.Answers l key kind := by
  cases kind with
  | message =>
      obtain ⟨text, htext⟩ := Option.isSome_iff_exists.mp h
      exact ⟨text, htext, lookupMessage_of_finds (.own htext)⟩
  | template =>
      intro params
      have hsome : (c.template? l key params).isSome := by
        have hbare : (c.template? l key []).isSome := h
        rw [Option.isSome_iff_ne_none, ne_eq, template?_eq_none_iff] at hbare ⊢
        exact hbare
      obtain ⟨text, htext⟩ := Option.isSome_iff_exists.mp hsome
      exact ⟨text, htext, lookupTemplate_of_finds (.own htext)⟩

-- What the report says of the sources, and of lookups. Messages that have attributes only or refer
-- to nothing are reckoned as keys, but have no value to show.
structure Parity (sources : List CatalogSource) (c : Catalog) : Prop where
  loaded : ∀ l, l ∈ c.loaded ↔ ∃ s ∈ sources, s.locale = l
  listed : ∀ l kind key, key ∈ c.keys l kind ↔ ∃ b m, Defines sources l kind key b m
  reported : ∀ l kind key, ⟨l, kind, key⟩ ∈ c.missingKeys ↔
    l ∈ c.loaded ∧ (¬∃ b m, Defines sources l kind key b m) ∧
      ∃ l' ∈ c.loaded, ∃ b m, Defines sources l' kind key b m
  resolved : ∀ l kind key, (c.lookup? l kind key).isSome ↔
    ∃ b m, Defines sources l kind key b m ∧ Resolves b kind m
  faithful : ∀ l ∈ c.loaded, ∀ kind key,
    (∀ l' ∈ c.loaded, ∀ b m, Defines sources l' kind key b m → Resolves b kind m) →
      (⟨l, kind, key⟩ ∈ c.missingKeys ↔
        c.lookup? l kind key = none ∧ ∃ l' ∈ c.loaded, (c.lookup? l' kind key).isSome)
  ascending : c.missingKeys.Pairwise MissingKey.Before
  complete : c.missingKeys = [] → ∀ l ∈ c.loaded, ∀ kind, ∀ key ∈ c.keys l kind,
    ∀ l' ∈ c.loaded, key ∈ c.keys l' kind ∧
      ((∀ b m, Defines sources l' kind key b m → Resolves b kind m) → c.Answers l' key kind)

theorem parity_of_ofSources (h : ofSources sources = .ok c) : Parity sources c := by
  have hresolves {l : Locale} {kind : CatalogKind} {key : String}
      (hr : ∀ b m, Defines sources l kind key b m → Resolves b kind m) :
      (c.lookup? l kind key).isSome ↔ key ∈ c.keys l kind := by
    rw [isSome_lookup?_iff_defines h, mem_keys_iff_defines h]
    exact ⟨fun ⟨b, m, hd, _⟩ => ⟨b, m, hd⟩, fun ⟨b, m, hd⟩ => ⟨b, m, hd, hr b m hd⟩⟩
  refine ⟨fun l => mem_loaded_iff h, fun l kind key => mem_keys_iff_defines h,
    fun l kind key => ?_, fun l kind key => isSome_lookup?_iff_defines h,
    fun l hl kind key hr => ?_, pairwise_missingKeys c, fun hempty l hl kind key hkey l' hl' => ?_⟩
  · simp only [mem_missingKeys_iff, mem_keys_iff_defines h]
  · have hothers : (∃ l' ∈ c.loaded, (c.lookup? l' kind key).isSome) ↔
        ∃ l' ∈ c.loaded, key ∈ c.keys l' kind :=
      exists_congr fun l' => and_congr_right fun hl' => hresolves (hr l' hl')
    rw [mem_missingKeys_iff, hothers, ← Option.not_isSome_iff_eq_none, hresolves (hr l hl)]
    exact ⟨fun ⟨_, hm, ho⟩ => ⟨hm, ho⟩, fun ⟨hm, ho⟩ => ⟨hl, hm, ho⟩⟩
  · have hthere : key ∈ c.keys l' kind := by
      by_contra hno
      have hm : ⟨l', kind, key⟩ ∈ c.missingKeys := mem_missingKeys_iff.mpr ⟨hl', hno, l, hl, hkey⟩
      simp [hempty] at hm
    exact ⟨hthere, fun hr => answers_of_isSome ((hresolves hr).mpr hthere)⟩

-- The first of the Chinese sources does not count.
def revised : List CatalogSource :=
  [⟨.zh, "a = X\n", ""⟩, ⟨.en, "a = A\n", ""⟩, ⟨.zh, "", "b = B\n"⟩]

def revisedCatalog : Catalog where
  en := some ⟨⟨.en, [.message ⟨"a", some [.text "A"], []⟩]⟩, ⟨.en, []⟩⟩
  zh := some ⟨⟨.zh, []⟩, ⟨.zh, [.message ⟨"b", some [.text "B"], []⟩]⟩⟩

private theorem ofSources_revised : ofSources revised = .ok revisedCatalog := by
  have hfirst : readSource .zh .message "a = X\n" =
      .ok ⟨.zh, [.message ⟨"a", some [.text "X"], []⟩]⟩ := readSource_eq (by decide +kernel) rfl
  have hen : readSource .en .message "a = A\n" =
      .ok ⟨.en, [.message ⟨"a", some [.text "A"], []⟩]⟩ := readSource_eq (by decide +kernel) rfl
  have hzh : readSource .zh .template "b = B\n" =
      .ok ⟨.zh, [.message ⟨"b", some [.text "B"], []⟩]⟩ := readSource_eq (by decide +kernel) rfl
  simp only [ofSources, revised, List.foldlM_cons, List.foldlM_nil,
    readLocale_eq hfirst (readSource_blank ..), readLocale_eq hen (readSource_blank ..),
    readLocale_eq (readSource_blank ..) hzh]
  rfl

theorem parity_of_ofSources_revised : Parity revised revisedCatalog ∧
    revisedCatalog.missingKeys = [⟨.en, .template, "b"⟩, ⟨.zh, .message, "a"⟩] := by
  refine ⟨parity_of_ofSources ofSources_revised, ?_⟩
  simp [missingKeys, loaded, keys, sorted, Locale.all, CatalogKind.all, get?, messageNames,
    revisedCatalog, List.eraseDups_cons]

-- Chinese has both keys, but no text for either of them.
def mute : List CatalogSource :=
  [⟨.en, "a = A\nb = B\n", ""⟩, ⟨.zh, "a =\n    .x = y\nb = \x7b c \x7d\n", ""⟩]

def muteCatalog : Catalog where
  en := some ⟨⟨.en, [.message ⟨"a", some [.text "A"], []⟩, .message ⟨"b", some [.text "B"], []⟩]⟩,
    ⟨.en, []⟩⟩
  zh := some ⟨⟨.zh, [.message ⟨"a", none, [⟨"x", [.text "y"]⟩]⟩,
    .message ⟨"b", some [.placeable (.inline (.message "c" none))], []⟩]⟩, ⟨.zh, []⟩⟩

private theorem ofSources_mute : ofSources mute = .ok muteCatalog := by
  have hen : readSource .en .message "a = A\nb = B\n" =
      .ok ⟨.en, [.message ⟨"a", some [.text "A"], []⟩, .message ⟨"b", some [.text "B"], []⟩]⟩ :=
    readSource_eq (by decide +kernel) (by decide)
  have hzh : readSource .zh .message "a =\n    .x = y\nb = \x7b c \x7d\n" =
      .ok ⟨.zh, [.message ⟨"a", none, [⟨"x", [.text "y"]⟩]⟩,
        .message ⟨"b", some [.placeable (.inline (.message "c" none))], []⟩]⟩ :=
    readSource_eq (by decide +kernel) (by decide)
  simp only [ofSources, mute, List.foldlM_cons, List.foldlM_nil,
    readLocale_eq hen (readSource_blank ..), readLocale_eq hzh (readSource_blank ..)]
  rfl

-- Nothing is reported, but Chinese has nothing to show and falls back to English.
theorem missingKeys_mute : ofSources mute = .ok muteCatalog ∧ muteCatalog.missingKeys = [] ∧
    ∀ key ∈ ["a", "b"], key ∈ muteCatalog.keys .zh .message ∧
      ¬(⟨.zh, .message, key⟩ ∈ muteCatalog.missingKeys ↔
        muteCatalog.lookup? .zh .message key = none ∧
          ∃ l' ∈ muteCatalog.loaded, (muteCatalog.lookup? l' .message key).isSome) ∧
      muteCatalog.lookupMessage .zh key none ≠ "" := by
  have hkeys (l : Locale) (kind : CatalogKind) (key : String) :
      key ∈ muteCatalog.keys l kind ↔ kind = .message ∧ key ∈ ["a", "b"] := by
    cases l <;> cases kind <;>
      simp [mem_keys_iff, muteCatalog, get?, LocaleCatalog.bundle, messageNames, eq_comm]
  have hempty : muteCatalog.missingKeys = [] := by
    refine List.eq_nil_iff_forall_not_mem.mpr fun ⟨l, kind, key⟩ hm => ?_
    obtain ⟨-, hno, l', -, hkey⟩ := mem_missingKeys_iff.mp hm
    exact hno ((hkeys ..).mpr ((hkeys ..).mp hkey))
  have hlookups : ∀ key ∈ ["a", "b"], muteCatalog.lookup? .zh .message key = none ∧
      (muteCatalog.lookup? .en .message key).isSome ∧
      muteCatalog.lookupMessage .zh key none ≠ "" := by decide +kernel
  refine ⟨ofSources_mute, hempty, fun key hkey => ?_⟩
  obtain ⟨hzh, hen, hne⟩ := hlookups key hkey
  refine ⟨(hkeys ..).mpr ⟨rfl, hkey⟩, fun hiff => ?_, hne⟩
  have hm := hiff.mpr ⟨hzh, .en, by decide, hen⟩
  simp [hempty] at hm

end Parity
end PageLocalizer.Catalog
