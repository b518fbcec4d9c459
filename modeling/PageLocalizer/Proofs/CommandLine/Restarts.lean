import PageLocalizer.Proofs.CommandLine.Work
import PageLocalizer.Proofs.Preferences

-- What a run leaves for the next one: the locale that it went by.
namespace PageLocalizer.CommandLine

open Document Session

section Runs

variable {args : List String} {flags : Flags} {m : Surroundings} {key : String}
  {file first : FileState} {l : Locale}

-- The locale of a run: the first that is given by the arguments, the settings, the preferences and
-- the environment.
def chosen (flags : Flags) (m : Surroundings) : Locale :=
  let stored := (Store.file m.preferences).found? m.effective.engine.storageKey
  Locale.ofTag? (((flags.language.or m.effective.language).or (stored.filter (· ≠ ""))).or
    (SystemLocale.detect? m.environment))

-- A run shows its page, which says its language, and the preferences keep the locale.
structure Speaks (l : Locale) (key : String) (r : Report) : Prop where
  exit : r.exit = 0
  output : ∃ attributes rest, r.output =
      String.ofList (Markup.doctype ++ Markup.openTag ⟨"html", attributes⟩ ++ rest) ∧
    attributes.lookup "lang" = some l.languageTag
  kept : (Store.file r.preferences).get key = .ok (some l.tag)

-- A run that finds a preference file and a place for it, looks under the same key, and says nothing
-- of the language itself.
structure Resumes (key : String) (file : FileState) (args : List String) (m : Surroundings) :
    Prop where
  request : ∃ flags, request args = .ok (.render flags) ∧ flags.language = none ∧
    (preferencesPath? m.environment flags).isSome
  language : m.effective.language = none
  key : m.effective.engine.storageKey = key
  preferences : m.preferences = file

-- The preference file after a number of such runs.
inductive Left (key : String) (first : FileState) : FileState → Prop where
  | first : Left key first first
  | resume {file : FileState} {args : List String} {m : Surroundings} :
      Left key first file → Resumes key file args m → Left key first (run args m).preferences

private theorem destination_eq (flags : Flags) (m : Surroundings) :
    destination (.file m.preferences) (SystemLocale.detect? m.environment)
      m.effective.engine.storageKey (flags.language.or m.effective.language) = chosen flags m := by
  unfold destination chosen
  dsimp only
  cases flags.language.or m.effective.language with
  | some tag => simp [Locale.ofTag?]
  | none => simp [Store.detect_eq]

private theorem upkept_opening (flags : Flags) (m : Surroundings) : Upkept (· = empty)
    (opening flags m).1 (· = openStore flags m) (opening flags m).2 := by
  refine ⟨rfl, rfl, ?_⟩
  show ((((opening flags m).2.stores).lookup (opening flags m).1).getD _) = _
  unfold opening Session.addStore
  dsimp only
  rw [Table.lookup_set_self]
  rfl

-- One run.
theorem speaks_render (hpath : (preferencesPath? m.environment flags).isSome)
    (hfile : Store.Writable m.preferences)
    (hkey : m.effective.engine.storageKey ≠ UpdateCheck.standard.key) :
    Speaks (chosen flags m) m.effective.engine.storageKey (render flags m) ∧
      Store.Writable (render flags m).preferences := by
  obtain ⟨path, hpath⟩ := Option.isSome_iff_exists.mp hpath
  have hopen : openStore flags m = .file m.preferences := by rw [openStore, hpath]
  have hset := Store.records_set hfile m.effective.engine.storageKey (chosen flags m).tag
  obtain ⟨way, hpage⟩ := achieves_page flags m m.effective (opening flags m).1
    (destination_eq flags m) hset fun stored hs value => hs.set hkey value
  obtain ⟨text, s, hrun, hs, htext⟩ := hpage (opening flags m).2 (hopen ▸ upkept_opening flags m)
  obtain ⟨state, hstate, hwritable, hget⟩ := hs.kept
  have hrender : render flags m = ⟨0, text ++ "\n", "", state⟩ := by
    rw [render, hrun, conclude, hstate, fileOf]
  obtain ⟨attributes, rest, hmarkup, hlang⟩ := hs.page.outerHtml
  rw [hrender]
  refine ⟨⟨rfl, ⟨attributes, rest ++ ['\n'], ?_, hlang⟩, ?_⟩, hwritable⟩
  · show text ++ "\n" = _
    have hend : "\n" = String.ofList ['\n'] := rfl
    rw [htext, hmarkup, hend, ← String.ofList_append, List.append_assoc]
  · show (Store.file state).get _ = _
    rw [← hstate]
    exact hget

-- A locale that was kept is chosen again where nothing else is said.
theorem Resumes.chosen {file : FileState} (h : Resumes key file args m)
    (hkept : (Store.file file).get key = .ok (some l.tag)) :
    ∃ flags, run args m = render flags m ∧ (preferencesPath? m.environment flags).isSome ∧
      CommandLine.chosen flags m = l := by
  obtain ⟨flags, hrequest, hnone, hpath⟩ := h.request
  refine ⟨flags, by rw [run, hrequest], hpath, ?_⟩
  unfold CommandLine.chosen
  rw [h.preferences, h.key, Store.found?_of_get hkept, hnone, h.language]
  cases l <;> rfl

theorem Resumes.speaks (h : Resumes key file args m) (hfile : Store.Writable file)
    (hkey : key ≠ UpdateCheck.standard.key)
    (hkept : (Store.file file).get key = .ok (some l.tag)) :
    Speaks l key (run args m) ∧ Store.Writable (run args m).preferences := by
  obtain ⟨flags, hrun, hpath, hchosen⟩ := h.chosen hkept
  have hspeaks := speaks_render hpath (h.preferences.symm ▸ hfile) (h.key.symm ▸ hkey)
  rw [h.key, hchosen] at hspeaks
  rwa [hrun]

theorem Left.kept (h : Left key first file) (hkey : key ≠ UpdateCheck.standard.key)
    (hfirst : Store.Writable first ∧ (Store.file first).get key = .ok (some l.tag)) :
    Store.Writable file ∧ (Store.file file).get key = .ok (some l.tag) := by
  induction h with
  | first => exact hfirst
  | resume _ hresumes ih =>
      obtain ⟨hspeaks, hwritable⟩ := hresumes.speaks ih.1 hkey ih.2
      exact ⟨hwritable, hspeaks.kept⟩

-- A run goes by the chosen locale, and so do all later ones until somebody chooses again.
theorem run_speaks_on (hargs : request args = .ok (.render flags))
    (hpath : (preferencesPath? m.environment flags).isSome) (hfile : Store.Writable m.preferences)
    (hkey : m.effective.engine.storageKey ≠ UpdateCheck.standard.key) :
    Speaks (chosen flags m) m.effective.engine.storageKey (run args m) ∧
      ∀ file, Left m.effective.engine.storageKey (run args m).preferences file →
        ∀ args' m', Resumes m.effective.engine.storageKey file args' m' →
          Speaks (chosen flags m) m.effective.engine.storageKey (run args' m') := by
  have hrun : run args m = render flags m := by rw [run, hargs]
  obtain ⟨hspeaks, hwritable⟩ := speaks_render hpath hfile hkey
  rw [hrun]
  refine ⟨hspeaks, fun file hleft args' m' hresumes => ?_⟩
  obtain ⟨hwritable', hkept⟩ := hleft.kept hkey ⟨hwritable, hspeaks.kept⟩
  exact (hresumes.speaks hwritable' hkey hkept).1

-- Settings and preferences that nobody can read, where English is spoken.
def neglected : Surroundings where
  environment name := [("HOME", "/root"), ("LANG", "en_US.UTF-8")].lookup name
  settings := .text "[engine"
  preferences := .text "dashboard-locale = "
  now := ⟨1700000000, ⟨0, by decide⟩⟩

theorem effective_neglected : neglected.effective = .standard := by decide +kernel

private theorem resumes_neglected (file : FileState) :
    Resumes "dashboard-locale" file [] { neglected with preferences := file } where
  request := by
    have hpath : (preferencesPath? neglected.environment ⟨none, none, none, none⟩).isSome := by
      decide
    exact ⟨⟨none, none, none, none⟩, by decide, rfl, hpath⟩
  language := congrArg Settings.language effective_neglected
  key := congrArg (·.engine.storageKey) effective_neglected
  preferences := rfl

theorem run_speaks_on_neglected :
    let first := run ["--lang", "zh-TW", "--latest", "v9.9.9"] neglected
    let second := run [] { neglected with preferences := first.preferences }
    Speaks .zh "dashboard-locale" first ∧ Speaks .zh "dashboard-locale" second := by
  have hargs : request ["--lang", "zh-TW", "--latest", "v9.9.9"] =
      .ok (.render ⟨some "zh-TW", none, none, some "v9.9.9"⟩) := by decide
  have hkey : neglected.effective.engine.storageKey = "dashboard-locale" :=
    congrArg (·.engine.storageKey) effective_neglected
  have hchosen : chosen ⟨some "zh-TW", none, none, some "v9.9.9"⟩ neglected = .zh := by
    decide +kernel
  have hspeaks := run_speaks_on (m := neglected) hargs (by decide)
    (by simp [neglected, Store.Writable]) (by rw [hkey]; decide)
  rw [hchosen, hkey] at hspeaks
  exact ⟨hspeaks.1, hspeaks.2 _ .first _ _ (resumes_neglected _)⟩

end Runs
end PageLocalizer.CommandLine
