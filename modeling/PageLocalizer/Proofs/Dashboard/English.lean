import PageLocalizer.Proofs.Dashboard.Builders

-- The dashboard in English. Its builders and the catalogs have their texts each on their own, and
-- they agree: English finds nothing to write on a new page, and brings it back after any others.
namespace PageLocalizer.Dashboard

open Document Edit Translation Catalog

-- The page of the processes: the layout, the table in its main area, and a row for each process.
def processPage (options : LayoutOptions) (processes : List ProcessInfo) : Edit Unit := do
  let layout ← Layout.build options
  let table ← ProcessTable.build layout.main
  Edit.each processes (CommandLine.addRow table.table)

private theorem sown_processPage (options : LayoutOptions) (processes : List ProcessInfo) :
    ∃ d, Gives (processPage options processes) Document.empty () d ∧
      Sown builtIn "DietPi Dashboard" d := by
  obtain ⟨layout, built, hlayout, hbuilt⟩ := Layout.build_empty options
  have hrest : Grows (Grown builtIn "DietPi Dashboard") ([layout.main] ++ [body])
      (Edit.bind (ProcessTable.build layout.main) fun table =>
        Edit.each processes (CommandLine.addRow table.table)) fun _ => [] :=
    (ProcessTable.grows_build (by simp)).bind fun _ =>
      grows_each fun info _ => grows_addRow _ (by simp) info
  obtain ⟨done, d, hgives, -, hgrown⟩ := hrest built hbuilt
  exact ⟨d, hlayout.bind hgives, hgrown.sown⟩

-- Whatever the page is built from, it can be built, translating it to English tells of no change,
-- and translations to any locales that end with English leave it written as it was built.
theorem english_keeps_and_restores (options : LayoutOptions) (processes : List ProcessInfo) :
    ∃ c d, Catalog.standard = .ok c ∧
      Gives (processPage options processes) Document.empty () d ∧
      (pass c .en Document.root d).changes = [] ∧
      ∀ ls : List Locale, ((ls ++ [Locale.en]).foldl
        (fun d l => (pass c l Document.root d).document) d).outerHtml Document.root =
          d.outerHtml Document.root := by
  obtain ⟨d, hgives, hsown⟩ := sown_processPage options processes
  have hname : builtIn.Says titleKey "DietPi Dashboard" :=
    says_builtIn (by simp [englishTexts, titleKey])
  have hskip := hsown.skipped hname Document.root
  refine ⟨builtIn, d, standard_eq, hgives, ?_, hsown.restored hname Document.root⟩
  rw [hskip]

end PageLocalizer.Dashboard
