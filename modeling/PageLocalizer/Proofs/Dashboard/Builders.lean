import PageLocalizer.CommandLine
import PageLocalizer.Proofs.Translation.Growth

-- The builders of the dashboard, element by element: each makes elements that show in English what
-- the catalogs say.
namespace PageLocalizer.Dashboard

open Document Edit Translation Catalog

section Checks

variable {G : List NodeId → Document → Prop} [Soil builtIn G] {as : List (String × String)}
  {tag text key : String} {beds : List NodeId} {p : NodeId}

-- What there is to check of an element: its keys stand in the catalogs with what it shows.
structure Checked (as : List (String × String)) (text : String) : Prop where
  names : (as.map Prod.fst).Nodup
  single : (texting as).length ≤ 1
  message : ∀ D ∈ [Directive.text, .title, .ariaLabel, .placeholder], ∀ key,
    as.lookup D.marker = some key →
      ∃ label, (key, label) ∈ englishTexts ∧ shown? as text D.target = some label
  template : ∀ key, as.lookup Directive.template.marker = some key →
    Agrees builtIn as text .template key
  indicator : as.lookup Directive.languageIndicator.marker ≠ none → text = Locale.en.indicator

private theorem trim_key : ∀ entry ∈ englishTexts, Text.trim entry.1 = entry.1 ∧ entry.1 ≠ "" := by
  decide +kernel

theorem agrees_message {D : Directive} (hD : D ∈ [Directive.text, .title, .ariaLabel, .placeholder])
    (h : ∃ label, (key, label) ∈ englishTexts ∧ shown? as text D.target = some label) :
    Agrees builtIn as text D key := by
  obtain ⟨label, hm, hs⟩ := h
  obtain ⟨ht, hne⟩ := trim_key _ hm
  have hboth : Text.trim key ≠ "" ∧ ∃ label, shown? as text D.target = some label ∧
      builtIn.Says (Text.trim key) label := by
    rw [ht]
    exact ⟨hne, label, hs, says_builtIn hm⟩
  simp only [List.mem_cons, List.not_mem_nil, or_false] at hD
  rcases hD with rfl | rfl | rfl | rfl <;> exact hboth

theorem agrees_template (ht : Text.trim key = key ∧ key ≠ "")
    (h : builtIn.Renders key (paramsOf as) text) : Agrees builtIn as text .template key := by
  unfold Agrees
  rw [ht.1]
  exact ⟨ht.2, h⟩

theorem Checked.seeded (h : Checked as text) : Seeded builtIn as text where
  single := h.single
  agrees D key hk := by
    cases D with
    | template => exact h.template key hk
    | languageIndicator => exact h.indicator (by simp [hk])
    | text => exact agrees_message (by simp) (h.message .text (by simp) key hk)
    | title => exact agrees_message (by simp) (h.message .title (by simp) key hk)
    | ariaLabel => exact agrees_message (by simp) (h.message .ariaLabel (by simp) key hk)
    | placeholder => exact agrees_message (by simp) (h.message .placeholder (by simp) key hk)

-- The tags of the dashboard, all without capitals.
def tags : List String := ["svg", "use", "option", "header", "button", "label", "span", "select",
  "div", "ul", "li", "a", "nav", "footer", "h1", "main", "section", "h2", "input", "table", "tr",
  "th", "td", "p"]

theorem toLower_tag : ∀ tag ∈ tags, tag.toLower = tag := by
  decide +kernel

theorem grows_checked (hp : p ∈ beds) (htag : tag ∈ tags) (h : Checked as "")
    (hbare : texting as = []) : Grows G beds (element p tag as) fun x => [x] :=
  grows_element hp (toLower_tag tag htag) h.names h.seeded hbare

theorem grows_checkedText (hp : p ∈ beds) (htag : tag ∈ tags) (h : Checked as text) :
    Grows G beds (textElement p tag as text) fun _ => [] :=
  grows_textElement hp (toLower_tag tag htag) h.names h.seeded

end Checks

attribute [local simp] Directive.marker Directive.target List.lookup_cons shown? texting
  englishTexts tags

variable {G : List NodeId → Document → Prop} [Soil builtIn G] {beds : List NodeId} {p : NodeId}

-- A symbol beside a label has an element of its own.
theorem grows_icon (hp : p ∈ beds) (symbol : String) (size : Nat) :
    Grows G beds (icon p symbol size) fun _ => [] := by
  refine (grows_checked hp (by simp) (by constructor <;> simp) (by simp)).bind fun svg => ?_
  refine (grows_checked (by simp) (by simp) (by constructor <;> simp) (by simp)).bind fun _ => ?_
  exact grows_pure (List.nil_subset _)

namespace Layout

-- The selected backend is marked before its name is put in.
theorem grows_backendOption (hp : p ∈ beds) (selected : Option String) (b : Backend) :
    Grows G beds (backendOption p selected b) fun _ => [] := by
  refine grows_planted hp fun d hw ha ht => ?_
  have hn : ([("value", b.address)].map Prod.fst).Nodup := by simp
  obtain ⟨d', hgives, hplanted⟩ := planted_element hw ha ht (toLower_tag "option" (by simp)) hn
  by_cases hs : selected = some b.address
  · have hmark : Gives (setAttribute d.nextId "selected" "") d' () _ :=
      ⟨Planted.setAttribute_result d.nextId "selected" "" d', rfl⟩
    obtain ⟨d'', htext, hlabelled⟩ := (hplanted.setAttribute "selected" "").setText
      (b.name ++ " (" ++ b.address ++ ")")
    refine ⟨_, _, (), d'', hgives.bind ?_, hlabelled, Checked.seeded ?_⟩
    · rw [if_pos hs]
      exact hmark.bind htext
    · constructor <;> simp [setEntry]
  · have hnone : Gives (Edit.pure ()) d' () d' := ⟨rfl, rfl⟩
    obtain ⟨d'', htext, hlabelled⟩ := hplanted.setText (b.name ++ " (" ++ b.address ++ ")")
    refine ⟨_, _, (), d'', hgives.bind ?_, hlabelled, Checked.seeded ?_⟩
    · rw [if_neg hs]
      exact hnone.bind htext
    · constructor <;> simp

theorem grows_buildHeader (hp : p ∈ beds) (options : LayoutOptions) :
    Grows G beds (buildHeader p options) fun _ => [] := by
  refine (grows_checked hp (by simp) (by constructor <;> simp) (by simp)).bind fun header => ?_
  refine (grows_checked (by simp) (by simp) (by constructor <;> simp) (by simp)).bind
    fun toggle => ?_
  refine (grows_icon (by simp) _ _).bind fun _ => ?_
  refine (grows_checked (by simp) (by simp) (by constructor <;> simp) (by simp)).bind
    fun switch => ?_
  refine (grows_checkedText (by simp) (by simp) (by constructor <;> simp)).bind fun _ => ?_
  refine (grows_checked (by simp) (by simp) (by constructor <;> simp) (by simp)).bind
    fun select => ?_
  refine (grows_each fun b _ => grows_backendOption (by simp) _ b).bind fun _ => ?_
  refine (grows_checked (by simp) (by simp) (by constructor <;> simp) (by simp)).bind
    fun messages => ?_
  refine (grows_icon (by simp) _ _).bind fun _ => ?_
  refine (grows_checked (by simp) (by simp) (by constructor <;> simp) (by simp)).bind
    fun language => ?_
  refine (grows_checkedText (by simp) (by simp) (by constructor <;> simp [Locale.indicator])).bind
    fun _ => ?_
  refine (grows_checked (by simp) (by simp) (by constructor <;> simp) (by simp)).bind
    fun theme => ?_
  refine (grows_checked (by simp) (by simp) (by constructor <;> simp) (by simp)).bind
    fun themeButton => ?_
  refine (grows_icon (by simp) _ _).bind fun _ => ?_
  exact grows_pure (List.nil_subset _)

theorem checked_update (version : String) :
    Checked [("data-i18n-template", "dietpi_update"), ("data-version", version)]
      ("DietPi Update Available: " ++ version) where
  names := by simp
  single := by simp
  message := by simp
  template key hk := by
    obtain rfl : "dietpi_update" = key := by simpa using hk
    exact agrees_template (by decide +kernel) (renders_update version)
  indicator := by simp

theorem grows_buildMessages (hp : p ∈ beds) (options : LayoutOptions) :
    Grows G beds (buildMessages p options) fun _ => [] := by
  refine (grows_checked hp (by simp) (by constructor <;> simp) (by simp)).bind fun container => ?_
  refine (grows_checked (by simp) (by simp) (by constructor <;> simp) (by simp)).bind fun list => ?_
  refine (grows_checked (by simp) (by simp) (by constructor <;> simp) (by simp)).bind
    fun notice => ?_
  cases options.systemUpdate with
  | none => exact grows_pure (List.nil_subset _)
  | some version =>
      refine (grows_checkedText (by simp) (by simp) (checked_update version)).bind fun _ => ?_
      exact grows_pure (List.nil_subset _)

theorem checked_screen (screen : Screen) :
    Checked [("data-i18n", screen.messageKey)] screen.label := by
  cases screen <;> constructor <;> simp [Screen.messageKey, Screen.label]

theorem grows_navLink (hp : p ∈ beds) (current screen : Screen) :
    Grows G beds (navLink p current screen) fun _ => [] := by
  refine (grows_checked hp (by simp) (by constructor <;> simp) (by simp)).bind fun link => ?_
  refine (grows_icon (by simp) _ _).bind fun _ => ?_
  refine (grows_checkedText (by simp) (by simp) (checked_screen screen)).bind fun _ => ?_
  exact grows_pure (List.nil_subset _)

theorem grows_buildNav (hp : p ∈ beds) (current : Screen) :
    Grows G beds (buildNav p current) fun _ => [] := by
  refine (grows_checked hp (by simp) (by constructor <;> simp) (by simp)).bind fun nav => ?_
  refine (grows_each fun screen _ => grows_navLink (by simp) current screen).bind fun _ => ?_
  exact grows_pure (List.nil_subset _)

theorem checked_credit (version : String) :
    Checked [("data-i18n-template", "footer_credit"), ("data-version", version),
      ("data-author", "ravenclaw900")]
      ("DietPi Dashboard v" ++ version ++ " by ravenclaw900") where
  names := by simp
  single := by simp
  message := by simp
  template key hk := by
    obtain rfl : "footer_credit" = key := by simpa using hk
    have hr := renders_credit version "ravenclaw900"
    rw [String.append_assoc] at hr
    exact agrees_template (by decide +kernel) hr
  indicator := by simp

theorem grows_buildFooter (hp : p ∈ beds) (version : String) :
    Grows G beds (buildFooter p version) fun _ => [] := by
  refine (grows_checked hp (by simp) (by constructor <;> simp) (by simp)).bind fun footer => ?_
  refine (grows_checkedText (by simp) (by simp) (checked_credit version)).bind fun _ => ?_
  refine (grows_checked (by simp) (by simp) (by constructor <;> simp) (by simp)).bind fun link => ?_
  refine (grows_icon (by simp) _ _).bind fun _ => ?_
  exact grows_pure (List.nil_subset _)

theorem attributes_empty {x : NodeId} {e : Element}
    (h : Document.empty.kind? x = some (.element e)) : e.attributes = [] := by
  have hall : ∀ x ∈ [root, html, head, Document.title, body], ∀ e,
      Document.empty.kind? x = some (.element e) → e.attributes = [] := by
    intro x hx e he
    simp only [List.mem_cons, List.not_mem_nil, or_false] at hx
    rcases hx with rfl | rfl | rfl | rfl | rfl <;> cases he <;> rfl
  exact hall x (node?_empty (isSome_of_kind? h)) e h

theorem retexted_titled :
    Document.empty.Retexted Document.title "DietPi Dashboard"
      (setTitle "DietPi Dashboard" Document.empty).document := by
  have htext : Document.empty.HoldsText Document.title := by
    intro t ht
    simp [show Document.empty.children Document.title = [] from rfl] at ht
  exact wellFormed_empty.retexted_setText (by decide) htext "DietPi Dashboard"

theorem attributes_titled {x : NodeId} {e : Element}
    (h : (setTitle "DietPi Dashboard" Document.empty).document.kind? x = some (.element e)) :
    e.attributes = [] := by
  have hr := retexted_titled
  have hx : Document.empty.isContainer x = true :=
    (hr.isContainer x).symm.trans (isContainer_iff.mpr ⟨_, h, rfl⟩)
  exact attributes_empty ((hr.kind? x hx).symm.trans h)

theorem bed_titled : Bed (setTitle "DietPi Dashboard" Document.empty).document body where
  alive := by decide
  isText := by decide
  ne_title := by decide
  bare e he := by
    rw [attributes_titled he]
    simp

-- The page of a new document has no directives, so it agrees as soon as it has its name.
private theorem grown_titled : Grown builtIn "DietPi Dashboard" [body]
    (setTitle "DietPi Dashboard" Document.empty).document := by
  refine ⟨⟨retexted_titled.wellFormed, fun x e he => ?_, fun x e he hne => ?_, rfl, ?_⟩,
    fun p hp => ?_⟩
  · rw [attributes_titled he]
    exact Checked.seeded (by constructor <;> simp)
  · simp [attributes_titled he] at hne
  · exact .inr ⟨by simp, ⟨5, 0⟩, rfl, rfl⟩
  · rw [List.mem_singleton.mp hp]
    exact bed_titled

-- The layout of a new document, with its main area for what is to come.
theorem build_titled (options : LayoutOptions)
    (h : G [body] (setTitle "DietPi Dashboard" Document.empty).document) :
    ∃ layout d, Gives (build options) Document.empty layout d ∧ G ([layout.main] ++ [body]) d := by
  have htitled : Gives (setTitle "DietPi Dashboard") Document.empty () _ := ⟨rfl, rfl⟩
  refine htitled.bind_exists (Grows.gives ?_ h)
  refine (grows_checkedText (by simp) (by simp) (by constructor <;> simp)).bind fun heading => ?_
  refine (grows_buildHeader (by simp) options).bind fun header => ?_
  refine (grows_buildMessages (by simp) options).bind fun messages => ?_
  refine (grows_buildNav (by simp) options.screen).bind fun nav => ?_
  refine (grows_checked (by simp) (by simp) (by constructor <;> simp) (by simp)).bind
    fun overlay => ?_
  refine (grows_checked (by simp) (by simp) (by constructor <;> simp) (by simp)).bind
    fun main => ?_
  refine (grows_buildFooter (by simp) options.version).bind fun footer => ?_
  exact grows_pure (by simp)

theorem build_empty (options : LayoutOptions) : ∃ layout d,
    Gives (build options) Document.empty layout d ∧
      Grown builtIn "DietPi Dashboard" ([layout.main] ++ [body]) d :=
  build_titled options grown_titled

end Layout

namespace ProcessTable

theorem grows_headCell (hp : p ∈ beds) (column : String × String) (hc : column ∈ columns) :
    Grows G beds (headCell p column) fun _ => [] := by
  have hchecked : Checked [("data-i18n", column.1)] column.2 := by
    simp only [columns, List.mem_cons, List.not_mem_nil, or_false] at hc
    rcases hc with rfl | rfl | rfl | rfl | rfl | rfl <;> constructor <;> simp
  refine (grows_checkedText hp (by simp) hchecked).bind fun _ => ?_
  exact grows_pure (List.nil_subset _)

theorem checked_count : Checked [("data-i18n-template", "process_count"), ("data-count", "0")]
    "Processes: 0" where
  names := by simp
  single := by simp
  message := by simp
  template key hk := by
    obtain rfl : "process_count" = key := by simpa using hk
    exact agrees_template (by decide +kernel) (renders_count "0")
  indicator := by simp

theorem checked_page : Checked [("class", "pager"), ("data-i18n-template", "page_of"),
    ("data-page", "1"), ("data-total-pages", "1")] "Page 1 / 1" where
  names := by simp
  single := by simp
  message := by simp
  template key hk := by
    obtain rfl : "page_of" = key := by simpa using hk
    exact agrees_template (by decide +kernel) (renders_page "1" "1")
  indicator := by simp

theorem grows_columns (hp : p ∈ beds) :
    Grows G beds (Edit.each columns (headCell p)) fun _ => [] :=
  grows_each fun column hc => grows_headCell hp column hc

theorem grows_build (hp : p ∈ beds) :
    Grows G beds (build p) fun table => [table.table] := by
  refine (grows_checked hp (by simp) (by constructor <;> simp) (by simp)).bind fun container => ?_
  refine (grows_checkedText (by simp) (by simp) (by constructor <;> simp)).bind fun _ => ?_
  refine (grows_checked (by simp) (by simp) (by constructor <;> simp) (by simp)).bind fun _ => ?_
  refine (grows_checked (by simp) (by simp) (by constructor <;> simp) (by simp)).bind
    fun table => ?_
  refine (grows_checked (by simp) (by simp) (by constructor <;> simp) (by simp)).bind
    fun head => ?_
  refine (grows_columns (by simp)).bind fun _ => ?_
  refine (grows_checkedText (by simp) (by simp) checked_count).bind fun count => ?_
  refine (grows_checkedText (by simp) (by simp) checked_page).bind fun pager => ?_
  exact grows_pure (by simp)

end ProcessTable

namespace ProcessInfo

theorem checked_signal {s : Signal} {status : ProcessStatus} (hs : s ∈ Signal.offered status) :
    Checked [("data-signal", s.name), ("title", s.label), ("data-i18n-title", s.messageKey),
      ("aria-label", s.label), ("data-i18n-aria-label", s.messageKey)] "" := by
  have hall : s ∈ Signal.all := by
    simp only [Signal.offered, Signal.all, List.mem_cons, List.not_mem_nil, or_false] at hs ⊢
    rcases hs with rfl | rfl | rfl
    · simp
    · simp
    · split <;> simp
  simp only [Signal.all, List.mem_cons, List.not_mem_nil, or_false] at hall
  rcases hall with rfl | rfl | rfl | rfl <;> constructor <;>
    simp [Signal.kill, Signal.terminate, Signal.resume, Signal.pause]

theorem grows_signalButton (hp : p ∈ beds) {s : Signal} {status : ProcessStatus}
    (hs : s ∈ Signal.offered status) :
    Grows G beds (signalButton p s) fun _ => [] := by
  refine (grows_checked hp (by simp) (checked_signal hs) (by simp)).bind fun button => ?_
  exact grows_icon (by simp) _ _

theorem checked_status (status : ProcessStatus) :
    Checked [("class", "status-badge"), ("data-status", status.tag),
      ("data-i18n", status.messageKey)] status.label := by
  cases status <;> constructor <;> simp [ProcessStatus.messageKey, ProcessStatus.label]

variable (G beds) in
-- A row is made apart, and then its cells grow in it.
theorem growsTo_row (info : ProcessInfo) : ∃ cells,
    info.row = Edit.bind (createElement "tr") cells ∧
      ∀ row, GrowsTo G (row :: beds) (cells row) row := by
  refine ⟨_, rfl, fun row => ?_⟩
  refine (grows_checkedText (by simp) (by simp) (by constructor <;> simp)).bindTo fun _ => ?_
  refine (grows_checkedText (by simp) (by simp) (by constructor <;> simp)).bindTo fun _ => ?_
  refine (grows_checked (by simp) (by simp) (by constructor <;> simp) (by simp)).bindTo
    fun status => ?_
  refine (grows_checkedText (by simp) (by simp) (checked_status info.status)).bindTo fun _ => ?_
  refine (grows_checkedText (by simp) (by simp) (by constructor <;> simp)).bindTo fun _ => ?_
  refine (grows_checkedText (by simp) (by simp) (by constructor <;> simp)).bindTo fun _ => ?_
  refine (grows_checked (by simp) (by simp) (by constructor <;> simp) (by simp)).bindTo
    fun cell => ?_
  refine (grows_checked (by simp) (by simp) (by constructor <;> simp) (by simp)).bindTo
    fun actions => ?_
  refine (grows_each fun s hs => grows_signalButton (by simp) hs).bindTo fun _ => ?_
  exact growsTo_pure row

theorem seeded_bare : Seeded builtIn [] "" := Checked.seeded (by constructor <;> simp)

private theorem growsApart_row (name : String) (info : ProcessInfo) :
    GrowsApart builtIn name beds info.row := by
  obtain ⟨cells, hrow, hcells⟩ := growsTo_row (Grown builtIn name) beds info
  rw [hrow]
  exact growsApart (toLower_tag "tr" (by simp)) seeded_bare hcells

end ProcessInfo

theorem grows_addRow (name : String) (hp : p ∈ beds) (info : ProcessInfo) :
    Grows (Grown builtIn name) beds (CommandLine.addRow p info) fun _ => [] :=
  (ProcessInfo.growsApart_row name info).appended hp

end PageLocalizer.Dashboard
