import PageLocalizer.Proofs.Dashboard.Tables
import PageLocalizer.Proofs.Session.Following
import PageLocalizer.Proofs.Session.PageEdits

-- A table of processes that is refreshed again and again, while an engine translates the page.
namespace PageLocalizer

open Document Dashboard Edit Translation Catalog

-- What is done in the course of a refresh.
inductive RefreshAct where
  | build (info : ProcessInfo)
  -- One of the rows in hand comes to the table.
  | append (nth : Nat)
  | frame
  | setLocale (input : Option String)
  | toggle

def RefreshAct.builds : RefreshAct → Bool
  | .build _ => true
  | _ => false

-- A refresh under way: the session, and the rows that were built and have no place yet.
structure Refresh where
  session : Session
  hand : List NodeId

def RefreshAct.run (play : Play) (table : NodeId) (act : RefreshAct) (r : Refresh) : Refresh :=
  match act with
  | .build info =>
    match r.session.write play info.row with
    | (.ok row, s) => ⟨s, r.hand ++ [row]⟩
    | (.error _, s) => ⟨s, r.hand⟩
  | .append nth =>
    match r.hand[nth]? with
    | some row => ⟨(r.session.write play (appendChild table row)).2, r.hand.eraseIdx nth⟩
    | none => r
  | .frame => { r with session := (r.session.runFrame play).2 }
  | .setLocale input =>
    { r with session := (r.session.performEngine play "engine" (.setLocale input)).2 }
  | .toggle => { r with session := (r.session.performEngine play "engine" .toggle).2 }

-- The page once these nodes have been translated, one after the other.
def Engine.translateEach (e : Engine) (l : Locale) (nodes : List NodeId) (d : Document) :
    Document :=
  nodes.foldl (fun d node => (e.translate l node d).document) d

namespace Session

def refreshing (play : Play) (table : NodeId) (acts : List RefreshAct) (s : Session) : Refresh :=
  acts.foldl (fun r act => act.run play table r) ⟨s, []⟩

-- A refresh: some acts, the rows that are left in hand one after the other, and then the table is
-- cleared. The answer is that of the clearing.
def refresh (play : Play) (table : NodeId) (acts : List RefreshAct) (s : Session) :
    Except EditError Nat × Session :=
  let left := List.replicate (s.refreshing play table acts).hand.length (RefreshAct.append 0)
  (s.refreshing play table (acts ++ left)).session.write play (ProcessTable.clearRows table)

-- The dashboard with a table of processes and an engine with standard settings that has started on
-- it. Also tells where the rows come.
def opened (play : Play) (options : LayoutOptions) (kept : Store) (surroundings : Option String) :
    Except EditError NodeId × Session :=
  let built := initial.write play (tablePage options)
  let stocked := (built.2.performStore (.create "store" kept)).2
  let hired := (stocked.createEngine "engine" ⟨surroundings, some "store", .standard, none⟩).2
  (built.1, (hired.performEngine play "engine" .start).2)

-- There is one engine only. It speaks the embedded catalogs, and it watches.
structure Attended (id : EngineId) (s : Session) : Prop where
  steady : ∃ arrived, s.Steady [] arrived
  free : s.access = .free
  named : s.names.engines.lookup "engine" = some id
  sole : ∀ other, other ≠ id → s.engine? other = none
  engine : ∃ e, s.engine? id = some e ∧ e.catalog = builtIn ∧ e.settings = .standard ∧
    e.observer.isSome = true

-- The engine of the session is on, and the next frame comes to what waits for it as if those that
-- are gone by then did not wait. When it is their turn they cause no write.
structure Spares (play : Play) (e : Engine) (s : Session) : Prop where
  engine : (s.names.engines.lookup "engine").bind s.engine? = some e
  watches : e.observer.isSome = true
  document : (s.runFrame play).2.document =
    e.translateEach (s.localeOf e) (e.batch.nodes.filter fun x => s.document.Alive x) s.document
  skipped : ∀ before x after, e.batch.nodes = before ++ x :: after → ¬s.document.Alive x →
    Skipped (e.translate (s.localeOf e) x) (e.translateEach (s.localeOf e) before s.document)

variable {s : Session} {r : Refresh} {id : EngineId} {e : Engine} {base : Document}
  {table x : NodeId} {rows : List NodeId} {play : Play}

theorem named_builtIn (l : Locale) : builtIn.lookupMessage l titleKey none ≠ "" := by
  have hsays : builtIn.Says titleKey "DietPi Dashboard" :=
    says_builtIn (by simp [englishTexts, titleKey])
  exact hsays.everywhere l

theorem reshown_translateEach {d : Document} (h : Firm builtIn d) (hcat : e.catalog = builtIn)
    (l : Locale) (nodes : List NodeId) : d.Reshown (e.translateEach l nodes d) := by
  induction nodes generalizing d with
  | nil => exact .refl h.wellFormed
  | cons node rest ih =>
      have hfirst : d.Reshown (e.translate l node d).document := by
        unfold Engine.translate
        rw [hcat]
        exact h.pass named_builtIn l node
      exact hfirst.trans (ih (h.reshown hfirst))

-- Translations of others bring nobody back.
theorem skipped_of_reshown {d d' : Document} (h : d.Reshown d') (hx : ¬d.Alive x) (e : Engine)
    (l : Locale) : Skipped (e.translate l x) d' :=
  have hx' : ¬d'.Alive x := fun ha => hx ((h.sameTenants.alive_iff x).mp ha)
  skipped_pass_of_not_alive h.wellFormed hx' e.catalog l

-- Those that are gone do not count.
private theorem translateEach_filter {d d' : Document} (hf : Firm builtIn d') (h : d.Reshown d')
    (hcat : e.catalog = builtIn) (l : Locale) (nodes : List NodeId) :
    e.translateEach l nodes d' = e.translateEach l (nodes.filter fun x => d.Alive x) d' := by
  induction nodes generalizing d' with
  | nil => rfl
  | cons x rest ih =>
      by_cases hx : d.Alive x
      · have hshown : d'.Reshown (e.translate l x d').document :=
          reshown_translateEach hf hcat l [x]
        rw [List.filter_cons_of_pos (by simpa using hx)]
        exact ih (hf.reshown hshown) (h.trans hshown)
      · have hskip : (e.translate l x d').document = d' := by
          rw [skipped_of_reshown h hx e l]
        rw [List.filter_cons_of_neg (by simpa using hx), ← ih hf h]
        exact congrArg (e.translateEach l rest) hskip

section Acts

variable (h : s.Attended id)

include h

theorem Attended.alone : s.Alone id := fun other e hne he => by simp [h.sole other hne] at he

theorem Attended.write {α : Type} {edit : Edit α} (play : Play) (ht : Edit.Tacit edit) :
    (s.write play edit).2.Attended id ∧
      (s.write play edit).2.document = (edit s.document).document := by
  obtain ⟨arrived, hs⟩ := h.steady
  obtain ⟨hdoc, hnames, hengines⟩ := rebatched_write hs.wired.scriptless play edit
  obtain ⟨e, he, hcat, hset, hobs⟩ := h.engine
  refine ⟨⟨⟨_, hs.write_of_tacit ht⟩, rfl, by rw [hnames, h.named], fun other hne => ?_, ?_⟩, hdoc⟩
  · obtain ⟨batch, hb⟩ := hengines other
    rw [hb, h.sole other hne]
    rfl
  · obtain ⟨batch, hb⟩ := hengines id
    exact ⟨{ e with batch }, by rw [hb, he]; rfl, hcat, hset, hobs⟩

theorem Attended.frame (hf : Firm builtIn s.document) (hp : Courteous play) :
    (s.runFrame play).2.Attended id ∧ s.document.Reshown (s.runFrame play).2.document := by
  obtain ⟨arrived, hs⟩ := h.steady
  obtain ⟨e, he, hcat, hset, hobs⟩ := h.engine
  obtain ⟨hdoc, hnames, hengines⟩ := hs.runFrame_alone play h.free h.alone he
  refine ⟨⟨⟨_, hs.runFrame_free h.free⟩, ?_, by rw [hnames, h.named], fun other hne => ?_, ?_⟩, ?_⟩
  · exact (course_runFrame hp s).access.trans h.free
  · rw [hengines, if_neg hne, h.sole other hne]
  · exact ⟨{ e with batch := .empty }, (hengines id).trans (if_pos rfl), hcat, hset, hobs⟩
  · rw [hdoc]
    exact reshown_translateEach hf hcat _ _

theorem Attended.switch (hf : Firm builtIn s.document) (hp : Courteous play) {step : EngineStep}
    (hstep : step = .toggle ∨ ∃ input, step = .setLocale input) :
    let after := (s.performEngine play "engine" step).2
    after.Attended id ∧ s.document.Reshown after.document := by
  obtain ⟨arrived, hs⟩ := h.steady
  obtain ⟨e, he, hcat, hset, hobs⟩ := h.engine
  obtain ⟨l, hdoc, hnames, hengines⟩ := hs.performEngine_switch h.free h.named he play hstep
  have hmarked := Engine.reshown_mark hf.wellFormed hset l
  refine ⟨⟨⟨_, hs.performEngine hp "engine" step⟩, ?_, by rw [hnames, h.named],
    fun other hne => ?_, ?_⟩, ?_⟩
  · exact ((moves_course hp).performEngine "engine" step s).access.trans h.free
  · rw [hengines, if_neg hne, h.sole other hne]
  · exact ⟨{ e with applied := some l }, (hengines id).trans (if_pos rfl), hcat, hset, hobs⟩
  · rw [hdoc, hcat]
    exact hmarked.trans ((hf.reshown hmarked).pass named_builtIn l root)

-- No frame minds those that are gone.
theorem Attended.spares (hf : Firm builtIn s.document) (play : Play) : ∃ e, s.Spares play e := by
  obtain ⟨arrived, hs⟩ := h.steady
  obtain ⟨e, he, hcat, -, hobs⟩ := h.engine
  refine ⟨e, by rw [h.named]; exact he, hobs, ?_, fun before x _ _ hx => ?_⟩
  · have hdoc := (hs.runFrame_alone play h.free h.alone he).1
    exact hdoc.trans (translateEach_filter hf (.refl hf.wellFormed) hcat _ _)
  · exact skipped_of_reshown (reshown_translateEach hf hcat _ before) hx e _

end Acts

-- A refresh under way, with the page as it was before it and the rows that the table has by now.
structure Underway (base : Document) (table : NodeId) (id : EngineId) (rows : List NodeId)
    (r : Refresh) : Prop where
  attended : r.session.Attended id
  tended : Tended builtIn base table rows r.hand r.session.document

section Runs

theorem result_write {α : Type} (edit : Edit α) (play : Play) (s : Session) :
    (s.write play edit).1 = (edit s.document).result := rfl

theorem run_build {info : ProcessInfo} {row : NodeId}
    (h : (info.row r.session.document).result = .ok row) (play : Play) :
    (RefreshAct.build info).run play table r =
      ⟨(r.session.write play info.row).2, r.hand ++ [row]⟩ := by
  have hanswer := (result_write info.row play r.session).trans h
  unfold RefreshAct.run
  dsimp only
  cases hw : r.session.write play info.row with
  | mk result s =>
      rw [hw] at hanswer
      obtain rfl : result = .ok row := hanswer
      rfl

theorem run_append {nth : Nat} (h : nth < r.hand.length) (play : Play) :
    (RefreshAct.append nth).run play table r =
      ⟨(r.session.write play (appendChild table r.hand[nth])).2, r.hand.eraseIdx nth⟩ := by
  unfold RefreshAct.run
  dsimp only
  rw [List.getElem?_eq_getElem h]

theorem run_append_of_le {nth : Nat} (h : r.hand.length ≤ nth) :
    (RefreshAct.append nth).run play table r = r := by
  unfold RefreshAct.run
  dsimp only
  rw [List.getElem?_eq_none h]

theorem Underway.reshown {s : Session} (h : Underway base table id rows r)
    (hs : s.Attended id ∧ r.session.document.Reshown s.document) :
    Underway base table id rows ⟨s, r.hand⟩ := ⟨hs.1, h.tended.reshown hs.2⟩

variable (ht : base.Alive table)

include ht

-- Each act builds one row, or brings one row to the table, or shows the page anew.
theorem Underway.run (h : Underway base table id rows r) (hp : Courteous play)
    (act : RefreshAct) : ∃ more, Underway base table id more (act.run play table r) ∧
      more.length + (act.run play table r).hand.length =
        rows.length + r.hand.length + if act.builds then 1 else 0 := by
  cases act with
  | build info =>
      obtain ⟨row, d', ⟨hresult, hdoc⟩, htended⟩ := h.tended.gives_row ht info
      obtain ⟨hattended, hpage⟩ := h.attended.write play info.stepwise_row.tacit
      rw [run_build hresult]
      refine ⟨rows, ⟨hattended, ?_⟩, ?_⟩
      · rw [hpage, hdoc]
        exact htended
      · simp [RefreshAct.builds, Nat.add_assoc]
  | append nth =>
      by_cases hlt : nth < r.hand.length
      · obtain ⟨d', ⟨-, hdoc⟩, htended⟩ := h.tended.gives_appendNth ht hlt
        obtain ⟨hattended, hpage⟩ := h.attended.write play (tacit_appendChild table r.hand[nth])
        rw [run_append hlt]
        refine ⟨rows ++ [r.hand[nth]], ⟨hattended, ?_⟩, ?_⟩
        · rw [hpage, hdoc]
          exact htended
        · have hlen := List.length_eraseIdx_add_one hlt
          simp only [RefreshAct.builds, List.length_append, List.length_singleton,
            Bool.false_eq_true, if_false]
          omega
      · rw [run_append_of_le (Nat.le_of_not_lt hlt)]
        exact ⟨rows, h, rfl⟩
  | frame => exact ⟨rows, h.reshown (h.attended.frame h.tended.firm hp), rfl⟩
  | setLocale input =>
      exact ⟨rows, h.reshown (h.attended.switch h.tended.firm hp (.inr ⟨input, rfl⟩)), rfl⟩
  | toggle => exact ⟨rows, h.reshown (h.attended.switch h.tended.firm hp (.inl rfl)), rfl⟩

theorem Underway.foldl (h : Underway base table id rows r) (hp : Courteous play)
    (acts : List RefreshAct) :
    let done := acts.foldl (fun r act => act.run play table r) r
    ∃ more, Underway base table id more done ∧
      more.length + done.hand.length =
        rows.length + r.hand.length + acts.countP RefreshAct.builds := by
  induction acts generalizing r rows with
  | nil => exact ⟨rows, h, rfl⟩
  | cons act rest ih =>
      obtain ⟨more, hdone, hlen⟩ := h.run ht hp act
      obtain ⟨others, hall, hlens⟩ := ih hdone
      refine ⟨others, hall, ?_⟩
      rw [List.foldl_cons, hlens, hlen, List.countP_cons]
      omega

omit ht in
-- One append for each row in hand, and none is left.
private theorem hand_place (r : Refresh) :
    ((List.replicate r.hand.length (RefreshAct.append 0)).foldl
      (fun r act => act.run play table r) r).hand = [] := by
  obtain ⟨s, hand⟩ := r
  induction hand generalizing s with
  | nil => rfl
  | cons row rest ih => exact ih (s.write play (appendChild table row)).2

-- The clearing counts the rows that were built, and nobody stays who was not there before.
theorem Attended.refresh (hattended : s.Attended id) (hw : base.WellFormed)
    (hhead : (base.children table).length = 1)
    (htended : Tended builtIn base table [] [] s.document) (hp : Courteous play)
    (acts : List RefreshAct) :
    let cleared := s.refresh play table acts
    cleared.1 = .ok (acts.countP RefreshAct.builds) ∧ cleared.2.Attended id ∧
      Tended builtIn base table [] [] cleared.2.document := by
  let left := List.replicate (s.refreshing play table acts).hand.length (RefreshAct.append 0)
  have hstart : Underway base table id [] ⟨s, []⟩ := ⟨hattended, htended⟩
  obtain ⟨rows, hplaced, hlen⟩ := hstart.foldl ht hp (acts ++ left)
  have hhand : (s.refreshing play table (acts ++ left)).hand = [] := by
    unfold refreshing
    rw [List.foldl_append]
    exact hand_place (s.refreshing play table acts)
  have hnone : left.countP RefreshAct.builds = 0 := by
    simp [left, List.countP_replicate, RefreshAct.builds]
  change Underway base table id rows (s.refreshing play table (acts ++ left)) at hplaced
  change rows.length + (s.refreshing play table (acts ++ left)).hand.length = _ at hlen
  have hcleared := hplaced.tended
  rw [hhand] at hcleared hlen
  obtain ⟨d', ⟨hresult, hdoc⟩, hend⟩ := hcleared.gives_clearRows hw ht hhead
  have htacit := (ProcessTable.stepwise_clearRows table).tacit
  obtain ⟨hattended', hpage⟩ := hplaced.attended.write play htacit
  have hcount : rows.length = acts.countP RefreshAct.builds := by
    simpa [List.countP_append, hnone] using hlen
  intro cleared
  refine ⟨?_, hattended', ?_⟩
  · rw [← hcount]
    exact hresult
  · rw [show cleared.2.document = _ from hpage, hdoc]
    exact hend

end Runs

section Opening

private theorem tacit_tablePage (options : LayoutOptions) : Edit.Tacit (tablePage options) :=
  tacit_bind (Layout.stepwise_build options).tacit fun layout =>
    tacit_bind (ProcessTable.stepwise_build layout.main).tacit fun _ => tacit_pure _

-- A store comes to the session, and the page and the engines are as before.
theorem Steady.stocked {due : List FrameJob} {arrived : EngineId → List NodeId}
    (h : s.Steady due arrived) (name : String) (kept : Store) :
    (s.performStore (.create name kept)).2.Steady due arrived where
  wired := h.wired.of_engines rfl rfl rfl fun _ e he => ⟨e, he, rfl⟩
  lined := h.lined.of_engines rfl rfl fun _ e he => ⟨e, he, rfl, rfl⟩
  owned := ⟨h.owned.distinct, h.owned.held⟩

-- A new engine takes a name that nobody has, and the others are as before.
private theorem createEngine_of_load {catalog : Catalog} {setup : EngineSetup} {store : StoreId}
    {name : String} (hload : Catalog.load setup.sources = .ok catalog)
    (hstore : s.engineStore setup = some (store, s))
    (hnone : s.names.engines.lookup name = none) :
    let made := (s.createEngine name setup).2
    made.document = s.document ∧ made.access = s.access ∧
      made.names.engines.lookup name = some s.nextEngine ∧
      ∀ other, made.engine? other = if other = s.nextEngine
        then some (.create catalog setup.surroundings setup.settings store)
        else s.engine? other := by
  let e := Engine.create catalog setup.surroundings setup.settings store
  have hnamed : (s.createEngine name setup).2 = (s.addEngine e).2.modifyNames fun n =>
      { n with engines := n.engines.set name s.nextEngine } := by
    have hnone' : (s.addEngine e).2.names.engines.lookup name = none := hnone
    unfold createEngine
    rw [hload, hstore]
    dsimp only
    unfold nameEngine
    dsimp only
    rw [hnone']
    rfl
  dsimp only
  rw [hnamed]
  exact ⟨rfl, rfl, Table.lookup_set_self _ _ _, engine?_addEngine e s⟩

variable (play : Play) (options : LayoutOptions) (kept : Store) (surroundings : Option String)

-- The first engine of a session starts, and it is attended from then on.
private theorem attended_start {arrived : EngineId → List NodeId}
    (hs : s.Steady [] arrived) (hfree : s.access = .free) (hf : Firm builtIn s.document)
    (hp : Courteous play) (hnamed : s.names.engines.lookup "engine" = some id)
    (hsole : ∀ other, other ≠ id → s.engine? other = none)
    (he : s.engine? id = some e) (hcat : e.catalog = builtIn) (hset : e.settings = .standard) :
    let started := (s.performEngine play "engine" .start).2
    started.Attended id ∧ s.document.Reshown started.document := by
  obtain ⟨hslots, hfreed, hnames, hengines⟩ := hs.performEngine_start hfree hnamed he hset play
  have hmarked := Engine.reshown_mark hf.wellFormed hset (s.detectFor e)
  have hpass := hmarked.trans ((hf.reshown hmarked).pass named_builtIn (s.detectFor e) root)
  refine ⟨⟨⟨_, hs.performEngine hp "engine" .start⟩, ?_, by rw [hnames, hnamed],
    fun other hne => ?_, ?_⟩, ?_⟩
  · exact ((moves_course hp).performEngine "engine" .start s).access.trans hfree
  · obtain ⟨o, ho⟩ := hengines other
    rw [ho, if_neg hne, hsole other hne]
  · obtain ⟨o, ho⟩ := hengines id
    exact ⟨_, ho.trans (if_pos rfl), hcat, hset, rfl⟩
  · rw [hcat] at hslots hfreed
    exact hpass.trans (hpass.wellFormed.reshown_of_observers hslots hfreed)

private theorem attended_hired {arrived : EngineId → List NodeId} (hs : s.Steady [] arrived)
    (hfree : s.access = .free) (hf : Firm builtIn s.document) (hp : Courteous play)
    (hnone : s.names.engines.lookup "engine" = none) (hempty : ∀ id, s.engine? id = none) :
    let stocked := (s.performStore (.create "store" kept)).2
    let hired := (stocked.createEngine "engine" ⟨surroundings, some "store", .standard, none⟩).2
    let started := (hired.performEngine play "engine" .start).2
    ∃ id, started.Attended id ∧ s.document.Reshown started.document := by
  intro stocked hired started
  let setup : EngineSetup := ⟨surroundings, some "store", .standard, none⟩
  have hlook : stocked.names.stores.lookup "store" = some s.stores.length :=
    Table.lookup_set_self _ _ _
  have hstore : stocked.engineStore setup = some (s.stores.length, stocked) := by
    unfold engineStore
    dsimp only [setup]
    rw [hlook]
    rfl
  -- The catalog and the new session are kept behind names, so that nothing looks into them.
  obtain ⟨catalog, hload, hcat⟩ : ∃ catalog, Catalog.load setup.sources = .ok catalog ∧
      catalog = builtIn := ⟨builtIn, standard_eq, rfl⟩
  have hmade : (stocked.createEngine "engine" setup).2 = hired := rfl
  obtain ⟨hdoc, haccess, hnamed, hengines⟩ :=
    hmade ▸ createEngine_of_load (s := stocked) hload hstore hnone
  replace hdoc : hired.document = s.document := hdoc
  have hfirm : Firm builtIn hired.document := by
    rw [hdoc]
    exact hf
  have hsteady : hired.Steady [] arrived := (hs.stocked "store" kept).createEngine "engine" setup
  have hsole : ∀ other, other ≠ s.nextEngine → hired.engine? other = none := fun other hne =>
    calc hired.engine? other = _ := hengines other
      _ = stocked.engine? other := if_neg hne
      _ = none := hempty other
  obtain ⟨hattended, hshown⟩ := attended_start play hsteady (haccess.trans hfree) hfirm hp hnamed
    hsole ((hengines _).trans (if_pos rfl)) hcat rfl
  rw [hdoc] at hshown
  exact ⟨s.nextEngine, hattended, hshown⟩

private theorem attended_opened (hp : Courteous play) : ∃ table s id,
    opened play options kept surroundings = (.ok table, s) ∧ s.Attended id ∧
      Firm builtIn s.document ∧ Bed s.document table ∧
      (s.document.children table).length = 1 := by
  obtain ⟨table, d, ⟨hresult, hdoc⟩, hfirm, hbed, hhead⟩ := gives_tablePage options
  obtain ⟨hpage, hnames, hengines⟩ :=
    rebatched_write steady_initial.wired.scriptless play (tablePage options)
  have hbuilt : (initial.write play (tablePage options)).2.document = d := hpage.trans hdoc
  obtain ⟨id, hattended, hshown⟩ := attended_hired play kept surroundings
    (steady_initial.write_of_tacit (tacit_tablePage options)) rfl (hbuilt ▸ hfirm) hp
    (by rw [hnames]; rfl) fun id => by
      obtain ⟨batch, hb⟩ := hengines id
      exact hb
  rw [hbuilt] at hshown
  have hanswer := (result_write (tablePage options) play initial).trans hresult
  unfold opened
  dsimp only
  rw [hanswer]
  refine ⟨table, _, id, rfl, hattended, hfirm.reshown hshown, hbed.reshown hshown, ?_⟩
  exact (congrArg List.length (children_of_links hshown.links table)).trans hhead

end Opening

-- Refreshing the table leaves nothing behind, whatever is done meanwhile: each clearing counts the
-- rows of its refresh, and after it the nodes are those of the new page. At no time does a row that
-- is gone cause a write.
theorem refreshes_leave_nothing (depth : Nat) (options : LayoutOptions) (kept : Store)
    (surroundings : Option String) :
    let play := Session.play depth
    ∃ table s, opened play options kept surroundings = (.ok table, s) ∧
      ∀ (past : List (List RefreshAct)) (acts : List RefreshAct),
        let before := past.foldl (fun s acts => (s.refresh play table acts).2) s
        let cleared := before.refresh play table acts
        cleared.1 = .ok (acts.countP RefreshAct.builds) ∧
        (∀ x, cleared.2.document.Alive x ↔ s.document.Alive x) ∧
        ∃ e, (before.refreshing play table acts).session.Spares play e := by
  intro play
  have hp : Courteous play := courteous_play depth
  obtain ⟨table, s, id, hopened, hattended, hfirm, hbed, hhead⟩ :=
    attended_opened play options kept surroundings hp
  have hw := hfirm.wellFormed
  have hpast : ∀ past : List (List RefreshAct),
      let before := past.foldl (fun s acts => (s.refresh play table acts).2) s
      before.Attended id ∧ Tended builtIn s.document table [] [] before.document := by
    intro past
    induction past using List.reverseRecOn with
    | nil => exact ⟨hattended, .refl hfirm hbed⟩
    | append_singleton past acts ih =>
        rw [List.foldl_append]
        exact (ih.1.refresh hbed.alive hw hhead ih.2 hp acts).2
  refine ⟨table, s, hopened, fun past acts => ?_⟩
  obtain ⟨hbefore, htended⟩ := hpast past
  obtain ⟨hcount, -, hcleared⟩ := hbefore.refresh hbed.alive hw hhead htended hp acts
  have hstart : Underway s.document table id [] ⟨_, []⟩ := ⟨hbefore, htended⟩
  obtain ⟨rows, hunderway, -⟩ := hstart.foldl hbed.alive hp acts
  exact ⟨hcount, hcleared.alive_iff, hunderway.attended.spares hunderway.tended.firm play⟩

end Session
end PageLocalizer
