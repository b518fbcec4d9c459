import PageLocalizer.Proofs.Session.Waiting
import PageLocalizer.Proofs.Translation.Patching

-- An engine that has started on a page keeps up with what is inserted there.
namespace PageLocalizer.Session

open Document Translation

variable {s s' : Session} {g g' : Diary} {due : List FrameJob} {arrived : EngineId → List NodeId}
  {id other : EngineId} {e : Engine} {l : Locale} {depth : Nat} {play : Play}

section Start

-- A switch that finds the page free shows the locale, and translates all.
theorem Steady.still_switchTo (h : s.Steady due arrived) (hfree : s.access = .free)
    (he : s.engine? id = some e) (play : Play) (l : Locale) :
    Still (s.modifyEngine id ({ · with applied := some l })) (s.switchTo play id l) ∧
      (s.switchTo play id l).document =
        (pass e.catalog l root (e.mark l s.document).document).document := by
  let shown := s.modifyEngine id ({ · with applied := some l })
  have hshown : shown.Steady due arrived := h.modifyEngine fun _ => ⟨rfl, rfl, rfl⟩
  have he' : shown.engine? id = some { e with applied := some l } := by
    rw [engine?_modifyEngine, if_pos rfl, he]
    rfl
  let marked := shown.guardedWrite play id (e.mark l)
  have hmark : Still shown marked ∧ marked.document = (e.mark l s.document).document :=
    still_guardedWrite hshown.lined.orderly hshown.wired.scriptless hfree he'
      (Engine.plain_mark e l)
  let kept := (marked.setPreference e.store e.settings.storageKey l.tag).2
  obtain ⟨hkeep, hkept⟩ := still_setPreference e.store e.settings.storageKey l.tag marked
  have hstill : Still shown kept := hmark.1.trans hkeep
  have hswitch : s.switchTo play id l =
      kept.guardedWrite play id (e.translate l root) := by
    have hk : kept.engine? id = some { e with applied := some l } := (hstill.engine? id).trans he'
    unfold Session.switchTo
    rw [he]
    show kept.applyTo play id none (some l) = _
    unfold Session.applyTo
    rw [hk]
    rfl
  obtain ⟨hdone, hdoc⟩ := still_guardedWrite (hstill.orderly hshown.lined.orderly)
    (hstill.scriptless hshown.wired.scriptless) (hstill.access.trans hfree)
    ((hstill.engine? id).trans he') (Engine.plain_translate e l root)
  rw [hswitch]
  refine ⟨hstill.trans hdone, hdoc.trans ?_⟩
  rw [hkept, hmark.2]
  rfl

-- An engine that watches from now on, or did before.
private theorem watch_free (hfree : s.access = .free) (he : s.engine? id = some e) :
    (s.watch id).document.slots = s.document.slots ∧
      (s.watch id).document.free = s.document.free ∧ (s.watch id).names = s.names ∧
      ∀ other, ∃ o, (s.watch id).engine? other =
        if other = id then some { e with observer := some o } else s.engine? other := by
  have hisFree : s.isFree = true := isFree_iff.mpr hfree
  unfold Session.watch
  rw [he]
  dsimp only
  split
  · rename_i hwatch
    obtain ⟨o, ho⟩ := Option.isSome_iff_exists.mp (hwatch.resolve_right (by simp [hisFree]))
    refine ⟨rfl, rfl, rfl, fun other => ⟨o, ?_⟩⟩
    by_cases hid : other = id
    · rw [if_pos hid, hid, he, ← ho]
    · rw [if_neg hid]
  · refine ⟨rfl, rfl, rfl, fun other => ⟨s.document.nextObserver, ?_⟩⟩
    refine (engine?_modifyEngine id other _ s).trans ?_
    by_cases hid : other = id
    · rw [if_pos hid, if_pos hid, hid, he]
      rfl
    · rw [if_neg hid, if_neg hid]

private theorem start_eq_watch {e' : Engine} (he : s.engine? id = some e)
    (he' : (s.switchTo play id (s.detectFor e)).engine? id = some e')
    (hset : e'.settings = .standard) :
    (s.start play id).2 = (s.switchTo play id (s.detectFor e)).watch id := by
  have hlocale : (s.setLocale play id none).2 = s.switchTo play id (s.detectFor e) := by
    unfold Session.setLocale
    rw [he]
  unfold Session.start
  dsimp only
  rw [hlocale, he']
  dsimp only
  rw [hset]
  rfl

theorem performEngine_of_named {name : String} (hname : s.names.engines.lookup name = some id)
    (he : s.engine? id = some e) (play : Play) (step : EngineStep) :
    s.performEngine play name step = s.employ id (performOn play id e step) := by
  unfold performEngine
  rw [hname]
  dsimp only
  rw [he]

-- An engine that has a name lives on when its work is done.
theorem employ_of_named {name : String} (hname : s.names.engines.lookup name = some id)
    {work : Session → Locale × Session} (hn : (work (s.working id)).2.names = s.names) :
    (s.employ id fun s => named (work s)).2 = { (work (s.working id)).2 with
      busy := (work (s.working id)).2.busy.erase id } := by
  refine endUnused_of_held (Or.inl (isNamed_iff.mpr ⟨name, ?_⟩))
  show (name, id) ∈ (work (s.working id)).2.names.engines
  rw [hn]
  exact Table.mem_of_lookup hname

-- What comes of the start of an engine with standard settings.
theorem Steady.performEngine_start (h : s.Steady due arrived) (hfree : s.access = .free)
    {name : String} (hname : s.names.engines.lookup name = some id)
    (he : s.engine? id = some e) (hset : e.settings = .standard) (play : Play) :
    let after := (s.performEngine play name .start).2
    let shown := (pass e.catalog (s.detectFor e) root
      (e.mark (s.detectFor e) s.document).document).document
    after.document.slots = shown.slots ∧ after.document.free = shown.free ∧
      after.names = s.names ∧
      ∀ other, ∃ o, after.engine? other =
        if other = id then some { e with applied := some (s.detectFor e), observer := some o }
        else s.engine? other := by
  let switched := (s.working id).switchTo play id (s.detectFor e)
  obtain ⟨hstill, hdoc⟩ := (h.working id).still_switchTo hfree he play (s.detectFor e)
  have hengine : switched.engine? id = some { e with applied := some (s.detectFor e) } := by
    refine (hstill.engine? id).trans ?_
    rw [engine?_modifyEngine, if_pos rfl]
    exact congrArg _ he
  obtain ⟨hslots, hfreed, hnames, hengines⟩ := watch_free (hstill.access.trans hfree) hengine
  have hstart : ((s.working id).start play id).2 = switched.watch id :=
    start_eq_watch (s := s.working id) he hengine hset
  have hsame : (switched.watch id).names = s.names := hnames.trans hstill.names
  have hafter : (s.performEngine play name .start).2 =
      { switched.watch id with busy := (switched.watch id).busy.erase id } := by
    rw [performEngine_of_named hname he, ← hstart]
    exact employ_of_named hname (hstart ▸ hsame)
  intro after shown
  rw [show after = _ from hafter]
  refine ⟨hslots.trans (congrArg Document.slots hdoc), hfreed.trans (congrArg Document.free hdoc),
    hsame, fun other => ?_⟩
  obtain ⟨o, ho⟩ := hengines other
  refine ⟨o, ho.trans ?_⟩
  by_cases hid : other = id
  · rw [if_pos hid, if_pos hid]
  · rw [if_neg hid, if_neg hid, hstill.engine? other, engine?_modifyEngine, if_neg hid]
    rfl

-- What comes of a switch of the locale, whichever it is.
theorem Steady.performEngine_switch (h : s.Steady due arrived) (hfree : s.access = .free)
    {name : String} (hname : s.names.engines.lookup name = some id)
    (he : s.engine? id = some e) (play : Play) {step : EngineStep}
    (hstep : step = .toggle ∨ ∃ input, step = .setLocale input) :
    let after := (s.performEngine play name step).2
    ∃ l, after.document = (pass e.catalog l root (e.mark l s.document).document).document ∧
      after.names = s.names ∧
      ∀ other, after.engine? other =
        if other = id then some { e with applied := some l } else s.engine? other := by
  have he' : (s.working id).engine? id = some e := he
  obtain ⟨work, hwork, hswitch⟩ : ∃ work : Session → Locale × Session,
      Session.performOn play id e step = (fun s => named (work s)) ∧
      (work (s.working id)).2 = (s.working id).switchTo play id (work (s.working id)).1 := by
    rcases hstep with rfl | ⟨input, rfl⟩
    · refine ⟨Session.toggle play id, rfl, ?_⟩
      unfold Session.toggle
      rw [he']
      rfl
    · exact ⟨Session.setLocale play id input, rfl, rfl⟩
  let l := (work (s.working id)).1
  obtain ⟨hstill, hdoc⟩ := (h.working id).still_switchTo hfree he' play l
  have hnames : (work (s.working id)).2.names = s.names := by
    rw [hswitch]
    exact hstill.names
  have hafter : (s.performEngine play name step).2 = { (s.working id).switchTo play id l with
      busy := ((s.working id).switchTo play id l).busy.erase id } := by
    rw [performEngine_of_named hname he, hwork, employ_of_named hname hnames, hswitch]
  intro after
  rw [show after = _ from hafter]
  refine ⟨l, hdoc, hstill.names, fun other => ?_⟩
  refine (hstill.engine? other).trans ?_
  rw [engine?_modifyEngine]
  by_cases hid : other = id
  · rw [if_pos hid, if_pos hid, hid]
    exact congrArg _ he'
  · rw [if_neg hid, if_neg hid]
    rfl

end Start

-- Other engines have nothing to do.
def Alone (s : Session) (id : EngineId) : Prop :=
  ∀ other e, other ≠ id → s.engine? other = some e →
    e.observer = none ∧ e.batch.scheduled = false

section Frame

private theorem runJobs_of_ended (play : Play) {jobs : List FrameJob}
    (h : ∀ job ∈ jobs, ∃ other, job = .flush other ∧ s.engine? other = none) :
    jobs.foldl (fun s job => runJob play job s) s = s := by
  induction jobs with
  | nil => rfl
  | cons job rest ih =>
      obtain ⟨other, rfl, hnone⟩ := h _ List.mem_cons_self
      rw [List.foldl_cons, runJob_of_ended hnone]
      exact ih fun job hj => h job (List.mem_cons_of_mem _ hj)

-- What waits is for the one engine, or for engines that have ended.
theorem Steady.ended_of_pending (h : s.Steady [] arrived) (halone : s.Alone id) {job : FrameJob}
    (hj : job ∈ s.frames.pending) (hne : job.flushes id = false) :
    ∃ other, other ≠ id ∧ job = .flush other ∧ s.engine? other = none := by
  obtain ⟨other, -, rfl⟩ := h.lined.jobs job hj
  have hother : other ≠ id := by simpa [FrameJob.flushes] using hne
  refine ⟨other, hother, rfl, ?_⟩
  by_contra hlive
  obtain ⟨e, he⟩ := Option.ne_none_iff_exists'.mp hlive
  have hidle := h.lined.pending_of_idle he (halone other e hother he).2 _ hj
  simp [FrameJob.flushes] at hidle

-- A frame that has the page passes over what waits for the one engine, and does nothing else.
theorem Steady.runFrame_alone (play : Play) (h : s.Steady [] arrived) (hfree : s.access = .free)
    (halone : s.Alone id) (he : s.engine? id = some e) :
    let done := (s.runFrame play).2
    done.document = e.batch.nodes.foldl
        (fun d node => (e.translate (s.localeOf e) node d).document) s.document ∧
      done.names = s.names ∧
      ∀ other, done.engine? other =
        if other = id then some { e with batch := .empty } else s.engine? other := by
  have hskip : ∀ (turn : Session) (jobs : List FrameJob),
      (∀ other ≠ id, turn.engine? other = s.engine? other) → jobs ⊆ s.frames.pending →
      (∀ job ∈ jobs, job.flushes id = false) →
      jobs.foldl (fun s job => runJob play job s) turn = turn := by
    intro turn jobs hsame hsub hjobs
    refine runJobs_of_ended play fun job hj => ?_
    obtain ⟨other, hother, hjob, hnone⟩ := h.ended_of_pending halone (hsub hj) (hjobs job hj)
    exact ⟨other, hjob, (hsame other hother).trans hnone⟩
  let after := s.frames.pending.foldl (fun s job => runJob play job s) s.begun
  suffices hafter : after.document = e.batch.nodes.foldl
      (fun d node => (e.translate (s.localeOf e) node d).document) s.document ∧
      after.names = s.names ∧ ∀ other, after.engine? other =
        if other = id then some { e with batch := .empty } else s.engine? other from hafter
  cases hs : e.batch.scheduled with
  | true =>
      obtain ⟨before, rest, hpend, hbefore, hrest⟩ := h.lined.split_pending he hs
      have hserved : Served id e s.begun (runJob play (.flush id) s.begun) :=
        h.begun.served he hfree
      have hall : after = runJob play (.flush id) s.begun := by
        show s.frames.pending.foldl _ s.begun = _
        have hb : before ⊆ s.frames.pending := hpend ▸ List.subset_append_left _ _
        have hr : rest ⊆ s.frames.pending :=
          hpend ▸ List.subset_append_of_subset_right _ (List.subset_cons_self _ _)
        rw [hpend, List.foldl_append, hskip s.begun before (fun _ _ => rfl) hb hbefore,
          List.foldl_cons]
        refine hskip _ rest (fun other hother => ?_) hr hrest
        rw [hserved.engine?, if_neg hother]
        rfl
      rw [hall]
      exact ⟨hserved.document, hserved.names, hserved.engine?⟩
  | false =>
      have hall : after = s.begun := hskip s.begun s.frames.pending (fun _ _ => rfl)
        (List.Subset.refl _) (h.lined.pending_of_idle he hs)
      have hempty := h.lined.batch_of_idle he hs
      rw [hall, hempty]
      refine ⟨rfl, rfl, fun other => ?_⟩
      split
      · rename_i ho
        rw [ho, ← hempty]
        exact he
      · rfl

end Frame

-- The engine is on, with the settings that engines have by themselves, and the page is translated
-- but for what was inserted.
structure Diary.Ongoing (depth : Nat) (id : EngineId) (c : Catalog) (l : Locale) (g : Diary) :
    Prop where
  kept : g.Kept depth
  alone : g.session.Alone id
  engine : ∃ e, g.session.engine? id = some e ∧ e.catalog = c ∧ e.settings = .standard ∧
    e.observer.isSome = true
  abreast : Abreast c l (g.inserted id) g.session.document

section Ongoing

variable {c : Catalog}

-- An engine reads the locale from the page.
theorem localeOf_of_shown (hfree : s.access = .free) (he : e.settings = .standard)
    (hl : s.document.attribute? html EngineSettings.standard.localeAttribute = some l.tag) :
    s.localeOf e = l := by
  have htag : Locale.ofTag l.tag = l := by cases l <;> rfl
  unfold Session.localeOf Engine.locale Session.readable
  rw [if_neg (by simp [hfree]), he, Option.bind_some, hl]
  exact htag

theorem Diary.Kept.after_free (h : g.Kept depth) (act : Act) :
    (g.after play .free act).session = { act.run play g.session with access := .free } := by
  have hself : { g.session with access := .free } = g.session := by rw [← h.access]
  unfold Diary.after Session.during
  rw [hself]

theorem Diary.Ongoing.frame (h : g.Ongoing depth id c l)
    (hc : ConflictFree g.session.document root) :
    let done := g.after (Session.play depth) .free .frame
    done.Ongoing depth id c l ∧ ConflictFree done.session.document root := by
  obtain ⟨e, he, hcat, hset, hobs⟩ := h.engine
  have hs := h.kept.steady
  have hfree := h.kept.access
  have hlocale : g.session.localeOf e = l := localeOf_of_shown hfree hset h.abreast.locale
  have hafter : (g.after (Session.play depth) .free .frame).session =
      { (g.session.runFrame (Session.play depth)).2 with access := .free } :=
    h.kept.after_free .frame
  obtain ⟨hdoc, -, hengine⟩ := hs.runFrame_alone (Session.play depth) hfree h.alone he
  have hbatch : Abreast c l e.batch.nodes g.session.document := h.abreast.mono fun x hx => by
    rw [(hs.lined.holds id e he).nodes]
    exact List.mem_eraseDups.mpr hx
  have hpass := hbatch.passes hc
  rw [hlocale] at hdoc
  unfold Engine.translate at hdoc
  rw [hcat] at hdoc
  dsimp only at hpass
  rw [← hdoc] at hpass
  intro done
  refine ⟨⟨?_, ?_, ?_, ?_⟩, ?_⟩
  · exact h.kept.after .free .frame nofun
  · intro other e' hother he'
    rw [hafter] at he'
    have hlook := hengine other
    rw [if_neg hother] at hlook
    exact h.alone other e' hother (hlook.symm.trans he')
  · refine ⟨{ e with batch := .empty }, ?_, hcat, hset, hobs⟩
    rw [hafter]
    exact (hengine id).trans (if_pos rfl)
  · exact hafter ▸ hpass.1
  · exact hafter ▸ hpass.2

theorem Diary.Ongoing.postponed (h : g.Ongoing depth id c l) {a : Access} (ha : a ≠ .free) :
    (g.after (Session.play depth) a .frame).Ongoing depth id c l := by
  obtain ⟨-, hdoc, hengine⟩ := (h.kept.steady.access a).runFrame_held (Session.play depth) ha
  have hinserted : (g.after (Session.play depth) a .frame).inserted id = g.inserted id := by
    cases a <;> first
      | exact absurd rfl ha
      | rfl
  refine ⟨h.kept.after a .frame nofun, fun other e' hother he' => ?_, ?_, ?_⟩
  · exact h.alone other e' hother ((hengine other).symm.trans he')
  · obtain ⟨e, he, hmore⟩ := h.engine
    exact ⟨e, (hengine id).trans he, hmore⟩
  · rw [hinserted]
    exact hdoc.symm ▸ h.abreast

-- An edit changes the page and the batches at most.
theorem Diary.Kept.after_edit (h : g.Kept depth) (op : Operation) :
    let after := (g.after (Session.play depth) .free (.edit op)).session
    after.document = (op.edit g.session.document).document ∧
      ∀ other, ∃ batch, after.engine? other =
        (g.session.engine? other).map ({ · with batch }) := by
  have hafter : (g.after (Session.play depth) .free (.edit op)).session =
      { (g.session.write (Session.play depth) op.edit).2 with access := .free } := by
    rw [h.after_free (.edit op)]
    unfold Act.run
    dsimp only
    rw [if_pos h.access]
  rw [hafter]
  obtain ⟨hdoc, -, hengines⟩ :=
    rebatched_write h.steady.wired.scriptless (Session.play depth) op.edit
  exact ⟨hdoc, hengines⟩

-- Who does not watch is told nothing of an edit, so nothing comes to wait.
theorem Diary.Kept.alone_edit (h : g.Kept depth) (halone : g.session.Alone id) {op : Operation}
    (hfair : Act.Fair (.edit op) g.session) :
    (g.after (Session.play depth) .free (.edit op)).session.Alone id := by
  intro other e' hother he'
  obtain ⟨batch, hb⟩ := (h.after_edit op).2 other
  obtain ⟨e, he, rfl⟩ := Option.map_eq_some_iff.mp (hb.symm.trans he')
  obtain ⟨hnone, hidle⟩ := halone other e hother he
  have hunwatched : g.session.observerOf other = none := by simp [observerOf, he, hnone]
  have hnoted : (g.after (Session.play depth) .free (.edit op)).inserted other = [] := by
    show g.inserted other ++ (if (g.session.observerOf other).isSome then _ else []) = []
    rw [hunwatched, (h.steady.lined.holds other e he).idle_iff.mp hidle]
    rfl
  have hkept := h.after .free (.edit op) hfair
  exact ⟨hnone, (hkept.steady.lined.holds other _ he').idle_iff.mpr hnoted⟩

theorem Diary.Ongoing.edit (h : g.Ongoing depth id c l) {op : Operation}
    (hout : op.Outside g.session.document)
    (hm : ∀ x ∈ op.mentions, (g.session.document.node? x).isSome →
      g.session.document.Alive x) :
    (g.after (Session.play depth) .free (.edit op)).Ongoing depth id c l := by
  have hfair : Act.Fair (.edit op) g.session := fun o ho => by
    rw [Act.edit.inj ho] at hout
    exact hout.elim
  obtain ⟨hdoc, hlook⟩ := h.kept.after_edit op
  obtain ⟨e, he, hcat, hset, hobs⟩ := h.engine
  refine ⟨h.kept.after .free _ hfair, h.kept.alone_edit h.alone hfair, ?_, ?_⟩
  · obtain ⟨batch, hb⟩ := hlook id
    refine ⟨{ e with batch }, ?_, hcat, hset, hobs⟩
    rw [hb, he]
    rfl
  · have hwatched : (g.session.observerOf id).isSome = true := by simp [observerOf, he, hobs]
    have hinserted : (g.after (Session.play depth) .free (.edit op)).inserted id =
        g.inserted id ++ op.brings g.session.document := by
      show g.inserted id ++ (if (g.session.observerOf id).isSome then _ else []) = _
      rw [if_pos hwatched]
    rw [hinserted, hdoc]
    exact h.abreast.outside hout hm

end Ongoing

end PageLocalizer.Session
