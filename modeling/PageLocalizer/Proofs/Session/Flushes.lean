import PageLocalizer.Proofs.Session.Arrivals
import PageLocalizer.Proofs.Session.Feedback
import PageLocalizer.Proofs.Session.Owners

-- What frames do to the batches that wait.
namespace PageLocalizer.Session

-- The sessions agree in all that frames and batches do not touch.
structure Beside (s s' : Session) : Prop where
  access : s'.access = s.access
  listeners : s'.listeners = s.listeners
  nextEngine : s'.nextEngine = s.nextEngine
  busy : s'.busy = s.busy
  names : s'.names = s.names

-- The flush of an engine that found the page free: its batch went through the translation, in
-- order, and a new one begins.
structure Served (id : EngineId) (e : Engine) (s s' : Session) : Prop extends Beside s s' where
  document : s'.document =
    e.batch.nodes.foldl (fun d node => (e.translate (s.localeOf e) node d).document) s.document
  engine? : ∀ other, s'.engine? other =
    if other = id then some { e with batch := .empty } else s.engine? other
  pending : s'.frames.pending = s.frames.pending

-- The flush of an engine that found the page in use: all is as it was, and it is to come again.
structure Postponed (id : EngineId) (s s' : Session) : Prop extends Beside s s' where
  document : s'.document = s.document
  engine? : ∀ other, s'.engine? other = s.engine? other
  pending : s'.frames.pending = s.frames.pending ++ [.flush id]

variable {s s' : Session} {due before rest : List FrameJob} {arrived : EngineId → List NodeId}
  {id : EngineId} {e : Engine} {play : Play}

section Flush

theorem Lined.scheduled (h : s.Lined (.flush id :: rest) arrived) (he : s.engine? id = some e) :
    e.batch.scheduled = true := by
  have hcount := h.queued id e he
  rw [List.cons_append, List.countP_cons_of_pos ((FrameJob.flushes_flush id id).mpr rfl)] at hcount
  by_contra hs
  rw [if_neg hs] at hcount
  exact absurd hcount (Nat.succ_ne_zero _)

private theorem flush_served (play : Play) (ho : s.Orderly) (hs : s.Scriptless)
    (he : s.engine? id = some e) (hfree : s.access = .free) : Served id e s (s.flush play id) := by
  let taken := s.modifyEngine id ({ · with batch := Batch.empty })
  have ho' : taken.Orderly := ho.modifyEngine fun _ _ => Batch.ready_empty
  have he' : taken.engine? id = some { e with batch := .empty } := by
    rw [engine?_modifyEngine, if_pos rfl, he]
    rfl
  obtain ⟨hstill, hdoc⟩ := still_translateEach ho' hs hfree he' (taken.localeOf e)
    e.batch.nodes
  rw [EngineCall.flush_of_free he hfree]
  refine ⟨⟨hstill.access, hstill.listeners, hstill.nextEngine, hstill.busy, hstill.names⟩, hdoc,
    fun other => ?_, congrArg Frames.pending hstill.frames⟩
  refine (hstill.engine? other).trans ?_
  rw [engine?_modifyEngine]
  by_cases hid : other = id
  · simp [hid, he]
  · rw [if_neg hid, if_neg hid]

private theorem flush_postponed (play : Play) (h : s.Lined (.flush id :: rest) arrived)
    (he : s.engine? id = some e) (hheld : s.access ≠ .free) :
    Postponed id s (s.flush play id) := by
  have hs := h.scheduled he
  have hnodes : e.batch.take.1 ≠ [] := fun hn => by
    simp [(h.holds id e he).nodes_eq_nil_iff.mp hn] at hs
  let taken := s.modifyEngine id ({ · with batch := e.batch.take.2 })
  have hfree : taken.isFree = false := by
    rw [Bool.eq_false_iff]
    exact fun hf => hheld (isFree_iff.mp hf)
  have hflush : s.flush play id = taken.rebatch id ⟨e.batch, true⟩ := by
    unfold Session.flush
    rw [he]
    dsimp only
    rw [if_neg hnodes, hfree, (h.holds id e he).restore_take hs]
    rfl
  rw [hflush]
  refine ⟨⟨rfl, rfl, rfl, rfl, rfl⟩, rfl, fun other => ?_, rfl⟩
  rw [lookup_rebatch, engine?_modifyEngine, engine?_modifyEngine]
  by_cases hid : other = id
  · simp [hid, he]
  · rw [if_neg hid, if_neg hid]

end Flush

section Jobs

-- The engine of a flush is at work for a while, and its owners keep it.
theorem runJob_flush (h : s.Owned) (he : s.engine? id = some e)
    (hb : Beside (s.working id) ((s.working id).flush play id)) :
    runJob play (.flush id) s = { (s.working id).flush play id with busy := s.busy } := by
  have hbusy : ((s.working id).flush play id).busy.erase id = s.busy := by
    rw [hb.busy]
    exact List.erase_cons_head id s.busy
  have hheld : Held { (s.working id).flush play id with
      busy := ((s.working id).flush play id).busy.erase id } id := by
    have hold := h.held id e he
    unfold Held at hold ⊢
    rw [hbusy]
    rwa [hb.names]
  have hrun : runJob play (.flush id) s = endUnused id { (s.working id).flush play id with
      busy := ((s.working id).flush play id).busy.erase id } := by
    unfold runJob
    dsimp only
    rw [he]
    rfl
  rw [hrun, endUnused_of_held hheld, hbusy]

theorem runJob_of_ended (hnone : s.engine? id = none) : runJob play (.flush id) s = s := by
  simp [runJob, hnone]

theorem Steady.served (h : s.Steady due arrived) (he : s.engine? id = some e)
    (hfree : s.access = .free) : Served id e s (runJob play (.flush id) s) := by
  have hs := flush_served (s := s.working id) play
    ⟨h.lined.orderly.numbered, h.lined.orderly.ready⟩ h.wired.scriptless he hfree
  rw [runJob_flush h.owned he hs.toBeside]
  exact ⟨⟨hs.access, hs.listeners, hs.nextEngine, rfl, hs.names⟩, hs.document, hs.engine?,
    hs.pending⟩

theorem Steady.postponed (h : s.Steady (.flush id :: rest) arrived) (he : s.engine? id = some e)
    (hheld : s.access ≠ .free) : Postponed id s (runJob play (.flush id) s) := by
  have hl : (s.working id).Lined (.flush id :: rest) arrived :=
    h.lined.of_engines rfl rfl fun _ e he => ⟨e, he, rfl, rfl⟩
  have hs := flush_postponed play hl he hheld
  rw [runJob_flush h.owned he hs.toBeside]
  exact ⟨⟨hs.access, hs.listeners, hs.nextEngine, rfl, hs.names⟩, hs.document, hs.engine?,
    hs.pending⟩

-- The foremost job is out of the way.
theorem Lined.tail (h : s.Lined (.flush id :: rest) arrived) (hid : s.engine? id = none) :
    s.Lined rest arrived where
  born := h.born
  unborn := h.unborn
  idle := h.idle
  holds := h.holds
  queued other e he := by
    have hne : ¬(FrameJob.flush id).flushes other = true := fun hf => by
      have hsame : id = other := (FrameJob.flushes_flush other id).mp hf
      simp [← hsame, hid] at he
    have hcount := h.queued other e he
    rwa [List.cons_append, List.countP_cons_of_neg hne] at hcount
  jobs job hj := h.jobs job (List.mem_cons_of_mem _ hj)

theorem Lined.after_served (h : s.Lined (.flush id :: rest) arrived)
    (he : s.engine? id = some e) (hs : Served id e s s') :
    s'.Lined rest (Function.update arrived id []) where
  born other e' he' := by
    rw [hs.nextEngine]
    rw [hs.engine?] at he'
    split at he'
    · rename_i ho
      exact ho ▸ h.born id e he
    · exact h.born other e' he'
  unborn other hle := by
    rw [hs.nextEngine] at hle
    by_cases ho : other = id
    · rw [ho, Function.update_self]
    · rw [Function.update_of_ne ho]
      exact h.unborn other hle
  idle other e' he' := by
    rw [hs.engine?] at he'
    split at he'
    · rw [← Option.some.inj he']
      exact h.idle id e he
    · exact h.idle other e' he'
  holds other e' he' := by
    rw [hs.engine?] at he'
    split at he'
    · rename_i ho
      rw [← Option.some.inj he', ho, Function.update_self]
      exact Batch.holds_empty
    · rename_i ho
      rw [Function.update_of_ne ho]
      exact h.holds other e' he'
  queued other e' he' := by
    rw [hs.pending]
    rw [hs.engine?] at he'
    split at he'
    · rename_i ho
      have hcount := h.queued id e he
      rw [List.cons_append, List.countP_cons_of_pos ((FrameJob.flushes_flush id id).mpr rfl),
        if_pos (h.scheduled he)] at hcount
      rw [← Option.some.inj he', ho]
      exact Nat.succ.inj hcount
    · rename_i ho
      have hne : ¬(FrameJob.flush id).flushes other = true := fun hf =>
        ho ((FrameJob.flushes_flush other id).mp hf).symm
      have hcount := h.queued other e' he'
      rwa [List.cons_append, List.countP_cons_of_neg hne] at hcount
  jobs job hj := by
    rw [hs.pending] at hj
    rw [hs.nextEngine]
    exact h.jobs job (List.mem_cons_of_mem _ hj)

theorem Lined.after_postponed (h : s.Lined (.flush id :: rest) arrived)
    (hs : Postponed id s s') : s'.Lined rest arrived where
  born other e' he' := by
    rw [hs.nextEngine]
    exact h.born other e' (hs.engine? other ▸ he')
  unborn := by
    rw [hs.nextEngine]
    exact h.unborn
  idle other e' he' := h.idle other e' (hs.engine? other ▸ he')
  holds other e' he' := h.holds other e' (hs.engine? other ▸ he')
  queued other e' he' := by
    rw [hs.pending, ← h.queued other e' (hs.engine? other ▸ he')]
    simp only [List.cons_append, List.countP_append, List.countP_cons, List.countP_nil]
    exact Nat.add_assoc _ _ _ ▸ Nat.zero_add _ ▸ rfl
  jobs job hj := by
    rw [hs.pending, ← List.append_assoc, List.mem_append, List.mem_singleton] at hj
    rw [hs.nextEngine]
    rcases hj with hj | rfl
    · exact h.jobs job (List.mem_cons_of_mem _ hj)
    · exact h.jobs _ List.mem_cons_self

theorem Steady.after_served (h : s.Steady (.flush id :: rest) arrived)
    (he : s.engine? id = some e) (hs : Served id e s s') :
    s'.Steady rest (Function.update arrived id []) := by
  have hreg : s'.document.registry = s.document.registry := by
    rw [hs.document]
    have hfold : ∀ (locale : Locale) (nodes : List NodeId) (d : Document),
        (nodes.foldl (fun d node => (e.translate locale node d).document) d).registry =
          d.registry := by
      intro locale nodes
      induction nodes with
      | nil => exact fun _ => rfl
      | cons node nodes ih =>
          exact fun d => (ih _).trans (Engine.tacit_translate e locale node d).1
    exact hfold _ _ _
  refine ⟨h.wired.of_engines hreg hs.listeners hs.nextEngine fun other e' he' => ?_,
    h.lined.after_served he hs, h.owned.of_engines hs.names hs.busy fun other hsome => ?_⟩
  · rw [hs.engine?] at he'
    split at he'
    · rename_i ho
      exact ⟨e, ho ▸ he, by rw [← Option.some.inj he']⟩
    · exact ⟨e', he', rfl⟩
  · rw [hs.engine?] at hsome
    split at hsome
    · rename_i ho
      rw [ho, he]
      rfl
    · exact hsome

theorem Steady.after_postponed (h : s.Steady (.flush id :: rest) arrived)
    (hs : Postponed id s s') : s'.Steady rest arrived where
  wired := h.wired.of_engines (by rw [hs.document]) hs.listeners hs.nextEngine fun other e' he' =>
    ⟨e', hs.engine? other ▸ he', rfl⟩
  lined := h.lined.after_postponed hs
  owned := h.owned.of_engines hs.names hs.busy fun other hsome => hs.engine? other ▸ hsome

-- The first jobs of a frame that has the page. Engines that are not due stay as they are.
theorem Steady.runJobs_free (play : Play) (h : s.Steady (before ++ rest) arrived)
    (hfree : s.access = .free) :
    let after := before.foldl (fun s job => runJob play job s) s
    ∃ left, after.Steady rest left ∧ after.access = .free ∧
      after.frames.pending = s.frames.pending ∧
      ∀ id, (∀ job ∈ before, job.flushes id = false) →
        after.engine? id = s.engine? id ∧ left id = arrived id := by
  induction before generalizing s arrived with
  | nil => exact ⟨arrived, h, hfree, rfl, fun _ _ => ⟨rfl, rfl⟩⟩
  | cons job before ih =>
      obtain ⟨id, -, rfl⟩ := h.lined.jobs _ List.mem_cons_self
      cases he : s.engine? id with
      | none =>
          have hrest : s.Steady (before ++ rest) arrived := ⟨h.wired, h.lined.tail he, h.owned⟩
          obtain ⟨left, hleft, hacc, hpend, hkeep⟩ := ih hrest hfree
          rw [List.foldl_cons, runJob_of_ended he]
          exact ⟨left, hleft, hacc, hpend, fun other ho =>
            hkeep other fun job hj => ho job (List.mem_cons_of_mem _ hj)⟩
      | some e =>
          have hs : Served id e s (runJob play (.flush id) s) := h.served he hfree
          obtain ⟨left, hleft, hacc, hpend, hkeep⟩ :=
            ih (h.after_served he hs) (hs.access.trans hfree)
          refine ⟨left, hleft, hacc, hpend.trans hs.pending, fun other ho => ?_⟩
          have hne : other ≠ id := fun hid => by
            have hf := ho _ List.mem_cons_self
            simp [FrameJob.flushes, hid] at hf
          obtain ⟨hengine, hsame⟩ := hkeep other fun job hj => ho job (List.mem_cons_of_mem _ hj)
          rw [hs.engine?, if_neg hne] at hengine
          rw [Function.update_of_ne hne] at hsame
          exact ⟨hengine, hsame⟩

-- Without the page, nothing comes of a frame.
theorem Steady.runJobs_held (play : Play) (h : s.Steady (before ++ rest) arrived)
    (hheld : s.access ≠ .free) :
    let after := before.foldl (fun s job => runJob play job s) s
    after.Steady rest arrived ∧ after.document = s.document ∧
      ∀ id, after.engine? id = s.engine? id := by
  induction before generalizing s with
  | nil => exact ⟨h, rfl, fun _ => rfl⟩
  | cons job before ih =>
      obtain ⟨id, -, rfl⟩ := h.lined.jobs _ List.mem_cons_self
      cases he : s.engine? id with
      | none =>
          have hrest : s.Steady (before ++ rest) arrived := ⟨h.wired, h.lined.tail he, h.owned⟩
          rw [List.foldl_cons, runJob_of_ended he]
          exact ih hrest hheld
      | some e =>
          have hs : Postponed id s (runJob play (.flush id) s) := h.postponed he hheld
          obtain ⟨hdone, hdoc, hkeep⟩ := ih (h.after_postponed hs) fun hf =>
            hheld (hs.access.symm.trans hf)
          exact ⟨hdone, hdoc.trans hs.document, fun other =>
            (hkeep other).trans (hs.engine? other)⟩

end Jobs

section Frame

-- A frame begins: what waits is due, and nothing waits for the next one.
def begun (s : Session) : Session := { s with frames := { s.frames with pending := [] } }

theorem runFrame_eq (play : Play) (s : Session) :
    let after := s.frames.pending.foldl (fun s job => runJob play job s) s.begun
    (s.runFrame play).2 =
      { after with frames := { after.frames with count := after.frames.count + 1 } } := rfl

theorem Steady.begun (h : s.Steady [] arrived) : s.begun.Steady s.frames.pending arrived where
  wired := h.wired.of_engines rfl rfl rfl fun _ e he => ⟨e, he, rfl⟩
  lined :=
    { born := h.lined.born
      unborn := h.lined.unborn
      idle := h.lined.idle
      holds := h.lined.holds
      queued := fun id e he => by
        have hnil : s.begun.frames.pending = [] := rfl
        rw [hnil, List.append_nil]
        exact h.lined.queued id e he
      jobs := fun job hj => by
        have hnil : s.begun.frames.pending = [] := rfl
        rw [hnil, List.append_nil] at hj
        exact h.lined.jobs job hj }
  owned := h.owned.of_engines rfl rfl fun _ he => he

theorem Steady.counted (h : s.Steady due arrived) (n : Nat) :
    Steady due arrived { s with frames := { s.frames with count := n } } where
  wired := h.wired.of_engines rfl rfl rfl fun _ e he => ⟨e, he, rfl⟩
  lined := h.lined.of_engines rfl rfl fun _ e he => ⟨e, he, rfl, rfl⟩
  owned := h.owned.of_engines rfl rfl fun _ he => he

-- Nothing has come to an engine for which nothing waits.
theorem Steady.arrived_eq_nil (h : s.Steady due arrived) (he : s.engine? id = some e)
    (hnone : (due ++ s.frames.pending).countP (·.flushes id) = 0) : arrived id = [] := by
  have hcount := h.lined.queued id e he
  rw [hnone] at hcount
  by_contra hne
  rw [if_pos ((h.lined.holds id e he).scheduled.mpr hne)] at hcount
  exact absurd hcount (Nat.zero_ne_one)

theorem Steady.runFrame_free (h : s.Steady [] arrived) (hfree : s.access = .free) :
    (s.runFrame play).2.Steady [] fun _ => [] := by
  have hbegun : s.begun.Steady (s.frames.pending ++ []) arrived := by
    rw [List.append_nil]
    exact h.begun
  obtain ⟨left, hdone, -, hpend, -⟩ := hbegun.runJobs_free play hfree
  rw [runFrame_eq]
  refine (hdone.of_live (fun id hsome => ?_) fun _ _ => rfl).counted _
  obtain ⟨e, he⟩ := Option.isSome_iff_exists.mp hsome
  exact (hdone.arrived_eq_nil he (by rw [hpend]; rfl)).symm

theorem Steady.runFrame_held (play : Play) (h : s.Steady [] arrived) (hheld : s.access ≠ .free) :
    (s.runFrame play).2.Steady [] arrived ∧ (s.runFrame play).2.document = s.document ∧
      ∀ id, (s.runFrame play).2.engine? id = s.engine? id := by
  have hbegun : s.begun.Steady (s.frames.pending ++ []) arrived := by
    rw [List.append_nil]
    exact h.begun
  obtain ⟨hdone, hdoc, hkeep⟩ := hbegun.runJobs_held play hheld
  rw [runFrame_eq]
  exact ⟨hdone.counted _, hdoc, hkeep⟩

end Frame

end PageLocalizer.Session
