import PageLocalizer.Proofs.Batch
import PageLocalizer.Proofs.Document.Registrations
import PageLocalizer.Proofs.Session.Stillness

-- What holds between the steps of a session whose engines are called from outside only: who is
-- registered, what waits for the next frame, and who keeps the engines alive.
namespace PageLocalizer

def FrameJob.flushes (id : EngineId) : FrameJob → Bool
  | .flush other => other = id
  | .script _ _ => false

theorem FrameJob.flushes_flush (id other : EngineId) :
    (FrameJob.flush other).flushes id = true ↔ other = id := by simp [flushes]

namespace Session

-- How often a flush of the engine waits for the next frame.
def queued (s : Session) (id : EngineId) : Nat := s.frames.pending.countP (·.flushes id)

-- Live engines that watch are registered for the body, once, and nobody else is in their name.
structure Wired (s : Session) : Prop where
  numbered : s.document.Numbered
  listeners : ∀ o l, s.listeners.lookup o = some l →
    o < s.document.nextObserver ∧ ∃ id < s.nextEngine, l = .engine id
  registered : ∀ id e o, s.engine? id = some e → e.observer = some o →
    ⟨o, Document.body⟩ ∈ s.document.observers ∧ s.listeners.lookup o = some (.engine id)
  own : ∀ r ∈ s.document.observers, ∀ id e, s.listeners.lookup r.id = some (.engine id) →
    s.engine? id = some e → e.observer = some r.id

-- What waits, in the middle of a frame whose jobs `due` are still to be run. `arrived` tells which
-- elements have come to an engine since its last flush.
structure Lined (due : List FrameJob) (arrived : EngineId → List NodeId) (s : Session) :
    Prop where
  born : ∀ id e, s.engine? id = some e → id < s.nextEngine
  unborn : ∀ id, s.nextEngine ≤ id → arrived id = []
  idle : ∀ id e, s.engine? id = some e → e.guard.active = false
  holds : ∀ id e, s.engine? id = some e → e.batch.Holds (arrived id)
  queued : ∀ id e, s.engine? id = some e →
    (due ++ s.frames.pending).countP (·.flushes id) = if e.batch.scheduled = true then 1 else 0
  jobs : ∀ job ∈ due ++ s.frames.pending, ∃ id < s.nextEngine, job = .flush id

-- An engine that somebody has a name for, or that is at work.
def Held (s : Session) (id : EngineId) : Prop :=
  s.names.engines.any (·.2 = id) = true ∨ id ∈ s.busy

structure Owned (s : Session) : Prop where
  distinct : (s.names.engines.map Prod.fst).Nodup
  held : ∀ id e, s.engine? id = some e → s.Held id

structure Steady (due : List FrameJob) (arrived : EngineId → List NodeId) (s : Session) :
    Prop where
  wired : s.Wired
  lined : s.Lined due arrived
  owned : s.Owned

variable {s s' : Session} {due : List FrameJob} {arrived : EngineId → List NodeId}
  {id : EngineId} {e : Engine} {play : Play}

section Transfer

theorem Wired.scriptless (h : s.Wired) : s.Scriptless := fun o l hl => by
  obtain ⟨-, id, -, he⟩ := h.listeners o l hl
  exact ⟨id, he⟩

theorem Wired.of_engines (h : s.Wired) (hr : s'.document.registry = s.document.registry)
    (hl : s'.listeners = s.listeners) (hn : s'.nextEngine = s.nextEngine)
    (he : ∀ id e', s'.engine? id = some e' →
      ∃ e, s.engine? id = some e ∧ e'.observer = e.observer) : s'.Wired where
  numbered := h.numbered.of_registry hr
  listeners := by
    rw [hl, hn, Document.nextObserver_of_registry hr]
    exact h.listeners
  registered id e' o hid ho := by
    obtain ⟨e, hs, hobs⟩ := he id e' hid
    rw [hl, Document.observers_of_registry hr]
    exact h.registered id e o hs (hobs ▸ ho)
  own r hm id e' hlook hid := by
    obtain ⟨e, hs, hobs⟩ := he id e' hid
    rw [hl] at hlook
    rw [Document.observers_of_registry hr] at hm
    exact hobs ▸ h.own r hm id e hlook hs

theorem Lined.orderly (h : s.Lined due arrived) : s.Orderly where
  numbered := h.born
  ready id e he hn := by
    by_contra hs
    exact hn ((h.holds id e he).nodes_eq_nil_iff.mpr (by simpa using hs))

theorem Lined.of_engines (h : s.Lined due arrived)
    (hf : s'.frames.pending = s.frames.pending)
    (hn : s'.nextEngine = s.nextEngine)
    (he : ∀ id e', s'.engine? id = some e' →
      ∃ e, s.engine? id = some e ∧ e'.batch = e.batch ∧ e'.guard = e.guard) :
    s'.Lined due arrived where
  born id e' hid := by
    obtain ⟨e, hs, -⟩ := he id e' hid
    rw [hn]
    exact h.born id e hs
  unborn := by
    rw [hn]
    exact h.unborn
  idle id e' hid := by
    obtain ⟨e, hs, -, hg⟩ := he id e' hid
    rw [hg]
    exact h.idle id e hs
  holds id e' hid := by
    obtain ⟨e, hs, hb, -⟩ := he id e' hid
    rw [hb]
    exact h.holds id e hs
  queued id e' hid := by
    obtain ⟨e, hs, hb, -⟩ := he id e' hid
    rw [hb, hf]
    exact h.queued id e hs
  jobs := by
    rw [hf, hn]
    exact h.jobs

theorem Owned.of_engines (h : s.Owned) (hn : s'.names = s.names) (hb : s'.busy = s.busy)
    (he : ∀ id, (s'.engine? id).isSome → (s.engine? id).isSome) : s'.Owned where
  distinct := by
    rw [hn]
    exact h.distinct
  held id e' hid := by
    obtain ⟨e, hs⟩ := Option.isSome_iff_exists.mp (he id (by simp [hid]))
    have hheld := h.held id e hs
    unfold Held at hheld ⊢
    rwa [hn, hb]

theorem Steady.of_still (h : s.Steady due arrived) (hs : Still s s')
    (hr : s'.document.registry = s.document.registry) : s'.Steady due arrived where
  wired := h.wired.of_engines hr hs.listeners hs.nextEngine fun id e' hid =>
    ⟨e', (hs.engine? id).symm.trans hid, rfl⟩
  lined := h.lined.of_engines (congrArg Frames.pending hs.frames) hs.nextEngine fun id e' hid =>
    ⟨e', (hs.engine? id).symm.trans hid, rfl, rfl⟩
  owned := h.owned.of_engines hs.names hs.busy fun id hid => by rwa [hs.engine? id] at hid

theorem Steady.modifyEngine {f : Engine → Engine} (h : s.Steady due arrived)
    (hf : ∀ e, (f e).observer = e.observer ∧ (f e).batch = e.batch ∧ (f e).guard = e.guard) :
    (s.modifyEngine id f).Steady due arrived := by
  have hlook : ∀ other e', (s.modifyEngine id f).engine? other = some e' →
      ∃ e, s.engine? other = some e ∧ e'.observer = e.observer ∧ e'.batch = e.batch ∧
        e'.guard = e.guard := by
    intro other e' he'
    obtain ⟨e, he, rfl⟩ := engine?_of_modifyEngine he'
    refine ⟨e, he, ?_⟩
    split
    · exact hf e
    · exact ⟨rfl, rfl, rfl⟩
  constructor
  · refine h.wired.of_engines rfl rfl rfl fun other e' he' => ?_
    obtain ⟨e, he, ho, -⟩ := hlook other e' he'
    exact ⟨e, he, ho⟩
  · refine h.lined.of_engines rfl rfl fun other e' he' => ?_
    obtain ⟨e, he, -, hb, hg⟩ := hlook other e' he'
    exact ⟨e, he, hb, hg⟩
  · exact h.owned.of_engines rfl rfl fun other hid => by rwa [isSome_modifyEngine] at hid

-- What came to engines that have ended does not matter.
theorem Steady.of_live {others : EngineId → List NodeId} (h : s.Steady due arrived)
    (he : ∀ id, (s.engine? id).isSome → others id = arrived id)
    (hu : ∀ id, s.nextEngine ≤ id → others id = []) : s.Steady due others where
  wired := h.wired
  lined :=
    { h.lined with
      unborn := hu
      holds := fun id e hid => by
        rw [he id (by simp [hid])]
        exact h.lined.holds id e hid }
  owned := h.owned

theorem Steady.of_eq {others : EngineId → List NodeId} (h : s.Steady due arrived)
    (he : ∀ id, others id = arrived id) : s.Steady due others :=
  h.of_live (fun id _ => he id) fun id hid => (he id).trans (h.lined.unborn id hid)

theorem Steady.access (h : s.Steady due arrived) (a : Access) :
    Steady due arrived { s with access := a } where
  wired := h.wired.of_engines rfl rfl rfl fun _ e he => ⟨e, he, rfl⟩
  lined := h.lined.of_engines rfl rfl fun _ e he => ⟨e, he, rfl, rfl⟩
  owned := h.owned.of_engines rfl rfl fun _ he => he

end Transfer

section Writing

variable (h : s.Steady due arrived)

include h

theorem Steady.guardedWrite {edit : Edit Unit} (hp : Edit.Plain edit) (ht : Edit.Tacit edit)
    (id : EngineId) : (s.guardedWrite play id edit).Steady due arrived := by
  by_cases hfree : s.access = .free
  · cases he : s.engine? id with
    | none =>
        have hsame : s.guardedWrite play id edit = s := by
          simp [Session.guardedWrite, he]
        rwa [hsame]
    | some e =>
        obtain ⟨hs, hdoc⟩ := still_guardedWrite h.lined.orderly
          h.wired.scriptless hfree he hp
        exact h.of_still hs (by rw [hdoc, (ht s.document).1])
  · have hsame : s.guardedWrite play id edit = s := by
      have hnot : s.isFree = false := by
        rw [Bool.eq_false_iff]
        exact fun hf => hfree (isFree_iff.mp hf)
      simp [Session.guardedWrite, hnot]
    rwa [hsame]

theorem Steady.applyTo (id : EngineId) (root : Option NodeId) (locale : Option Locale) :
    (s.applyTo play id root locale).Steady due arrived := by
  unfold Session.applyTo
  split
  · exact h.guardedWrite (Engine.plain_translate _ _ _) (Engine.tacit_translate _ _ _) id
  · exact h

theorem Steady.switchTo (id : EngineId) (locale : Locale) :
    (s.switchTo play id locale).Steady due arrived := by
  unfold Session.switchTo
  split
  · rename_i e _
    have hshown : (s.modifyEngine id ({ · with applied := some locale })).Steady due arrived :=
      h.modifyEngine fun _ => ⟨rfl, rfl, rfl⟩
    have hmarked : ((s.modifyEngine id ({ · with applied := some locale })).guardedWrite play id
        (e.mark locale)).Steady due arrived :=
      hshown.guardedWrite (Engine.plain_mark e locale) (Engine.tacit_mark e locale) id
    obtain ⟨hstill, hdoc⟩ := still_setPreference e.store e.settings.storageKey locale.tag
      ((s.modifyEngine id ({ · with applied := some locale })).guardedWrite play id
        (e.mark locale))
    exact (hmarked.of_still hstill (by rw [hdoc])).applyTo id none _
  · exact h

theorem Steady.setLocale (id : EngineId) (input : Option String) :
    (s.setLocale play id input).2.Steady due arrived := h.switchTo id _

theorem Steady.toggle (id : EngineId) : (s.toggle play id).2.Steady due arrived := by
  unfold Session.toggle
  split
  · exact h.setLocale id _
  · exact h

end Writing

section Watching

theorem engine?_of_setObserver {observer : Option ObserverId} {other : EngineId} {e' : Engine}
    (h : (s.modifyEngine id ({ · with observer })).engine? other = some e') :
    ∃ e, s.engine? other = some e ∧ e'.batch = e.batch ∧ e'.guard = e.guard ∧
      e'.observer = if other = id then observer else e.observer := by
  obtain ⟨e, he, rfl⟩ := engine?_of_modifyEngine h
  refine ⟨e, he, ?_⟩
  split <;> exact ⟨rfl, rfl, rfl⟩

-- With registrations in order, it does not matter who watches.
theorem Steady.setObserver {observer : Option ObserverId} (h : s.Steady due arrived)
    (he : ∀ other, s'.engine? other = (s.modifyEngine id ({ · with observer })).engine? other)
    (hw : s'.Wired) (hf : s'.frames = s.frames) (hn : s'.nextEngine = s.nextEngine)
    (hnames : s'.names = s.names) (hb : s'.busy = s.busy) : s'.Steady due arrived where
  wired := hw
  lined := h.lined.of_engines (congrArg Frames.pending hf) hn fun other e' he' => by
    obtain ⟨e, hs, hbatch, hg, -⟩ := engine?_of_setObserver ((he other).symm.trans he')
    exact ⟨e, hs, hbatch, hg⟩
  owned := h.owned.of_engines hnames hb fun other hs => by
    rwa [he other, isSome_modifyEngine] at hs

-- The engine registers for the body.
theorem Wired.watch (h : s.Wired) (hid : id < s.nextEngine) (he : s.engine? id = some e)
    (hnone : e.observer = none) : Wired
      { s with
        document := (Document.observe Document.body s.document).document
        listeners := s.listeners.set s.document.nextObserver (.engine id)
        engines := s.engines.modify id ({ · with observer := some s.document.nextObserver }) } := by
  have hold : ∀ o, o < s.document.nextObserver → List.lookup o
      (s.listeners.set s.document.nextObserver (.engine id)) = s.listeners.lookup o :=
    fun o ho => Table.lookup_set_of_ne (Nat.ne_of_lt ho) _ _
  refine ⟨h.numbered.observe Document.body, fun o l hl => ?_, fun other e' o he' ho => ?_,
    fun r hr other e' hl he' => ?_⟩
  · by_cases ho : o = s.document.nextObserver
    · subst ho
      rw [Table.lookup_set_self] at hl
      exact ⟨Nat.lt_succ_self _, id, hid, (Option.some.inj hl).symm⟩
    · rw [Table.lookup_set_of_ne ho] at hl
      obtain ⟨hlt, hl⟩ := h.listeners o l hl
      exact ⟨Nat.lt_succ_of_lt hlt, hl⟩
  · obtain ⟨e₁, he₁, -, -, hobs⟩ := engine?_of_setObserver he'
    by_cases hother : other = id
    · rw [hobs, if_pos hother, Option.some.injEq] at ho
      subst ho hother
      exact ⟨List.mem_append_right _ List.mem_cons_self, Table.lookup_set_self _ _ _⟩
    · rw [hobs, if_neg hother] at ho
      obtain ⟨hm, hl⟩ := h.registered other e₁ o he₁ ho
      refine ⟨List.mem_append_left _ hm, ?_⟩
      rw [hold o (h.listeners o _ hl).1, hl]
  · obtain ⟨e₁, he₁, -, -, hobs⟩ := engine?_of_setObserver he'
    rcases List.mem_append.mp hr with hr | hr
    · rw [hold r.id (h.numbered.bounded r hr)] at hl
      have hown := h.own r hr other e₁ hl he₁
      by_cases hother : other = id
      · rw [hother, he, Option.some.injEq] at he₁
        simp [← he₁, hnone] at hown
      · rw [hobs, if_neg hother, hown]
    · rw [List.mem_singleton.mp hr, Table.lookup_set_self] at hl
      have hother : id = other := by simpa using hl
      rw [List.mem_singleton.mp hr, hobs, if_pos hother.symm]

theorem Steady.watch (h : s.Steady due arrived) (id : EngineId) :
    (s.watch id).Steady due arrived := by
  unfold Session.watch
  split
  · rename_i e he
    split
    · exact h
    · rename_i hwatch
      have hnone : e.observer = none := by
        rw [not_or] at hwatch
        simpa using hwatch.1
      exact h.setObserver (fun _ => rfl) (h.wired.watch (h.lined.born id e he) he hnone) rfl rfl
        rfl rfl
  · exact h

-- A registration that no live engine holds can go.
theorem Wired.disconnect (h : s.Wired) {o : ObserverId}
    (ho : ∀ id e, s.engine? id = some e → e.observer ≠ some o) : (s.disconnect o).Wired where
  numbered := h.numbered.disconnect o
  listeners := h.listeners
  registered id e o' he ho' := by
    obtain ⟨hm, hl⟩ := h.registered id e o' he ho'
    refine ⟨List.mem_filter.mpr ⟨hm, ?_⟩, hl⟩
    have hne : o' ≠ o := fun h' => ho id e he (h' ▸ ho')
    simpa using hne
  own r hr id e hl he := h.own r (List.mem_filter.mp hr).1 id e hl he

-- The engine gives up its registration.
theorem Wired.unwatch (h : s.Wired) (he : s.engine? id = some e) {o : ObserverId}
    (ho : e.observer = some o) :
    ((s.disconnect o).modifyEngine id ({ · with observer := none })).Wired := by
  refine ⟨h.numbered.disconnect o, h.listeners, fun other e' o' he' ho' => ?_,
    fun r hr other e' hl he' => ?_⟩
  · obtain ⟨e₁, he₁, -, -, hobs⟩ := engine?_of_setObserver he'
    by_cases hid : other = id
    · simp [hobs, hid] at ho'
    · rw [hobs, if_neg hid] at ho'
      obtain ⟨hm, hl⟩ := h.registered other e₁ o' he₁ ho'
      refine ⟨List.mem_filter.mpr ⟨hm, ?_⟩, hl⟩
      have hne : o' ≠ o := by
        rintro rfl
        have hsame := (h.registered id e o' he ho).2
        rw [hl] at hsame
        exact hid (by simpa using hsame)
      simpa using hne
  · obtain ⟨e₁, he₁, -, -, hobs⟩ := engine?_of_setObserver he'
    obtain ⟨hm, hne⟩ := List.mem_filter.mp hr
    have hown := h.own r hm other e₁ hl he₁
    by_cases hid : other = id
    · rw [hid] at he₁
      have hsame : e = e₁ := Option.some.inj (he.symm.trans he₁)
      rw [← hsame, ho, Option.some.injEq] at hown
      simp [hown] at hne
    · rw [hobs, if_neg hid, hown]

theorem Steady.unwatch (h : s.Steady due arrived) (id : EngineId) :
    (s.unwatch id).Steady due arrived := by
  unfold Session.unwatch
  split
  · rename_i o hbind
    obtain ⟨e, he, ho⟩ := Option.bind_eq_some_iff.mp hbind
    split
    · exact h.setObserver (fun _ => rfl) (h.wired.unwatch he ho) rfl rfl rfl rfl
    · exact h
  · exact h

theorem Steady.start (h : s.Steady due arrived) (id : EngineId) :
    (s.start play id).2.Steady due arrived := by
  have hset : (s.setLocale play id none).2.Steady due arrived := h.setLocale id none
  unfold Session.start
  dsimp only
  split
  · dsimp only
    split
    · exact hset.watch id
    · exact hset
  · exact hset

end Watching

end Session
end PageLocalizer
