import PageLocalizer.Proofs.Session.Discretion

-- The states in which a step can begin or an engine can be called, at every depth: between the
-- steps of a script, while somebody holds the page, between the works of a frame, and while an
-- observer is told of a change.
namespace PageLocalizer.Session

-- The first parameter is the engine whose writing is under way, if one is.
inductive Reachable : Option EngineId → Session → Prop where
  | initial : Reachable none .initial
  | step (depth : Nat) (step : Step) : Reachable w s →
      Reachable w (perform (Session.play depth) step s).2
  | log (log : List LogEntry) : Reachable w s → Reachable w { s with log }
  | guard (id : Nat) (g : Guard) : Reachable w s → Reachable w (s.setGuard id g)
  -- An engine is at work.
  | work (id : EngineId) : Reachable w s → Reachable w { s with busy := id :: s.busy }
  | hold (exclusive : Bool) : Reachable w s →
      ¬(s.access = .exclusive ∨ (exclusive ∧ s.access = .shared)) →
      Reachable w { s with access := if exclusive then .exclusive else .shared }
  -- A frame begins, and one of its works is done.
  | frame : Reachable w s → Reachable w { s with frames := { s.frames with pending := [] } }
  | job (depth : Nat) (job : FrameJob) : Reachable w s →
      Reachable w (runJob (Session.play depth) job s)
  -- An observer is told of a change that somebody makes, or an engine.
  | edited {α : Type} (depth : Nat) (edit : Edit α) : Reachable w s → s.access = .free →
      t ∈ writeTellings (Session.play depth) edit s → Reachable w t.session
  | called (depth : Nat) (id : EngineId) (call : EngineCall) : Reachable w s →
      t ∈ call.tellings (Session.play depth) id s → Reachable (some id) t.session

variable {s s' : Session} {w : Option EngineId} {id : EngineId}

theorem Reachable.play (h : Reachable w s) (depth : Nat) (steps : List Step) :
    Reachable w (Session.play depth steps s).2 := by
  cases depth with
  | zero => exact h
  | succ depth =>
      unfold Session.play
      induction steps generalizing s with
      | nil => exact h
      | cons step rest ih => exact ih (h.step depth step)

-- A guard is up exactly while its engine writes, and then nobody else has the page.
structure Guarded (w : Option EngineId) (s : Session) : Prop where
  orderly : s.Orderly
  active_iff : ∀ id e, s.engine? id = some e → (e.guard.active = true ↔ w = some id)
  writer : ∀ id, w = some id → id < s.nextEngine ∧ s.access = .exclusive

theorem Guarded.course (hg : Guarded w s) (hc : Course s s') : Guarded w s' where
  orderly := hc.orderly hg.orderly
  active_iff id e' he' := by
    rcases hc.guard id e' he' with ⟨e, he, hguard⟩ | ⟨hnew, hguard⟩
    · rw [hguard]
      exact hg.active_iff id e he
    · rw [hguard]
      refine ⟨fun h => by simp [Guard.idle] at h, fun hw => ?_⟩
      exact absurd (hg.writer id hw).1 (Nat.not_lt_of_le hnew)
  writer id hw := by
    obtain ⟨hlt, hacc⟩ := hg.writer id hw
    exact ⟨Nat.lt_of_lt_of_le hlt hc.nextEngine, hc.access.trans hacc⟩

theorem Guarded.of_engines (hg : Guarded w s) (he : s'.engines = s.engines)
    (hn : s'.nextEngine = s.nextEngine) (ha : s'.access = s.access ∨ s.access ≠ .exclusive) :
    Guarded w s' := by
  have hlook : ∀ id, s'.engine? id = s.engine? id := fun id => by rw [engine?, he, engine?]
  constructor
  · exact ⟨fun id e h => by rw [hn]; exact hg.orderly.numbered id e (hlook id ▸ h),
      fun id e h => hg.orderly.ready id e (hlook id ▸ h)⟩
  · exact fun id e h => hg.active_iff id e (hlook id ▸ h)
  · intro id hw
    obtain ⟨hlt, hacc⟩ := hg.writer id hw
    rcases ha with ha | ha
    · exact ⟨hn ▸ hlt, ha.trans hacc⟩
    · exact absurd hacc ha

-- With the page free, nobody writes.
theorem Guarded.eq_none (hg : Guarded w s) (hs : s.access = .free) : w = none := by
  cases hw : w with
  | none => rfl
  | some id =>
      have hacc := (hg.writer id hw).2
      simp [hs] at hacc

theorem Guarded.raised {before raised : Session} (hg : Guarded w before)
    (hr : Raised id before raised) : Guarded (some id) raised := by
  have hnone := hg.eq_none hr.free
  have hlook : ∀ other, raised.engine? other =
      (before.modifyEngine id ({ · with guard := ⟨true⟩ })).engine? other := fun other => by
    rw [engine?, hr.engines, engine?]
  obtain ⟨e, he⟩ := Option.isSome_iff_exists.mp hr.engine
  constructor
  · have ho : (before.modifyEngine id ({ · with guard := ⟨true⟩ })).Orderly :=
      hg.orderly.modifyEngine fun e he => hg.orderly.ready id e he
    refine ⟨fun other e' h => ?_, fun other e' h => ho.ready other e' (hlook other ▸ h)⟩
    rw [hr.nextEngine]
    exact ho.numbered other e' (hlook other ▸ h)
  · intro other e' h
    rw [hlook] at h
    obtain ⟨e₁, he₁, rfl⟩ := engine?_of_modifyEngine h
    by_cases hid : other = id
    · simp [hid]
    · have hidle := hg.active_iff other e₁ he₁
      rw [hnone] at hidle
      simpa [hid, Ne.symm hid] using hidle
  · intro other hother
    rw [← Option.some.inj hother, hr.nextEngine]
    exact ⟨hg.orderly.numbered id e he, hr.access⟩

theorem Guarded.within (hg : Guarded w s) {t : Telling} (ht : Within id s t) :
    Guarded (some id) t.session := by
  obtain ⟨before, raised, hb, hr, hc⟩ := ht.raised
  exact ((hg.course hb).raised hr).course hc

theorem guarded_of_reachable (h : Reachable w s) : Guarded w s := by
  induction h with
  | initial => exact ⟨⟨fun id e h => by simp [engine?, initial] at h,
      fun id e h => by simp [engine?, initial] at h⟩,
      fun id e h => by simp [engine?, initial] at h, fun id h => by simp at h⟩
  | step depth step _ ih => exact ih.course (course_perform depth step _)
  | log log _ ih => exact ih.of_engines rfl rfl (Or.inl rfl)
  | guard id g _ ih => exact ih.of_engines rfl rfl (Or.inl rfl)
  | work id _ ih => exact ih.of_engines rfl rfl (Or.inl rfl)
  | hold exclusive _ hfree ih =>
      exact ih.of_engines rfl rfl (Or.inr fun h => hfree (Or.inl h))
  | frame _ ih => exact ih.of_engines rfl rfl (Or.inl rfl)
  | job depth job _ ih => exact ih.course (course_runJob (courteous_play depth) job _)
  | @edited _ s _ _ depth edit _ hfree ht ih =>
      have hne : s.access ≠ .exclusive := by simp [hfree]
      refine Guarded.course ?_ (course_tellings (courteous_play depth) ht).2
      exact ih.of_engines rfl rfl (Or.inr hne)
  | called depth id call _ ht ih =>
      exact ih.within (EngineCall.within_of_call (courteous_play depth) ht)

end PageLocalizer.Session
