import PageLocalizer.Proofs.Session.Moves

-- What no step of a session does, whatever scripts it runs on the way: it gives the page back as
-- it found it, ends no engine that is at work, leaves every guard as it was, and lets no batch
-- wait without a frame.
namespace PageLocalizer

-- A batch with nodes has its frame.
def Batch.Ready (b : Batch) : Prop := b.nodes ≠ [] → b.scheduled = true

theorem Batch.ready_empty : Batch.empty.Ready := fun h => absurd rfl h

theorem Batch.ready_fill (b : Batch) (nodes : List NodeId) : (b.fill nodes).batch.Ready := by
  unfold fill
  split
  · rename_i h
    exact fun hn => h.resolve_left hn
  · exact fun _ => rfl

theorem Batch.ready_record {b : Batch} (hb : b.Ready) (d : Document) (records : List Record)
    (guard : Guard) : (b.record d records guard).batch.Ready := by
  unfold record
  split
  · exact hb
  · exact b.ready_fill _

namespace Session

variable {s s' s'' : Session} {id other : EngineId} {play : Play}

-- Engines are numbered as they come, and no batch waits without a frame.
structure Orderly (s : Session) : Prop where
  numbered : ∀ id e, s.engine? id = some e → id < s.nextEngine
  ready : ∀ id e, s.engine? id = some e → e.batch.Ready

structure Course (s s' : Session) : Prop where
  access : s'.access = s.access
  busy : s'.busy = s.busy
  nextEngine : s.nextEngine ≤ s'.nextEngine
  stays : ∀ id ∈ s.busy, (s.engine? id).isSome → (s'.engine? id).isSome
  guard : ∀ id e', s'.engine? id = some e' →
    (∃ e, s.engine? id = some e ∧ e'.guard = e.guard) ∨
      (s.nextEngine ≤ id ∧ e'.guard = .idle)
  orderly : s.Orderly → s'.Orderly

theorem Course.trans (h : Course s s') (h' : Course s' s'') : Course s s'' where
  access := h'.access.trans h.access
  busy := h'.busy.trans h.busy
  nextEngine := Nat.le_trans h.nextEngine h'.nextEngine
  stays id hid hs := h'.stays id (h.busy ▸ hid) (h.stays id hid hs)
  guard id e'' he := by
    rcases h'.guard id e'' he with ⟨e', he', hg⟩ | ⟨hn, hg⟩
    · rcases h.guard id e' he' with ⟨e, hs, hg'⟩ | ⟨hn, hg'⟩
      · exact Or.inl ⟨e, hs, hg.trans hg'⟩
      · exact Or.inr ⟨hn, hg.trans hg'⟩
    · exact Or.inr ⟨Nat.le_trans h.nextEngine hn, hg⟩
  orderly ho := h'.orderly (h.orderly ho)

-- The engines, and nothing else that matters here, stay the same.
theorem course_of_engines (he : s'.engines = s.engines) (ha : s'.access = s.access)
    (hb : s'.busy = s.busy) (hn : s'.nextEngine = s.nextEngine) : Course s s' := by
  have hlook : ∀ id, s'.engine? id = s.engine? id := fun id => by rw [engine?, he, engine?]
  refine ⟨ha, hb, Nat.le_of_eq hn.symm, fun id _ h => by rwa [hlook], fun id e' h => ?_, ?_⟩
  · exact Or.inl ⟨e', by rwa [← hlook], rfl⟩
  · exact fun ho => ⟨fun id e h => by rw [hn]; exact ho.numbered id e (hlook id ▸ h),
      fun id e h => ho.ready id e (hlook id ▸ h)⟩

theorem Course.refl (s : Session) : Course s s := course_of_engines rfl rfl rfl rfl

theorem Aside.course (h : Aside s s') : Course s s' :=
  course_of_engines h.engines h.access h.busy h.nextEngine

section Engines

variable {f : Engine → Engine} {e : Engine}

theorem engine?_modifyEngine (id other : EngineId) (f : Engine → Engine) (s : Session) :
    (s.modifyEngine id f).engine? other =
      if other = id then (s.engine? other).map f else s.engine? other :=
  Table.lookup_modify id other f s.engines

theorem engine?_of_modifyEngine {e' : Engine}
    (h : (s.modifyEngine id f).engine? other = some e') :
    ∃ e, s.engine? other = some e ∧ e' = if other = id then f e else e := by
  rw [engine?_modifyEngine] at h
  by_cases hid : other = id
  · rw [if_pos hid] at h
    obtain ⟨e, he, rfl⟩ := Option.map_eq_some_iff.mp h
    exact ⟨e, he, (if_pos hid).symm⟩
  · rw [if_neg hid] at h
    exact ⟨e', h, (if_neg hid).symm⟩

theorem isSome_modifyEngine (id other : EngineId) (f : Engine → Engine) (s : Session) :
    ((s.modifyEngine id f).engine? other).isSome = (s.engine? other).isSome := by
  rw [engine?_modifyEngine]
  split <;> simp

theorem Orderly.modifyEngine (ho : s.Orderly)
    (hb : ∀ e, s.engine? id = some e → (f e).batch.Ready) : (s.modifyEngine id f).Orderly where
  numbered other e' h := by
    obtain ⟨e, he, -⟩ := engine?_of_modifyEngine h
    exact ho.numbered other e he
  ready other e' h := by
    obtain ⟨e, he, rfl⟩ := engine?_of_modifyEngine h
    by_cases hid : other = id
    · rw [if_pos hid]
      exact hb e (hid ▸ he)
    · rw [if_neg hid]
      exact ho.ready other e he

theorem course_modifyEngine (hg : ∀ e, (f e).guard = e.guard)
    (hb : s.Orderly → ∀ e, s.engine? id = some e → (f e).batch.Ready) :
    Course s (s.modifyEngine id f) := by
  refine ⟨rfl, rfl, Nat.le_refl _, fun other _ h => ?_, fun other e' h => ?_,
    fun ho => ho.modifyEngine (hb ho)⟩
  · rwa [isSome_modifyEngine]
  · obtain ⟨e, he, rfl⟩ := engine?_of_modifyEngine h
    refine Or.inl ⟨e, he, ?_⟩
    split
    · exact hg e
    · rfl

-- An engine's guard goes up for a while and comes back to what it was.
theorem course_guarded {g : Guard} (he : s.engine? id = some e)
    (h : Course (s.modifyEngine id ({ · with guard := g })) s') :
    Course s (s'.modifyEngine id ({ · with guard := e.guard })) := by
  refine ⟨h.access, h.busy, h.nextEngine, fun other hb hs => ?_, fun other e' hl => ?_,
    fun ho => ?_⟩
  · rw [isSome_modifyEngine]
    exact h.stays other hb (by rwa [isSome_modifyEngine])
  · obtain ⟨e₁, he₁, rfl⟩ := engine?_of_modifyEngine hl
    by_cases hid : other = id
    · rw [if_pos hid]
      exact Or.inl ⟨e, hid ▸ he, rfl⟩
    · rw [if_neg hid]
      rcases h.guard other e₁ he₁ with ⟨e₂, he₂, hg⟩ | hnew
      · rw [engine?_modifyEngine, if_neg hid] at he₂
        exact Or.inl ⟨e₂, he₂, hg⟩
      · exact Or.inr hnew
  · have ho' := h.orderly (ho.modifyEngine fun e he => ho.ready id e he)
    exact ho'.modifyEngine fun e he => ho'.ready id e he

-- The page is somebody's for a while and is given back.
theorem course_held {a : Access} (h : Course { s with access := a } s') :
    Course s { s' with access := s.access } :=
  ⟨rfl, h.busy, h.nextEngine, h.stays, h.guard,
    fun ho => ⟨(h.orderly ⟨ho.numbered, ho.ready⟩).numbered,
      (h.orderly ⟨ho.numbered, ho.ready⟩).ready⟩⟩

theorem engine?_addEngine (e : Engine) (s : Session) (other : EngineId) :
    (s.addEngine e).2.engine? other =
      if other = s.nextEngine then some e else s.engine? other := by
  by_cases h : other = s.nextEngine
  · rw [if_pos h, h]
    exact Table.lookup_set_self s.nextEngine e s.engines
  · rw [if_neg h]
    exact Table.lookup_set_of_ne h e s.engines

theorem course_addEngine (hg : e.guard = .idle) (hb : e.batch.Ready) :
    Course s (s.addEngine e).2 := by
  have hlook := engine?_addEngine e s
  refine ⟨rfl, rfl, Nat.le_succ _, fun other _ h => ?_, fun other e' h => ?_, fun ho => ?_⟩
  · rw [hlook]
    split
    · rfl
    · exact h
  · rw [hlook] at h
    split at h
    · rename_i hn
      exact Or.inr ⟨Nat.le_of_eq hn.symm, by rw [← Option.some.inj h, hg]⟩
    · exact Or.inl ⟨e', h, rfl⟩
  · refine ⟨fun other e' h => ?_, fun other e' h => ?_⟩
    · rw [hlook] at h
      have hnext : (s.addEngine e).2.nextEngine = s.nextEngine + 1 := rfl
      rw [hnext]
      split at h
      · rename_i hn
        exact Nat.lt_succ_of_le (Nat.le_of_eq hn)
      · exact Nat.lt_succ_of_lt (ho.numbered other e' h)
    · rw [hlook] at h
      split at h
      · rw [← Option.some.inj h]
        exact hb
      · exact ho.ready other e' h

theorem engine?_endEngine (id : EngineId) (s : Session) (other : EngineId) :
    engine? { s with engines := s.engines.erase id } other =
      if other = id then none else s.engine? other := by
  by_cases h : other = id
  · rw [if_pos h, h]
    exact Table.lookup_erase_self id s.engines
  · rw [if_neg h]
    exact Table.lookup_erase_of_ne h s.engines

-- Only an engine without work ends.
theorem course_endEngine (hid : id ∉ s.busy) :
    Course s { s with engines := s.engines.erase id } := by
  have hlook := engine?_endEngine id s
  have hold : ∀ other e', engine? { s with engines := s.engines.erase id } other = some e' →
      s.engine? other = some e' := by
    intro other e' h
    rw [hlook] at h
    split at h
    · simp at h
    · exact h
  refine ⟨rfl, rfl, Nat.le_refl _, fun other hb h => ?_,
    fun other e' h => Or.inl ⟨e', hold other e' h, rfl⟩,
    fun ho => ⟨fun other e' h => ho.numbered other e' (hold other e' h),
      fun other e' h => ho.ready other e' (hold other e' h)⟩⟩
  have hne : other ≠ id := by
    rintro rfl
    exact hid hb
  rwa [hlook, if_neg hne]

end Engines

-- Whatever scripts run, they keep to the course.
def Courteous (play : Play) : Prop := ∀ steps s, Course s (play steps s).2

section Moves

theorem course_request (s : Session) (job : FrameJob) : Course s (Frames.request s job) :=
  course_of_engines rfl rfl rfl rfl

theorem course_rebatch {b : Batched} (hb : s.Orderly → b.batch.Ready) :
    Course s (s.rebatch id b) := by
  have hset : Course s (s.modifyEngine id ({ · with batch := b.batch })) :=
    course_modifyEngine (fun _ => rfl) fun ho _ _ => hb ho
  unfold rebatch
  dsimp only
  split
  · exact hset.trans (course_request _ _)
  · exact hset

theorem course_engineHears (id : EngineId) (c : Change) (s : Session) :
    Course s (s.engineHears id c) := by
  unfold engineHears
  cases he : s.engine? id with
  | none => exact .refl s
  | some e => exact course_rebatch fun ho => Batch.ready_record (ho.ready id e he) _ _ _

theorem course_told (d : Document) (hs : s.access = .free)
    (h : Course { s with document := d, access := .exclusive } s') :
    Course s { s' with access := .free } := by
  have hdoc : Course s { s with document := d } := course_of_engines rfl rfl rfl rfl
  have hback := hdoc.trans (course_held h)
  rw [hs] at hback
  exact hback

theorem writes_course (hp : Courteous play) : Writes (fun _ => True) play Course where
  refl := .refl
  trans := .trans
  aside := Aside.course
  plain _ := trivial
  hears _ id s := course_engineHears id _ s
  reacts _ := hp _ _
  told := course_told
  guarded := course_guarded

theorem course_setApplied (id : EngineId) (locale : Locale) (s : Session) :
    Course s (s.modifyEngine id ({ · with applied := some locale })) :=
  course_modifyEngine (fun _ => rfl) fun ho e he => ho.ready id e he

theorem course_setObserver (id : EngineId) (observer : Option ObserverId) (s : Session) :
    Course s (s.modifyEngine id ({ · with observer })) :=
  course_modifyEngine (fun _ => rfl) fun ho e he => ho.ready id e he

theorem course_watch (id : EngineId) (s : Session) : Course s (s.watch id) := by
  unfold watch
  split
  · split
    · exact .refl s
    · exact (course_setObserver id _ s).trans (course_of_engines rfl rfl rfl rfl)
  · exact .refl s

theorem course_unwatch (id : EngineId) (s : Session) : Course s (s.unwatch id) := by
  unfold unwatch
  split
  · split
    · exact (aside_disconnect _ s).course.trans (course_setObserver id none _)
    · exact .refl s
  · exact .refl s

theorem course_endUnused (id : EngineId) (s : Session) : Course s (s.endUnused id) := by
  unfold endUnused
  split
  · exact .refl s
  · next hunused =>
      have hid : id ∉ s.busy := fun h => hunused (Or.inr h)
      split
      · exact .refl s
      · dsimp only
        split
        · split
          · exact (course_endEngine hid).trans (aside_disconnect _ _).course
          · exact course_endEngine hid
        · exact course_endEngine hid

-- An engine is at work for a while.
theorem course_employed (h : Course { s with busy := id :: s.busy } s') :
    Course s { s' with busy := s'.busy.erase id } := by
  refine ⟨h.access, ?_, h.nextEngine, fun other hb => ?_, h.guard, fun ho => ?_⟩
  · show s'.busy.erase id = s.busy
    rw [h.busy]
    exact List.erase_cons_head id s.busy
  · exact h.stays other (List.mem_cons_of_mem id hb)
  · have ho' := h.orderly ⟨ho.numbered, ho.ready⟩
    exact ⟨ho'.numbered, ho'.ready⟩

theorem course_flush (hp : Courteous play) (id : EngineId) (s : Session) :
    Course s (s.flush play id) := by
  have htake : Course s (s.modifyEngine id ({ · with batch := Batch.empty })) :=
    course_modifyEngine (fun _ => rfl) fun _ _ _ => Batch.ready_empty
  unfold flush
  split
  · exact .refl s
  · dsimp only [Batch.take]
    split
    · exact htake
    · split
      · exact htake.trans ((writes_course hp).translateEach id _ _ _ _)
      · exact htake.trans (course_rebatch fun _ => Batch.ready_fill _ _)

theorem course_employ {α : Type} {work : Session → α × Session}
    (hw : ∀ s, Course s (work s).2) (id : EngineId) (s : Session) :
    Course s (s.employ id work).2 := (course_employed (hw _)).trans (course_endUnused id _)

theorem course_runJob (hp : Courteous play) (job : FrameJob) (s : Session) :
    Course s (runJob play job s) := by
  cases job with
  | flush id =>
      unfold runJob
      dsimp only
      split
      · exact course_employ (course_flush hp id) id s
      · exact .refl s
  | script name steps => exact (hp steps s).trans (aside_record _ _).course

theorem course_runJobs (hp : Courteous play) (jobs : List FrameJob) (s : Session) :
    Course s (jobs.foldl (fun s job => runJob play job s) s) := by
  induction jobs generalizing s with
  | nil => exact .refl s
  | cons job rest ih => exact (course_runJob hp job s).trans (ih _)

theorem course_withFrames (frames : Frames FrameJob) (s : Session) :
    Course s { s with frames } := course_of_engines rfl rfl rfl rfl

theorem course_runFrame (hp : Courteous play) (s : Session) : Course s (s.runFrame play).2 :=
  ((course_withFrames _ s).trans (course_runJobs hp s.frames.pending _)).trans
    (course_withFrames _ _)

theorem course_performEdit (hp : Courteous play) (e : PageEdit) (s : Session) :
    Course s (s.performEdit play e).2 := by
  unfold performEdit
  split
  · exact .refl s
  · next hheld =>
      split
      · exact .refl s
      · next edit _ =>
          have hw : Course s (s.write play edit).2 :=
            (writes_course hp).write (Classical.not_not.mp hheld) fun _ _ => trivial
          split
          · next outcome written h =>
              rw [h] at hw
              exact hw.trans (aside_nameNodes outcome.names written).course
          · next h =>
              rw [h] at hw
              exact hw

theorem course_observe (target name : String) (reaction : Option (List Step)) (s : Session) :
    Course s (s.observe target name reaction).2 := by
  unfold observe
  split
  · exact .refl s
  · split
    · exact .refl s
    · exact course_of_engines rfl rfl rfl rfl

theorem course_performHold (hp : Courteous play) (exclusive : Bool) (steps : List Step)
    (s : Session) : Course s (s.performHold play exclusive steps).2 := by
  unfold performHold
  dsimp only
  split
  · exact .refl s
  · exact course_held (hp steps _)

theorem moves_course (hp : Courteous play) :
    Moves (fun _ => True) (fun _ => True) play Course where
  toWrites := writes_course hp
  applied := course_setApplied
  watch := course_watch
  unwatch := course_unwatch
  endUnused := course_endUnused
  employed := course_employed
  addEngine _ _ _ _ _ := course_addEngine rfl Batch.ready_empty
  runFrame := course_runFrame hp
  edit _ := course_performEdit hp _
  observe _ := course_observe _ _ _
  request _ s := course_request s _
  repeated _ := hp _
  hold _ := course_performHold hp _ _

-- Scripts set off scripts, to any depth.
theorem courteous_play (depth : Nat) : Courteous (Session.play depth) := by
  induction depth with
  | zero => exact fun _ s => .refl s
  | succ depth ih => exact fun _ s => (moves_course ih).inOrder (fun _ _ => trivial) s

theorem course_perform (depth : Nat) (step : Step) (s : Session) :
    Course s (perform (Session.play depth) step s).2 :=
  (moves_course (courteous_play depth)).perform trivial s

end Moves

end Session
end PageLocalizer
