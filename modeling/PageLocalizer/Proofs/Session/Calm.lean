import PageLocalizer.Proofs.Session.Discretion

-- Sessions in which only engines edit the page. Nothing asks for a flush there.
namespace PageLocalizer

mutual

-- A step that edits the page by itself, or that runs or leaves behind one that does.
def Step.edits : Step → Bool
  | .edit _ => true
  | .observe _ _ (some steps) => scriptEdits steps
  | .requestFrame _ steps => scriptEdits steps
  | .repeated _ steps => scriptEdits steps
  | .hold _ steps => scriptEdits steps
  | _ => false

def scriptEdits : List Step → Bool
  | [] => false
  | step :: rest => step.edits || scriptEdits rest

end

private theorem edits_of_mem {steps : List Step} (h : scriptEdits steps = false) :
    ∀ step ∈ steps, step.edits = false := by
  induction steps with
  | nil => simp
  | cons first rest ih =>
      simp only [scriptEdits, Bool.or_eq_false_iff] at h
      intro step hm
      rcases List.mem_cons.mp hm with rfl | hm
      · exact h.1
      · exact ih h.2 step hm

def Listener.edits : Listener → Bool
  | .script _ (some steps) => scriptEdits steps
  | _ => false

def FrameJob.edits : FrameJob → Bool
  | .script _ steps => scriptEdits steps
  | .flush _ => false

namespace Session

-- No reaction edits the page, nor does any script that waits for a frame.
structure Unedited (s : Session) : Prop where
  listeners : ∀ l ∈ s.listeners, l.2.edits = false
  jobs : ∀ job ∈ s.frames.pending, job.edits = false

instance (s : Session) : Decidable s.Unedited :=
  decidable_of_iff ((∀ l ∈ s.listeners, l.2.edits = false) ∧
      ∀ job ∈ s.frames.pending, job.edits = false)
    ⟨fun h => ⟨h.1, h.2⟩, fun h => ⟨h.listeners, h.jobs⟩⟩

-- Nor does an engine wait for a frame.
structure Calm (s : Session) : Prop where
  orderly : s.Orderly
  unedited : s.Unedited
  no_flush : ∀ id, .flush id ∉ s.frames.pending

def Soothes (s s' : Session) : Prop := Calm s → Calm s'

-- Scripts that do not edit the page keep a session calm.
def Soothing (play : Play) : Prop :=
  ∀ steps, scriptEdits steps = false → ∀ s, Soothes s (play steps s).2

variable {s s' : Session} {id : EngineId} {play : Play} {c : Change}

section Moves

-- Listeners that come anew have no reaction.
theorem Calm.of_course (h : Calm s) (hc : Course s s') (hf : s'.frames = s.frames)
    (hl : ∀ l ∈ s'.listeners, l ∈ s.listeners ∨ l.2.edits = false) : Calm s' where
  orderly := hc.orderly h.orderly
  unedited := by
    refine ⟨fun l hs => (hl l hs).elim (h.unedited.listeners l) id, ?_⟩
    rw [hf]
    exact h.unedited.jobs
  no_flush := by
    rw [hf]
    exact h.no_flush

-- The page, and who works on it, do not matter.
theorem Calm.of_same (h : Calm s) (he : s'.engines = s.engines)
    (hn : s'.nextEngine = s.nextEngine) (hl : s'.listeners = s.listeners)
    (hf : s'.frames = s.frames) : Calm s' := by
  have hlook : ∀ id, s'.engine? id = s.engine? id := fun id => by rw [engine?, he, engine?]
  constructor
  · constructor
    · intro id e h'
      rw [hn]
      exact h.orderly.numbered id e (hlook id ▸ h')
    · exact fun id e h' => h.orderly.ready id e (hlook id ▸ h')
  · constructor
    · rw [hl]
      exact h.unedited.listeners
    · rw [hf]
      exact h.unedited.jobs
  · rw [hf]
    exact h.no_flush

theorem Calm.aside (h : Calm s) (ha : Aside s s') : Calm s' :=
  h.of_same ha.engines ha.nextEngine ha.listeners ha.frames

private theorem listeners_engineHears (id : EngineId) (c : Change) (s : Session) :
    (s.engineHears id c).listeners = s.listeners := by
  unfold engineHears
  split
  · unfold rebatch
    dsimp only
    split <;> rfl
  · rfl

theorem Calm.engineHears (h : Calm s) (hc : c.Plain) (id : EngineId) :
    Calm (s.engineHears id c) :=
  h.of_course (course_engineHears id c s)
    (congrArg Prod.snd (waiting_engineHears h.orderly hc id))
    fun _ hs => Or.inl (listeners_engineHears id c s ▸ hs)

theorem Calm.modifyEngine {f : Engine → Engine} (h : Calm s)
    (hb : ∀ e, s.engine? id = some e → (f e).batch.Ready) : Calm (s.modifyEngine id f) :=
  ⟨h.orderly.modifyEngine hb, ⟨h.unedited.listeners, h.unedited.jobs⟩, h.no_flush⟩

theorem writes_calm (hq : Soothing play) : Writes Change.Plain play Soothes where
  refl _ h := h
  trans h h' hs := h' (h hs)
  aside ha h := h.aside ha
  plain hc := hc
  hears hc id _ h := h.engineHears hc id
  reacts hl h := hq _ (h.unedited.listeners _ (Table.mem_of_lookup hl)) _ h
  told _ _ hs h := (hs (h.of_same rfl rfl rfl rfl)).of_same rfl rfl rfl rfl
  guarded _ hs h := by
    have hwritten := hs (h.modifyEngine fun e he => h.orderly.ready _ e he)
    exact hwritten.modifyEngine fun e he => hwritten.orderly.ready _ e he

theorem Calm.watch (h : Calm s) (id : EngineId) : Calm (s.watch id) := by
  refine h.of_course (course_watch id s) ?_ fun l hs => ?_
  · unfold Session.watch
    split
    · split <;> rfl
    · rfl
  · unfold Session.watch at hs
    split at hs
    · split at hs
      · exact Or.inl hs
      · rcases Table.mem_of_mem_set hs with rfl | hs
        · exact Or.inr rfl
        · exact Or.inl hs
    · exact Or.inl hs

theorem Calm.unwatch (h : Calm s) (id : EngineId) : Calm (s.unwatch id) := by
  refine h.of_course (course_unwatch id s) ?_ fun l hs => Or.inl ?_
  · unfold Session.unwatch
    split
    · split <;> rfl
    · rfl
  · unfold Session.unwatch at hs
    split at hs
    · split at hs <;> exact hs
    · exact hs

theorem Calm.endUnused (h : Calm s) (id : EngineId) : Calm (s.endUnused id) := by
  refine h.of_course (course_endUnused id s) ?_ fun l hs => Or.inl ?_
  · unfold Session.endUnused
    split
    · rfl
    · split
      · rfl
      · dsimp only
        split
        · split <;> rfl
        · rfl
  · unfold Session.endUnused at hs
    split at hs
    · exact hs
    · split at hs
      · exact hs
      · dsimp only at hs
        split at hs
        · split at hs <;> exact hs
        · exact hs

theorem Calm.employ {α : Type} {work : Session → α × Session} (h : Calm s) (id : EngineId)
    (hw : Calm { s with busy := id :: s.busy } → Calm (work { s with busy := id :: s.busy }).2) :
    Calm (s.employ id work).2 := by
  have hdone := hw (h.of_same rfl rfl rfl rfl)
  have hback : Calm { (work { s with busy := id :: s.busy }).2 with
      busy := (work { s with busy := id :: s.busy }).2.busy.erase id } :=
    hdone.of_same rfl rfl rfl rfl
  exact hback.endUnused id

-- With the page free, a flush is done for good.
theorem Calm.flush (hq : Soothing play) (h : Calm s) (hs : s.access = .free) (id : EngineId) :
    Calm (s.flush play id) := by
  cases he : s.engine? id with
  | none => simpa [Session.flush, he] using h
  | some e =>
      rw [EngineCall.flush_of_free he hs]
      exact (writes_calm hq).translateEach id e _ _ _ (h.modifyEngine fun _ _ => Batch.ready_empty)

theorem Calm.withFrames (h : Calm s) {frames : Frames FrameJob}
    (hj : ∀ job ∈ frames.pending, job ∈ s.frames.pending) : Calm { s with frames } :=
  ⟨⟨h.orderly.numbered, h.orderly.ready⟩,
    ⟨h.unedited.listeners, fun job hm => h.unedited.jobs job (hj job hm)⟩,
    fun id hm => h.no_flush id (hj _ hm)⟩

theorem Calm.request (h : Calm s) {name : String} {steps : List Step}
    (he : scriptEdits steps = false) : Calm (Frames.request s (FrameJob.script name steps)) := by
  have hmem : ∀ job, job ∈ (Frames.request s (FrameJob.script name steps)).frames.pending →
      job ∈ s.frames.pending ∨ job = .script name steps := fun job hm =>
    (List.mem_append.mp hm).imp_right List.mem_singleton.mp
  refine ⟨⟨h.orderly.numbered, h.orderly.ready⟩, ⟨h.unedited.listeners, fun job hm => ?_⟩,
    fun id hm => ?_⟩
  · rcases hmem job hm with hm | rfl
    · exact h.unedited.jobs job hm
    · exact he
  · rcases hmem _ hm with hm | hm
    · exact h.no_flush id hm
    · simp at hm

theorem Calm.runJob (hq : Soothing play) (h : Calm s) {job : FrameJob} (he : job.edits = false)
    (hs : ∀ id, job = .flush id → s.access = .free) : Calm (runJob play job s) := by
  cases job with
  | flush id =>
      unfold Session.runJob
      dsimp only
      split
      · exact h.employ id fun hworking => hworking.flush hq (hs id rfl) id
      · exact h
  | script name steps => exact (hq steps he s h).aside (aside_record _ _)

-- Engines that wait get the page if it is free, and each job leaves it as it was.
theorem Calm.runJobs (hp : Courteous play) (hq : Soothing play) (h : Calm s) {due : List FrameJob}
    (he : ∀ job ∈ due, job.edits = false)
    (hs : ∀ id, .flush id ∈ due → s.access = .free) :
    Calm (due.foldl (fun s job => Session.runJob play job s) s) := by
  induction due generalizing s with
  | nil => exact h
  | cons job rest ih =>
      have hjob : Calm (Session.runJob play job s) :=
        h.runJob hq (he job List.mem_cons_self) fun id hj =>
          hs id (hj ▸ List.mem_cons_self)
      refine ih hjob (fun job hm => he job (List.mem_cons_of_mem _ hm)) fun id hm => ?_
      rw [(course_runJob hp job s).access]
      exact hs id (List.mem_cons_of_mem _ hm)

-- A frame starts with nothing that waits, and so it ends with no engine that waits.
theorem calm_runFrame (hp : Courteous play) (hq : Soothing play) (ho : s.Orderly) (hu : s.Unedited)
    (hs : ∀ id, .flush id ∈ s.frames.pending → s.access = .free) :
    Calm (s.runFrame play).2 := by
  have hbegun : Calm { s with frames := { s.frames with pending := [] } } :=
    ⟨⟨ho.numbered, ho.ready⟩, ⟨hu.listeners, fun _ hm => by simp at hm⟩, fun _ hm => by simp at hm⟩
  have hdone := hbegun.runJobs hp hq hu.jobs hs
  exact hdone.withFrames fun _ hm => hm

-- A frame that finds no engine waiting does without the page.
theorem Calm.runFrame (hp : Courteous play) (hq : Soothing play) (h : Calm s) :
    Calm (s.runFrame play).2 :=
  calm_runFrame hp hq h.orderly h.unedited fun id hm => absurd hm (h.no_flush id)

theorem Calm.observe (h : Calm s) {reaction : Option (List Step)} (target : String)
    {name : String} (hr : (Listener.script name reaction).edits = false) :
    Calm (s.observe target name reaction).2 := by
  unfold Session.observe
  split
  · exact h
  · split
    · exact h
    · refine ⟨⟨h.orderly.numbered, h.orderly.ready⟩, ⟨fun l hl => ?_, h.unedited.jobs⟩,
        h.no_flush⟩
      rcases Table.mem_of_mem_set hl with rfl | hl
      · exact hr
      · exact h.unedited.listeners l hl

private theorem moves_calm (hp : Courteous play) (hq : Soothing play) :
    Moves Change.Plain (fun step => step.edits = false) play Soothes where
  toWrites := writes_calm hq
  applied _ _ _ h := h.modifyEngine fun e he => h.orderly.ready _ e he
  watch id _ h := h.watch id
  unwatch id _ h := h.unwatch id
  endUnused id _ h := h.endUnused id
  employed hs h := (hs (h.of_same rfl rfl rfl rfl)).of_same rfl rfl rfl rfl
  addEngine _ _ _ _ _ h :=
    h.of_course (course_addEngine rfl Batch.ready_empty) rfl fun _ hl => Or.inl hl
  runFrame _ h := h.runFrame hp hq
  edit he := by simp [Step.edits] at he
  observe {_ _ reaction} he _ h := by
    refine h.observe _ ?_
    cases reaction with
    | none => rfl
    | some steps => simpa [Step.edits, Listener.edits] using he
  request he _ h := h.request (by simpa [Step.edits] using he)
  repeated he := hq _ (by simpa [Step.edits] using he)
  hold {exclusive steps} he s h := by
    have hsteps : scriptEdits steps = false := by simpa [Step.edits] using he
    unfold performHold
    dsimp only
    split
    · exact h
    · have hheld : Calm { s with access := if exclusive then .exclusive else .shared } :=
        h.of_same rfl rfl rfl rfl
      exact (hq steps hsteps _ hheld).of_same rfl rfl rfl rfl

theorem soothing_play (depth : Nat) : Soothing (Session.play depth) := by
  induction depth with
  | zero => exact fun _ _ _ h => h
  | succ depth ih =>
      exact fun _ he s => (moves_calm (courteous_play depth) ih).inOrder (edits_of_mem he) s

end Moves

end Session
end PageLocalizer
