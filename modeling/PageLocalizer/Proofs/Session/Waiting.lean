import PageLocalizer.Proofs.Session.Flushes

-- Runs of a session from outside, step by step, and what waits in it between two steps.
namespace PageLocalizer.Session

-- What somebody does from outside.
inductive Act where
  | edit (op : Document.Operation)
  | create (name : String) (setup : EngineSetup)
  | drop (name : String)
  | engine (name : String) (step : EngineStep)
  | frame

def Act.run (play : Play) : Act → Session → Session
  | .edit op, s => if s.access = .free then (s.write play op.edit).2 else s
  | .create name setup, s => (s.createEngine name setup).2
  | .drop name, s => (s.dropEngine name).2
  | .engine name step, s => (s.performEngine play name step).2
  | .frame, s => (s.runFrame play).2

-- An act while the page is free, or while somebody else reads it or writes to it.
def during (play : Play) (a : Access) (act : Act) (s : Session) : Session :=
  { act.run play { s with access := a } with access := .free }

-- An outsider cannot end the registration of an engine.
def Act.Fair (act : Act) (s : Session) : Prop :=
  ∀ o, act = .edit (.disconnect o) → ∀ id, s.observerOf id ≠ some o

-- A session, and the elements that were inserted for each engine since the last frame that had the
-- page.
structure Diary where
  session : Session
  inserted : EngineId → List NodeId

-- Elements that come to a node of the body count for the engines that watch.
def Act.noted (a : Access) (act : Act) (g : Diary) (id : EngineId) : List NodeId :=
  match act, a with
  | .edit op, .free =>
    g.inserted id ++ if (g.session.observerOf id).isSome then op.brings g.session.document else []
  | .frame, .free => []
  | _, _ => g.inserted id

def Diary.after (play : Play) (a : Access) (act : Act) (g : Diary) : Diary :=
  ⟨g.session.during play a act, act.noted a g⟩

inductive Diary.Kept (depth : Nat) : Diary → Prop where
  | initial : Kept depth ⟨.initial, fun _ => []⟩
  | after (a : Access) (act : Act) : Kept depth g → act.Fair g.session →
      Kept depth (g.after (Session.play depth) a act)

variable {s : Session} {g : Diary} {a : Access} {act : Act} {due : List FrameJob}
  {arrived : EngineId → List NodeId} {id : EngineId} {e : Engine} {depth : Nat} {play : Play}

section Runs

theorem steady_initial : initial.Steady [] fun _ => [] where
  wired :=
    { numbered := Document.numbered_empty
      listeners := fun o l h => by simp [initial] at h
      registered := fun id e o h => by simp [initial, engine?] at h
      own := fun r hr id e h => by simp [initial] at h }
  lined :=
    { born := fun id e h => by simp [initial, engine?] at h
      unborn := fun _ _ => rfl
      idle := fun id e h => by simp [initial, engine?] at h
      holds := fun id e h => by simp [initial, engine?] at h
      queued := fun id e h => by simp [initial, engine?] at h
      jobs := fun job hj => by simp [initial, Frames.empty] at hj }
  owned :=
    { distinct := List.nodup_nil
      held := fun id e h => by simp [initial, engine?] at h }

theorem Steady.during (hp : Courteous play) (h : g.session.Steady [] g.inserted) (a : Access)
    (hfair : act.Fair g.session) :
    (g.session.during play a act).Steady [] (act.noted a g) := by
  have hs := h.access a
  refine Steady.access ?_ .free
  cases act with
  | edit op =>
      unfold Act.run Act.noted
      cases a with
      | free => exact hs.write op fun o ho => hfair o (congrArg Act.edit ho)
      | shared => exact hs
      | exclusive => exact hs
  | create name setup => exact hs.createEngine name setup
  | drop name => exact hs.dropEngine name
  | engine name step => exact Steady.performEngine hp hs name step
  | frame =>
      cases a with
      | free => exact hs.runFrame_free rfl
      | shared => exact (hs.runFrame_held play nofun).1
      | exclusive => exact (hs.runFrame_held play nofun).1

theorem Diary.Kept.access (h : g.Kept depth) : g.session.access = .free := by
  cases h <;> rfl

theorem Diary.Kept.steady (h : g.Kept depth) : g.session.Steady [] g.inserted := by
  induction h with
  | initial => exact steady_initial
  | after a act _ hfair ih => exact ih.during (courteous_play depth) a hfair

end Runs

section Frame

theorem split_of_countP_eq_one {p : α → Bool} {l : List α} (h : l.countP p = 1) :
    ∃ before x rest, l = before ++ x :: rest ∧ p x = true ∧ (∀ y ∈ before, p y = false) ∧
      ∀ y ∈ rest, p y = false := by
  obtain ⟨x, hx, hp⟩ := List.countP_pos_iff.mp (Nat.lt_of_lt_of_eq Nat.one_pos h.symm)
  obtain ⟨before, rest, rfl⟩ := List.append_of_mem hx
  rw [List.countP_append, List.countP_cons_of_pos hp] at h
  have hb : before.countP p = 0 := by omega
  have hr : rest.countP p = 0 := by omega
  rw [List.countP_eq_zero] at hb hr
  exact ⟨before, x, rest, rfl, hp, fun y hy => by simpa using hb y hy,
    fun y hy => by simpa using hr y hy⟩

-- Among what waits for the next frame, the flush of an engine whose batch waits.
theorem Lined.split_pending (h : s.Lined [] arrived) (he : s.engine? id = some e)
    (hs : e.batch.scheduled = true) :
    ∃ before rest, s.frames.pending = before ++ .flush id :: rest ∧
      (∀ job ∈ before, job.flushes id = false) ∧ ∀ job ∈ rest, job.flushes id = false := by
  have hcount := h.queued id e he
  rw [List.nil_append, if_pos hs] at hcount
  obtain ⟨before, job, rest, hpend, hjob, hbefore, hrest⟩ := split_of_countP_eq_one hcount
  have hflush : job = .flush id := by
    cases job with
    | flush other => rw [(FrameJob.flushes_flush id other).mp hjob]
    | script name steps => simp [FrameJob.flushes] at hjob
  exact ⟨before, rest, hflush ▸ hpend, hbefore, hrest⟩

theorem Lined.pending_of_idle (h : s.Lined [] arrived) (he : s.engine? id = some e)
    (hs : e.batch.scheduled = false) : ∀ job ∈ s.frames.pending, job.flushes id = false := by
  have hcount := h.queued id e he
  rw [List.nil_append, if_neg (by simp [hs]), List.countP_eq_zero] at hcount
  exact fun job hj => by simpa using hcount job hj

theorem Lined.batch_of_idle (h : s.Lined due arrived) (he : s.engine? id = some e)
    (hs : e.batch.scheduled = false) : e.batch = .empty := by
  rw [Batch.empty, ← (h.holds id e he).nodes_eq_nil_iff.mpr hs, ← hs]

end Frame

end PageLocalizer.Session
