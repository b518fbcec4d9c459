import PageLocalizer.Proofs.Document.Insertions
import PageLocalizer.Proofs.Session.Steady

-- Edits from outside: which elements come to the engines that watch.
namespace PageLocalizer.Session

open Document

-- The registration of an engine, while it lives and watches.
def observerOf (s : Session) (id : EngineId) : Option ObserverId := (s.engine? id).bind (·.observer)

variable {s s' s'' : Session} {due : List FrameJob} {arrived : EngineId → List NodeId}
  {id : EngineId} {e : Engine} {play : Play} {c : Change} {o : ObserverId}

section Batches

theorem lookup_rebatch (id : EngineId) (b : Batched) (s : Session) (other : EngineId) :
    (s.rebatch id b).engine? other =
      (s.modifyEngine id ({ · with batch := b.batch })).engine? other := by
  unfold rebatch
  dsimp only
  split <;> rfl

theorem pending_rebatch (id : EngineId) (b : Batched) (s : Session) :
    (s.rebatch id b).frames.pending =
      s.frames.pending ++ if b.asksFrame = true then [.flush id] else [] := by
  unfold rebatch
  dsimp only
  split
  · rfl
  · exact (List.append_nil _).symm

theorem still_of_rebatch (id : EngineId) (b : Batched) (s : Session) :
    (s.rebatch id b).document = s.document ∧ (s.rebatch id b).listeners = s.listeners ∧
      (s.rebatch id b).nextEngine = s.nextEngine ∧ (s.rebatch id b).names = s.names ∧
      (s.rebatch id b).busy = s.busy ∧ (s.rebatch id b).access = s.access := by
  unfold rebatch
  dsimp only
  split <;> exact ⟨rfl, rfl, rfl, rfl, rfl, rfl⟩

theorem engine?_of_rebatch {b : Batched} {other : EngineId} {e' : Engine}
    (h : (s.rebatch id b).engine? other = some e') :
    ∃ e, s.engine? other = some e ∧ e'.observer = e.observer ∧ e'.guard = e.guard ∧
      e'.batch = if other = id then b.batch else e.batch := by
  rw [lookup_rebatch] at h
  obtain ⟨e, he, rfl⟩ := engine?_of_modifyEngine h
  refine ⟨e, he, ?_⟩
  split <;> exact ⟨rfl, rfl, rfl⟩

-- An engine's batch becomes another one, which asks for a frame if it begins to wait.
theorem Lined.rebatch (h : s.Lined due arrived) (he : s.engine? id = some e) {b : Batched}
    {nodes : List NodeId} (hb : b.batch.Holds nodes)
    (hs : b.batch.scheduled = true ↔ e.batch.scheduled = true ∨ b.asksFrame = true)
    (ha : b.asksFrame = true → e.batch.scheduled = false) :
    (s.rebatch id b).Lined due (Function.update arrived id nodes) := by
  have hn : (s.rebatch id b).nextEngine = s.nextEngine := (still_of_rebatch id b s).2.2.1
  have hborn := h.born id e he
  refine ⟨fun other e' he' => ?_, fun other hle => ?_, fun other e' he' => ?_,
    fun other e' he' => ?_, fun other e' he' => ?_, fun job hj => ?_⟩
  · obtain ⟨e₁, he₁, -⟩ := engine?_of_rebatch he'
    rw [hn]
    exact h.born other e₁ he₁
  · rw [hn] at hle
    have hne : other ≠ id := fun ho => absurd hborn (by simpa [ho] using hle)
    rw [Function.update_of_ne hne]
    exact h.unborn other hle
  · obtain ⟨e₁, he₁, -, hg, -⟩ := engine?_of_rebatch he'
    rw [hg]
    exact h.idle other e₁ he₁
  · obtain ⟨e₁, he₁, -, -, hbatch⟩ := engine?_of_rebatch he'
    rw [hbatch]
    by_cases ho : other = id
    · rw [if_pos ho, ho, Function.update_self]
      exact hb
    · rw [if_neg ho, Function.update_of_ne ho]
      exact h.holds other e₁ he₁
  · obtain ⟨e₁, he₁, -, -, hbatch⟩ := engine?_of_rebatch he'
    have hcount := h.queued other e₁ he₁
    rw [pending_rebatch, ← List.append_assoc, List.countP_append, hcount, hbatch]
    by_cases ho : other = id
    · rw [ho, he, Option.some.injEq] at he₁
      rw [if_pos ho, ho, ← he₁]
      cases hask : b.asksFrame with
      | false => simp only [hask, Bool.false_eq_true, or_false] at hs; simp [hs]
      | true => simp [ha hask, hs.mpr (Or.inr hask), FrameJob.flushes]
    · have hnone : (FrameJob.flush id).flushes other = false := by
        simpa [FrameJob.flushes] using fun hi : id = other => ho hi.symm
      rw [if_neg ho]
      cases hask : b.asksFrame <;> simp [hnone]
  · rw [pending_rebatch, ← List.append_assoc, List.mem_append] at hj
    rw [hn]
    rcases hj with hj | hj
    · exact h.jobs job hj
    · split at hj
      · exact ⟨id, hborn, List.mem_singleton.mp hj⟩
      · simp at hj

theorem Steady.rebatch (h : s.Steady due arrived) (he : s.engine? id = some e) {b : Batched}
    {nodes : List NodeId} (hb : b.batch.Holds nodes)
    (hs : b.batch.scheduled = true ↔ e.batch.scheduled = true ∨ b.asksFrame = true)
    (ha : b.asksFrame = true → e.batch.scheduled = false) :
    (s.rebatch id b).Steady due (Function.update arrived id nodes) := by
  obtain ⟨hdoc, hl, hn, hnames, hbusy, -⟩ := still_of_rebatch id b s
  refine ⟨h.wired.of_engines (by rw [hdoc]) hl hn fun other e' he' => ?_,
    h.lined.rebatch he hb hs ha, h.owned.of_engines hnames hbusy fun other hsome => ?_⟩
  · obtain ⟨e₁, he₁, ho, -⟩ := engine?_of_rebatch he'
    exact ⟨e₁, he₁, ho⟩
  · rw [lookup_rebatch, isSome_modifyEngine] at hsome
    exact hsome

theorem Steady.engineHears (h : s.Steady due arrived) (he : s.engine? id = some e) (c : Change) :
    (s.engineHears id c).Steady due (Function.update arrived id (arrived id ++ c.arrivals)) := by
  obtain ⟨hb, hs, ha⟩ := (h.lined.holds id e he).record c (h.lined.idle id e he)
  unfold Session.engineHears
  rw [he]
  exact h.rebatch he hb hs ha

end Batches

-- The engines differ in their batches at most.
structure Rebatched (s s' : Session) : Prop where
  document : s'.document = s.document
  listeners : s'.listeners = s.listeners
  names : s'.names = s.names
  engine? : ∀ id, ∃ batch, s'.engine? id = (s.engine? id).map ({ · with batch })

section Rebatched

theorem Rebatched.refl (s : Session) : Rebatched s s := by
  refine ⟨rfl, rfl, rfl, fun id => ?_⟩
  cases he : s.engine? id with
  | none => exact ⟨.empty, rfl⟩
  | some e => exact ⟨e.batch, rfl⟩

theorem Rebatched.trans (h : Rebatched s s') (h' : Rebatched s' s'') : Rebatched s s'' := by
  refine ⟨h'.document.trans h.document, h'.listeners.trans h.listeners,
    h'.names.trans h.names, fun id => ?_⟩
  obtain ⟨_, hb⟩ := h.engine? id
  obtain ⟨batch, hb'⟩ := h'.engine? id
  refine ⟨batch, ?_⟩
  rw [hb', hb, Option.map_map]
  rfl

theorem Rebatched.observerOf (h : Rebatched s s') (id : EngineId) :
    s'.observerOf id = s.observerOf id := by
  obtain ⟨_, hb⟩ := h.engine? id
  unfold Session.observerOf
  rw [hb]
  cases s.engine? id <;> rfl

theorem Rebatched.scriptless (h : Rebatched s s') (hs : s.Scriptless) : s'.Scriptless := by
  unfold Scriptless
  rw [h.listeners]
  exact hs

theorem rebatched_hear (hs : s.Scriptless) (o : ObserverId) : Rebatched s (s.hear play c o) := by
  unfold hear
  split
  · rename_i id _
    unfold Session.engineHears
    cases he : s.engine? id with
    | none => exact .refl s
    | some e =>
        obtain ⟨hdoc, hl, -, hnames, -⟩ :=
          still_of_rebatch id (e.batch.record c.seen [c.record] e.guard) s
        refine ⟨hdoc, hl, hnames, fun other => ?_⟩
        dsimp only
        rw [lookup_rebatch, engine?_modifyEngine]
        split
        · exact ⟨_, rfl⟩
        · exact (Rebatched.refl s).engine? other
  · rename_i hl
    obtain ⟨id, hid⟩ := hs _ _ hl
    simp at hid
  · rename_i hl
    obtain ⟨id, hid⟩ := hs _ _ hl
    simp at hid
  · exact .refl s

theorem rebatched_hearAll (hs : s.Scriptless) (play : Play) (c : Change)
    (observers : List ObserverId) : Rebatched s (observers.foldl (hear play c) s) := by
  induction observers generalizing s with
  | nil => exact .refl s
  | cons o rest ih =>
      have hfirst : Rebatched s (s.hear play c o) := rebatched_hear hs o
      exact hfirst.trans (ih (hfirst.scriptless hs))

theorem rebatched_deliver (hs : s.Scriptless) (play : Play) (changes : List Change) :
    Rebatched s (deliver play changes s) := by
  induction changes generalizing s with
  | nil => exact .refl s
  | cons c rest ih =>
      have hfirst := rebatched_hearAll hs play c c.audience
      exact hfirst.trans (ih (hfirst.scriptless hs))

theorem rebatched_write (hs : s.Scriptless) (play : Play) (edit : Edit α) :
    (s.write play edit).2.document = (edit s.document).document ∧
      (s.write play edit).2.names = s.names ∧
      ∀ id, ∃ batch, (s.write play edit).2.engine? id =
        (s.engine? id).map ({ · with batch }) := by
  have hs' : Scriptless { s with document := (edit s.document).document, access := .exclusive } :=
    hs
  have htold := rebatched_deliver hs' play (edit s.document).changes
  exact ⟨htold.document, htold.names, htold.engine?⟩

end Rebatched

section Hearing

variable (h : s.Steady due arrived)

include h in
theorem Steady.hear (c : Change) (ho : ∃ r ∈ s.document.observers, r.id = o) :
    (s.hear play c o).Steady due fun id =>
      arrived id ++ if s.observerOf id = some o then c.arrivals else [] := by
  have howner : ∀ id, s.observerOf id = some o → s.listeners.lookup o = some (.engine id) := by
    intro id hid
    obtain ⟨e, he, hobs⟩ := Option.bind_eq_some_iff.mp hid
    exact (h.wired.registered id e o he hobs).2
  unfold Session.hear
  split
  · rename_i id hl
    cases he : s.engine? id with
    | none =>
        have hsame : s.engineHears id c = s := by simp [Session.engineHears, he]
        rw [hsame]
        refine h.of_eq fun other => ?_
        have hnot : s.observerOf other ≠ some o := by
          intro hother
          have hid : other = id := by simpa [hl] using (howner other hother).symm
          simp [observerOf, hid, he] at hother
        rw [if_neg hnot, List.append_nil]
    | some e =>
        obtain ⟨r, hr, rfl⟩ := ho
        have hmine : s.observerOf id = some r.id := by
          simp [observerOf, he, h.wired.own r hr id e hl he]
        refine (h.engineHears he c).of_eq fun other => ?_
        by_cases hid : other = id
        · subst hid
          simp [hmine]
        · have hnot : s.observerOf other ≠ some r.id := by
            intro hother
            exact hid (by simpa [hl] using (howner other hother).symm)
          rw [if_neg hnot, List.append_nil, Function.update_of_ne hid]
  · rename_i hl
    obtain ⟨id, hid⟩ := h.wired.scriptless _ _ hl
    simp at hid
  · rename_i hl
    obtain ⟨id, hid⟩ := h.wired.scriptless _ _ hl
    simp at hid
  · rename_i hl
    refine h.of_eq fun other => ?_
    have hnot : s.observerOf other ≠ some o := by
      intro hother
      rw [howner other hother] at hl
      simp at hl
    rw [if_neg hnot, List.append_nil]

include h in
theorem Steady.hearAll (play : Play) (c : Change) {observers : List ObserverId}
    (ho : ∀ o ∈ observers, ∃ r ∈ s.document.observers, r.id = o) :
    (observers.foldl (Session.hear play c) s).Steady due fun id => arrived id ++
      (observers.filter (s.observerOf id = some ·)).flatMap fun _ => c.arrivals := by
  induction observers generalizing s arrived with
  | nil => simpa using h
  | cons o rest ih =>
      have hfirst : (s.hear play c o).Steady due _ := h.hear c (ho o List.mem_cons_self)
      have hsame : Rebatched s (s.hear play c o) := rebatched_hear h.wired.scriptless o
      have hrest := ih hfirst fun o hm => by
        rw [hsame.document]
        exact ho o (List.mem_cons_of_mem _ hm)
      refine hrest.of_eq fun id => ?_
      rw [hsame.observerOf id, List.append_assoc]
      by_cases hid : s.observerOf id = some o
      · simp [hid]
      · simp [hid]

-- A watching engine is told of a change of the body's subtree once, and of no other change.
theorem Wired.filter_audience (hw : s.Wired) (hr : c.seen.registry = s.document.registry)
    (hid : s.observerOf id = some o) : c.audience.filter (s.observerOf id = some ·) =
      if c.seen.contains body c.record.target then [o] else [] := by
  obtain ⟨e, he, hobs⟩ := Option.bind_eq_some_iff.mp hid
  obtain ⟨hm, -⟩ := hw.registered id e o he hobs
  have hnd : (c.seen.observers.map (·.id)).Nodup :=
    (hw.numbered.of_registry hr).increasing.imp fun h => Nat.ne_of_lt h
  rw [← observers_of_registry hr] at hm
  have hmine : (c.seen.observers.filter fun r => s.observerOf id = some r.id) = [⟨o, body⟩] := by
    rw [← filter_id_eq hnd hm]
    refine List.filter_congr fun r _ => ?_
    rw [hid, decide_eq_decide, Option.some.injEq]
    exact eq_comm
  unfold Change.audience Document.audience
  rw [List.filter_map, List.filter_filter]
  have hcomm : c.seen.observers.filter (fun r =>
      ((fun o => decide (s.observerOf id = some o)) ∘ fun r : Observer => r.id) r &&
        c.seen.contains r.target c.record.target) =
      (c.seen.observers.filter fun r => s.observerOf id = some r.id).filter fun r =>
        c.seen.contains r.target c.record.target := by
    rw [List.filter_filter]
    exact List.filter_congr fun r _ => Bool.and_comm _ _
  rw [hcomm, hmine]
  by_cases hc : c.seen.contains body c.record.target = true <;> simp [hc]

include h in
theorem Steady.deliver (play : Play) {changes : List Change}
    (hr : ∀ c ∈ changes, c.seen.registry = s.document.registry) :
    (Session.deliver play changes s).Steady due fun id =>
      arrived id ++ if (s.observerOf id).isSome then heardAtBody changes else [] := by
  induction changes generalizing s arrived with
  | nil => simpa [Session.deliver, heardAtBody] using h
  | cons c rest ih =>
      have hc := hr c List.mem_cons_self
      have hregistered : ∀ o ∈ c.audience, ∃ r ∈ s.document.observers, r.id = o := by
        intro o ho
        obtain ⟨r, hm, rfl⟩ := List.mem_map.mp ho
        exact ⟨r, observers_of_registry hc ▸ (List.mem_filter.mp hm).1, rfl⟩
      have hfirst := h.hearAll play c hregistered
      have hsame := rebatched_hearAll h.wired.scriptless play c c.audience
      have hrest : (Session.deliver play rest (c.audience.foldl (Session.hear play c) s)).Steady
          due _ := ih hfirst fun c hm => by
        rw [hsame.document]
        exact hr c (List.mem_cons_of_mem _ hm)
      refine hrest.of_eq fun id => ?_
      rw [hsame.observerOf id, List.append_assoc]
      congr 1
      cases hid : s.observerOf id with
      | none => simp
      | some o =>
          have hone := h.wired.filter_audience hc hid
          rw [hid] at hone
          rw [hone]
          by_cases hin : c.seen.contains body c.record.target = true <;>
            simp [heardAtBody, hin]

end Hearing

-- The page may be another one, with the same registrations.
theorem Steady.withDocument {d : Document} (h : s.Steady due arrived)
    (hr : d.registry = s.document.registry) (a : Access) :
    Steady due arrived { s with document := d, access := a } :=
  ⟨h.wired.of_engines hr rfl rfl fun _ e he => ⟨e, he, rfl⟩,
    h.lined.of_engines rfl rfl fun _ e he => ⟨e, he, rfl, rfl⟩,
    h.owned.of_engines rfl rfl fun _ he => he⟩

-- A session in which somebody has made an edit and has yet to tell of it.
theorem Steady.edited (h : s.Steady due arrived) (op : Operation)
    (hfair : ∀ o, op = .disconnect o → ∀ id, s.observerOf id ≠ some o) (a : Access) :
    Steady due arrived { s with document := (op.edit s.document).document, access := a } := by
  by_cases hreg : op.registers = true
  · cases op with
    | observe target =>
        refine ⟨⟨h.wired.numbered.observe target, fun o l hl => ?_, fun id e o he ho => ?_,
          fun r hr id e hl he => ?_⟩, h.lined.of_engines rfl rfl fun _ e he => ⟨e, he, rfl, rfl⟩,
          h.owned.of_engines rfl rfl fun _ he => he⟩
        · obtain ⟨hlt, hl⟩ := h.wired.listeners o l hl
          exact ⟨Nat.lt_succ_of_lt hlt, hl⟩
        · obtain ⟨hm, hl⟩ := h.wired.registered id e o he ho
          exact ⟨List.mem_append_left _ hm, hl⟩
        · rcases List.mem_append.mp hr with hr | hr
          · exact h.wired.own r hr id e hl he
          · rw [List.mem_singleton.mp hr] at hl
            exact absurd (h.wired.listeners _ _ hl).1 (Nat.lt_irrefl _)
    | disconnect o =>
        have hgone : (s.disconnect o).Wired := h.wired.disconnect fun id e he ho =>
          hfair o rfl id (by simp [observerOf, he, ho])
        exact ⟨hgone.of_engines rfl rfl rfl fun _ e he => ⟨e, he, rfl⟩,
          h.lined.of_engines rfl rfl fun _ e he => ⟨e, he, rfl, rfl⟩,
          h.owned.of_engines rfl rfl fun _ he => he⟩
    | _ => simp [Operation.registers] at hreg
  · exact h.withDocument (Operation.tacit_edit (by simpa using hreg) s.document).1 a

-- What somebody builds in one go comes to all who watch, element by element.
theorem Steady.write_of_tacit {edit : Edit α} (h : s.Steady due arrived) (ht : Edit.Tacit edit) :
    (s.write play edit).2.Steady due fun id => arrived id ++
      if (s.observerOf id).isSome then heardAtBody (edit s.document).changes else [] := by
  obtain ⟨hsame, hseen⟩ := ht s.document
  have htold := (h.withDocument hsame .exclusive).deliver play fun c hc =>
    (hseen c hc).trans hsame.symm
  exact htold.access .free

-- The element that an edit brings comes to all who watch.
theorem Steady.write (h : s.Steady due arrived) (op : Operation)
    (hfair : ∀ o, op = .disconnect o → ∀ id, s.observerOf id ≠ some o) :
    (s.write play op.edit).2.Steady due fun id =>
      arrived id ++ if (s.observerOf id).isSome then op.brings s.document else [] := by
  have hedited := h.edited op hfair .exclusive
  have hseen : ∀ c ∈ (op.edit s.document).changes,
      c.seen.registry = (op.edit s.document).document.registry := by
    intro c hc
    have hsame := registry_seen op s.document c hc
    by_cases hreg : op.registers = true
    · have hnil : (op.edit s.document).changes = [] := by
        cases op <;> first
          | rfl
          | simp [Operation.registers] at hreg
      simp [hnil] at hc
    · exact hsame.trans (Operation.tacit_edit (by simpa using hreg) s.document).1.symm
  have htold := hedited.deliver play hseen
  rw [heardAtBody_edit] at htold
  exact htold.access .free

end PageLocalizer.Session
