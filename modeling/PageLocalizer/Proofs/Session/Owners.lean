import PageLocalizer.Proofs.Session.Steady

-- Engines are made, named and given up from outside, and they are asked for their services.
namespace PageLocalizer

namespace Session

variable {s s' : Session} {due : List FrameJob} {arrived : EngineId → List NodeId}
  {id : EngineId} {play : Play}

section Names

theorem isNamed_iff : s.names.engines.any (·.2 = id) = true ↔
    ∃ name, (name, id) ∈ s.names.engines := by
  rw [List.any_eq_true]
  constructor
  · rintro ⟨⟨name, other⟩, hm, he⟩
    exact ⟨name, by simpa [show other = id by simpa using he] using hm⟩
  · rintro ⟨name, hm⟩
    exact ⟨(name, id), hm, by simp⟩

theorem endUnused_of_held (h : s.Held id) : s.endUnused id = s := if_pos h

-- The engine that may have lost its last name ends if it has.
theorem Lined.endUnused (hl : s.Lined due arrived) (hw : s.Wired)
    (hd : (s.names.engines.map Prod.fst).Nodup)
    (hh : ∀ other e, other ≠ id → s.engine? other = some e → s.Held other) :
    (s.endUnused id).Steady due arrived := by
  unfold Session.endUnused
  split
  · rename_i hheld
    refine ⟨hw, hl, hd, fun other e he => ?_⟩
    by_cases ho : other = id
    · exact ho ▸ hheld
    · exact hh other e ho he
  · split
    · rename_i hnone
      refine ⟨hw, hl, hd, fun other e he => hh other e (fun ho => ?_) he⟩
      simp [ho, hnone] at he
    · rename_i e he
      have hlook : ∀ other e', engine? { s with engines := s.engines.erase id } other = some e' →
          other ≠ id ∧ s.engine? other = some e' := by
        intro other e' h
        rw [engine?_endEngine] at h
        split at h
        · simp at h
        · exact ⟨‹_›, h⟩
      have hended : Steady due arrived { s with engines := s.engines.erase id } :=
        ⟨hw.of_engines rfl rfl rfl fun other e' h => ⟨e', (hlook other e' h).2, rfl⟩,
          hl.of_engines rfl rfl fun other e' h => ⟨e', (hlook other e' h).2, rfl, rfl⟩,
          hd, fun other e' h => hh other e' (hlook other e' h).1 (hlook other e' h).2⟩
      split
      · rename_i o ho
        split
        · refine ⟨hended.wired.disconnect fun other e' h ho' => ?_,
            hended.lined.of_engines rfl rfl fun other e' h => ⟨e', h, rfl, rfl⟩,
            hended.owned.of_engines rfl rfl fun _ h => h⟩
          have hmine := (hw.registered id e o he ho).2
          have hother := (hended.wired.registered other e' o h ho').2
          exact (hlook other e' h).1 (by simpa using hother.symm.trans hmine)
        · exact hended
      · exact hended

theorem Lined.nameEngine (hl : s.Lined due arrived) (hw : s.Wired)
    (hd : (s.names.engines.map Prod.fst).Nodup)
    (hh : ∀ other e, other ≠ id → s.engine? other = some e → s.Held other) (name : String) :
    (s.nameEngine name id).Steady due arrived := by
  have hl' : Lined due arrived
      (s.modifyNames fun n => { n with engines := n.engines.set name id }) :=
    hl.of_engines rfl rfl fun _ e h => ⟨e, h, rfl, rfl⟩
  have hw' : Wired (s.modifyNames fun n => { n with engines := n.engines.set name id }) :=
    hw.of_engines rfl rfl rfl fun _ e h => ⟨e, h, rfl⟩
  have hheld : ∀ other e, s.engine? other = some e → s.names.engines.lookup name ≠ some other →
      Held (s.modifyNames fun n => { n with engines := n.engines.set name id }) other := by
    intro other e he hlost
    by_cases ho : other = id
    · exact Or.inl (isNamed_iff.mpr ⟨name, ho ▸ List.mem_cons_self⟩)
    · rcases hh other e ho he with hnamed | hbusy
      · obtain ⟨key, hm⟩ := isNamed_iff.mp hnamed
        have hkey : key ≠ name := fun hk => hlost (Table.lookup_of_mem hd (hk ▸ hm))
        refine Or.inl (isNamed_iff.mpr ⟨key, List.mem_cons_of_mem _ ?_⟩)
        exact List.mem_filter.mpr ⟨hm, by simpa using hkey⟩
      · exact Or.inr hbusy
  unfold Session.nameEngine
  dsimp only
  split
  · rename_i old hold
    refine hl'.endUnused hw' (Table.nodup_set hd name id) fun other e ho he => ?_
    exact hheld other e he fun hlost => ho (Option.some.inj (hlost.symm.trans hold))
  · rename_i hold
    refine ⟨hw', hl', Table.nodup_set hd name id, fun other e he => ?_⟩
    exact hheld other e he (by simp [hold])

variable (h : s.Steady due arrived)

include h

theorem Steady.dropEngine (name : String) : (s.dropEngine name).2.Steady due arrived := by
  unfold Session.dropEngine
  split
  · rename_i id hid
    have hl : Lined due arrived
        (s.modifyNames fun n => { n with engines := n.engines.erase name }) :=
      h.lined.of_engines rfl rfl fun _ e he => ⟨e, he, rfl, rfl⟩
    have hw : Wired (s.modifyNames fun n => { n with engines := n.engines.erase name }) :=
      h.wired.of_engines rfl rfl rfl fun _ e he => ⟨e, he, rfl⟩
    refine hl.endUnused hw (Table.nodup_erase h.owned.distinct name) fun other e ho he => ?_
    rcases h.owned.held other e he with hnamed | hbusy
    · obtain ⟨key, hm⟩ := isNamed_iff.mp hnamed
      have hkey : key ≠ name := fun hk => ho <| Option.some.inj <|
        (Table.lookup_of_mem h.owned.distinct (hk ▸ hm)).symm.trans hid
      exact Or.inl (isNamed_iff.mpr ⟨key, List.mem_filter.mpr ⟨hm, by simpa using hkey⟩⟩)
    · exact Or.inr hbusy
  · exact h

theorem Steady.addEngine {e : Engine} (hg : e.guard = .idle) (hb : e.batch = .empty)
    (ho : e.observer = none) : (s.addEngine e).2.Wired ∧ (s.addEngine e).2.Lined due arrived := by
  have hlook : ∀ other e', (s.addEngine e).2.engine? other = some e' →
      (other = s.nextEngine ∧ e' = e) ∨ (other ≠ s.nextEngine ∧ s.engine? other = some e') := by
    intro other e' he
    rw [engine?_addEngine] at he
    split at he
    · exact Or.inl ⟨‹_›, (Option.some.inj he).symm⟩
    · exact Or.inr ⟨‹_›, he⟩
  refine ⟨⟨h.wired.numbered, fun o l hl => ?_, fun other e' o he' ho' => ?_,
    fun r hr other e' hl he' => ?_⟩, ⟨fun other e' he' => ?_, fun other hle => ?_,
    fun other e' he' => ?_, fun other e' he' => ?_, fun other e' he' => ?_, fun job hj => ?_⟩⟩
  · obtain ⟨hlt, id, hid, he⟩ := h.wired.listeners o l hl
    exact ⟨hlt, id, Nat.lt_succ_of_lt hid, he⟩
  · rcases hlook other e' he' with ⟨-, rfl⟩ | ⟨-, he'⟩
    · simp [ho] at ho'
    · exact h.wired.registered other e' o he' ho'
  · rcases hlook other e' he' with ⟨rfl, -⟩ | ⟨-, he'⟩
    · obtain ⟨-, id, hid, he⟩ := h.wired.listeners r.id _ hl
      have hsame : s.nextEngine = id := by simpa using he
      exact absurd hid (by simp [hsame])
    · exact h.wired.own r hr other e' hl he'
  · rcases hlook other e' he' with ⟨rfl, -⟩ | ⟨-, he'⟩
    · exact Nat.lt_succ_self _
    · exact Nat.lt_succ_of_lt (h.lined.born other e' he')
  · exact h.lined.unborn other (Nat.le_of_succ_le hle)
  · rcases hlook other e' he' with ⟨-, rfl⟩ | ⟨-, he'⟩
    · rw [hg]
      rfl
    · exact h.lined.idle other e' he'
  · rcases hlook other e' he' with ⟨rfl, rfl⟩ | ⟨-, he'⟩
    · rw [hb, h.lined.unborn _ (Nat.le_refl _)]
      exact Batch.holds_empty
    · exact h.lined.holds other e' he'
  · rcases hlook other e' he' with ⟨rfl, rfl⟩ | ⟨-, he'⟩
    · have hnone : (due ++ s.frames.pending).countP (·.flushes s.nextEngine) = 0 := by
        rw [List.countP_eq_zero]
        intro job hj hflush
        obtain ⟨id, hid, rfl⟩ := h.lined.jobs job hj
        exact Nat.ne_of_lt hid ((FrameJob.flushes_flush _ _).mp hflush)
      rw [hb]
      exact hnone
    · exact h.lined.queued other e' he'
  · obtain ⟨id, hid, he⟩ := h.lined.jobs job hj
    exact ⟨id, Nat.lt_succ_of_lt hid, he⟩

theorem Steady.createEngine (name : String) (setup : EngineSetup) :
    (s.createEngine name setup).2.Steady due arrived := by
  unfold Session.createEngine
  split
  · exact h
  · exact h
  · rename_i catalog store stored _ hstore
    have hs : stored.Steady due arrived := by
      unfold engineStore at hstore
      split at hstore
      · obtain ⟨id, -, he⟩ := Option.map_eq_some_iff.mp hstore
        exact (Prod.mk.inj he).2 ▸ h
      · rw [← (Prod.mk.inj (Option.some.inj hstore)).2]
        exact h.of_still ⟨rfl, rfl, rfl, rfl, rfl, rfl, fun _ => rfl⟩ rfl
    obtain ⟨hw, hl⟩ := hs.addEngine (e := .create catalog setup.surroundings setup.settings store)
      rfl rfl rfl
    refine hl.nameEngine hw hs.owned.distinct (fun other e ho he => ?_) name
    have hne : other ≠ stored.nextEngine := ho
    rw [engine?_addEngine, if_neg hne] at he
    exact hs.owned.held other e he

end Names

section Services

-- An engine sets to work.
theorem Steady.working (h : s.Steady due arrived) (id : EngineId) :
    Steady due arrived { s with busy := id :: s.busy } where
  wired := h.wired.of_engines rfl rfl rfl fun _ e he => ⟨e, he, rfl⟩
  lined := h.lined.of_engines rfl rfl fun _ e he => ⟨e, he, rfl, rfl⟩
  owned :=
    { distinct := h.owned.distinct
      held := fun other e he =>
        (h.owned.held other e he).imp_right (List.mem_cons_of_mem id) }

theorem Steady.employ {α : Type} {work : Session → α × Session} (h : s.Steady due arrived)
    (hw : ∀ s : Session, s.Steady due arrived → (work s).2.Steady due arrived)
    (hc : ∀ s, Course s (work s).2) (id : EngineId) :
    (s.employ id work).2.Steady due arrived := by
  have hdone := hw _ (h.working id)
  have hbusy : (work { s with busy := id :: s.busy }).2.busy = id :: s.busy := (hc _).busy
  unfold Session.employ
  dsimp only
  refine Lined.endUnused (hdone.lined.of_engines rfl rfl fun _ e he => ⟨e, he, rfl, rfl⟩)
    (hdone.wired.of_engines rfl rfl rfl fun _ e he => ⟨e, he, rfl⟩) hdone.owned.distinct
    fun other e ho he => (hdone.owned.held other e he).imp_right fun hm => ?_
  rw [hbusy] at hm ⊢
  rw [List.erase_cons_head]
  exact (List.mem_cons.mp hm).resolve_left ho

theorem Steady.performOn (h : s.Steady due arrived) (id : EngineId) (e : Engine)
    (step : EngineStep) : (performOn play id e step s).2.Steady due arrived := by
  unfold Session.performOn
  cases step with
  | share name =>
      exact h.lined.nameEngine h.wired h.owned.distinct (fun other e _ he =>
        h.owned.held other e he) name
  | start => exact h.start id
  | setLocale input => exact h.setLocale id input
  | toggle => exact h.toggle id
  | apply root locale =>
      dsimp only
      split
      · exact h.applyTo id none locale
      · split
        · exact h.applyTo id _ locale
        · exact h
  | watch => exact h.watch id
  | unwatch => exact h.unwatch id
  | _ => exact h

theorem Steady.performEngine (hp : Courteous play) (h : s.Steady due arrived) (name : String)
    (step : EngineStep) : (s.performEngine play name step).2.Steady due arrived := by
  unfold Session.performEngine
  split
  · exact h
  · split
    · rename_i id _ _ e _
      exact h.employ (fun s hs => hs.performOn id e step)
        (fun s => (moves_course hp).performOn id e step s) id
    · exact h

end Services

end Session
end PageLocalizer
