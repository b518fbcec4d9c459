import PageLocalizer.Proofs.Session.Owners

-- Who is registered with the page in the name of an engine, and which engines there are.
namespace PageLocalizer

def Listener.isFor (id : EngineId) : Listener → Bool
  | .engine other => other = id
  | .script _ _ => false

-- What the page has on file for an engine that watches, and for one that does not.
def Engine.registration (e : Engine) : List Observer :=
  (e.observer.map (⟨·, Document.body⟩)).toList

theorem Engine.registration_none {e : Engine} (h : e.observer = none) : e.registration = [] := by
  simp [registration, h]

theorem Engine.registration_some {e : Engine} {o : ObserverId} (h : e.observer = some o) :
    e.registration = [⟨o, Document.body⟩] := by
  simp [registration, h]

theorem Listener.isFor_iff {l : Listener} {id : EngineId} :
    l.isFor id = true ↔ l = .engine id := by
  cases l <;> simp [isFor]

namespace Session

open Document

-- The registrations in the name of an engine.
def registrations (s : Session) (id : EngineId) : List Observer :=
  s.document.observers.filter fun r => (s.listeners.lookup r.id).any (·.isFor id)

structure Books (s : Session) : Prop where
  numbered : s.document.Numbered
  known : ∀ o l, s.listeners.lookup o = some l →
    o < s.document.nextObserver ∧ ∀ id, l = .engine id → id < s.nextEngine
  -- Scripts have names for registrations of their own only.
  scripts : ∀ name o, s.names.observers.lookup name = some o →
    ∃ script reaction, s.listeners.lookup o = some (.script script reaction)
  born : ∀ id e, s.engine? id = some e → id < s.nextEngine
  registered : ∀ id e, s.engine? id = some e → s.registrations id = e.registration
  once : ∀ id, (s.registrations id).length ≤ 1
  distinct : (s.names.engines.map Prod.fst).Nodup

-- An engine is there as long as somebody has a name for it, or it is at work.
structure Ledger (s : Session) : Prop extends Books s where
  alive : ∀ id, (s.engine? id).isSome = true ↔ s.Held id

instance (s : Session) (id : EngineId) : Decidable (s.Held id) :=
  inferInstanceAs (Decidable (_ ∨ _))

-- An engine that was there once.
def Ended (id : EngineId) (s : Session) : Prop := id < s.nextEngine ∧ s.engine? id = none

-- The registrations are the same, and so are the engines behind them.
structure Alike (s s' : Session) : Prop where
  registry : s'.document.registry = s.document.registry
  listeners : s'.listeners = s.listeners
  nextEngine : s'.nextEngine = s.nextEngine
  observerNames : s'.names.observers = s.names.observers
  observer : ∀ id, (s'.engine? id).map (·.observer) = (s.engine? id).map (·.observer)

variable {s s' s'' : Session} {id other : EngineId} {e : Engine} {r : Observer} {o : ObserverId}
  {name : String}

section Registrations

theorem mem_registrations : r ∈ s.registrations id ↔
    r ∈ s.document.observers ∧ s.listeners.lookup r.id = some (.engine id) := by
  simp [registrations, Option.any_eq_true, Listener.isFor_iff]

theorem registrations_congr (hr : s'.document.observers = s.document.observers)
    (hl : s'.listeners = s.listeners) (id : EngineId) :
    s'.registrations id = s.registrations id := by
  unfold registrations
  rw [hr, hl]

theorem registrations_disconnect (o : ObserverId) (s : Session) (id : EngineId) :
    (s.disconnect o).registrations id = (s.registrations id).filter (·.id ≠ o) := by
  show (s.document.observers.filter (·.id ≠ o)).filter _ = _
  rw [List.filter_comm]
  rfl

theorem registrations_disconnect_of_ne (h : s.listeners.lookup o ≠ some (.engine id)) :
    (s.disconnect o).registrations id = s.registrations id := by
  rw [registrations_disconnect, List.filter_eq_self]
  rintro r hr
  have hne : r.id ≠ o := fun he => h (he ▸ (mem_registrations.mp hr).2)
  simpa using hne

-- Who registers gets an id that nobody had before.
theorem Books.registrations_enlist (h : s.Books) (target : NodeId) (l : Listener)
    (hd : s'.document.observers =
      s.document.observers ++ [⟨s.document.nextObserver, target⟩])
    (hl : s'.listeners = s.listeners.set s.document.nextObserver l) (id : EngineId) :
    s'.registrations id = s.registrations id ++
      if l.isFor id then [⟨s.document.nextObserver, target⟩] else [] := by
  have hold : s.document.observers.filter (fun r => (s'.listeners.lookup r.id).any (·.isFor id)) =
      s.registrations id := by
    refine List.filter_congr fun r hr => ?_
    rw [hl, Table.lookup_set_of_ne (Nat.ne_of_lt (h.numbered.bounded r hr))]
  have hnew : (s'.listeners.lookup s.document.nextObserver).any (·.isFor id) = l.isFor id := by
    rw [hl, Table.lookup_set_self]
    rfl
  unfold registrations at hold ⊢
  rw [hd, List.filter_append, hold, List.filter_singleton, hnew, cond_eq_ite]

end Registrations

section Alike

theorem Alike.isSome (h : Alike s s') (id : EngineId) :
    (s'.engine? id).isSome = (s.engine? id).isSome := by
  simpa using congrArg Option.isSome (h.observer id)

theorem Alike.registrations (h : Alike s s') (id : EngineId) :
    s'.registrations id = s.registrations id :=
  registrations_congr (observers_of_registry h.registry) h.listeners id

theorem Books.alike (h : s.Books) (ha : Alike s s')
    (hd : (s'.names.engines.map Prod.fst).Nodup) : s'.Books := by
  have hengine : ∀ id e', s'.engine? id = some e' →
      ∃ e, s.engine? id = some e ∧ e'.observer = e.observer := by
    intro id e' he'
    have hobs := ha.observer id
    rw [he', Option.map_some, eq_comm, Option.map_eq_some_iff] at hobs
    obtain ⟨e, he, ho⟩ := hobs
    exact ⟨e, he, ho.symm⟩
  refine ⟨h.numbered.of_registry ha.registry, ?_, ?_, fun id e' he' => ?_, fun id e' he' => ?_,
    fun id => ?_, hd⟩
  · rw [ha.listeners, nextObserver_of_registry ha.registry, ha.nextEngine]
    exact h.known
  · rw [ha.observerNames, ha.listeners]
    exact h.scripts
  · obtain ⟨e, he, -⟩ := hengine id e' he'
    rw [ha.nextEngine]
    exact h.born id e he
  · obtain ⟨e, he, ho⟩ := hengine id e' he'
    rw [ha.registrations, h.registered id e he]
    unfold Engine.registration
    rw [ho]
  · rw [ha.registrations]
    exact h.once id

theorem held_congr (hn : s'.names.engines = s.names.engines) (hb : s'.busy = s.busy)
    (id : EngineId) : s'.Held id ↔ s.Held id := by
  unfold Held
  rw [hn, hb]

theorem Ledger.alike (h : s.Ledger) (ha : Alike s s')
    (hn : s'.names.engines = s.names.engines) (hb : s'.busy = s.busy) : s'.Ledger where
  toBooks := h.toBooks.alike ha (hn ▸ h.distinct)
  alive id := by
    rw [ha.isSome, held_congr hn hb]
    exact h.alive id

end Alike

section Ending

theorem endUnused_of_absent (h : s.engine? id = none) : s.endUnused id = s := by
  unfold endUnused
  split
  · rfl
  · rw [h]

-- The engine goes, and the rest depends on whether it watches and on whether the page is free.
theorem endUnused_of_unheld (h : ¬s.Held id) (he : s.engine? id = some e) :
    s.endUnused id = match e.observer with
      | some o => if s.isFree then
          { s with engines := s.engines.erase id }.disconnect o
        else { s with engines := s.engines.erase id }
      | none => { s with engines := s.engines.erase id } := by
  unfold endUnused
  split
  · exact absurd ‹_› h
  · split
    · rename_i hnone
      simp [hnone] at he
    · rename_i e' he'
      obtain rfl : e' = e := Option.some.inj (he'.symm.trans he)
      rfl

-- All but the engines and the registrations is as it was.
theorem endUnused_names (id : EngineId) (s : Session) :
    (s.endUnused id).names = s.names ∧ (s.endUnused id).busy = s.busy ∧
      (s.endUnused id).nextEngine = s.nextEngine ∧ (s.endUnused id).listeners = s.listeners := by
  unfold endUnused
  split
  · exact ⟨rfl, rfl, rfl, rfl⟩
  · split
    · exact ⟨rfl, rfl, rfl, rfl⟩
    · dsimp only
      split
      · split <;> exact ⟨rfl, rfl, rfl, rfl⟩
      · exact ⟨rfl, rfl, rfl, rfl⟩

theorem engine?_endUnused (id other : EngineId) (s : Session) :
    (s.endUnused id).engine? other =
      if other = id ∧ ¬s.Held id then none else s.engine? other := by
  by_cases hh : s.Held id
  · rw [endUnused_of_held hh, if_neg fun h => h.2 hh]
  · cases he : s.engine? id with
    | none =>
        rw [endUnused_of_absent he]
        split
        · rename_i h
          rw [h.1, he]
        · rfl
    | some e =>
        have herase : (s.endUnused id).engine? other =
            engine? { s with engines := s.engines.erase id } other := by
          rw [endUnused_of_unheld hh he]
          split
          · split <;> rfl
          · rfl
        rw [herase, engine?_endEngine]
        simp [hh]

-- What an engine leaves behind when it ends.
theorem Books.registrations_endUnused (h : s.Books) (id other : EngineId) :
    (s.endUnused id).registrations other =
      if other = id ∧ ¬s.Held id ∧ (s.engine? id).isSome = true ∧ s.access = .free then []
      else s.registrations other := by
  by_cases hh : s.Held id
  · rw [endUnused_of_held hh, if_neg fun h => h.2.1 hh]
  · cases he : s.engine? id with
    | none =>
        rw [endUnused_of_absent he, if_neg (by simp)]
    | some e =>
        have hreg := h.registered id e he
        rw [endUnused_of_unheld hh he]
        split
        · rename_i o ho
          have hmine : s.registrations id = [⟨o, body⟩] := hreg.trans (Engine.registration_some ho)
          have hfor : s.listeners.lookup o = some (.engine id) :=
            (mem_registrations.mp (hmine ▸ List.mem_cons_self : (⟨o, body⟩ : Observer) ∈ _)).2
          by_cases hfree : s.access = .free
          · rw [if_pos (isFree_iff.mpr hfree)]
            by_cases hother : other = id
            · rw [if_pos ⟨hother, hh, rfl, hfree⟩, registrations_disconnect, hother]
              show (s.registrations id).filter _ = []
              rw [hmine]
              simp
            · rw [if_neg fun h => hother h.1]
              refine registrations_disconnect_of_ne fun hl => hother ?_
              have hsame := hl.symm.trans hfor
              simpa using hsame
          · rw [if_neg fun h => hfree (isFree_iff.mp h), if_neg fun h => hfree h.2.2.2]
            rfl
        · rename_i ho
          have hnone : s.registrations id = [] := hreg.trans (Engine.registration_none ho)
          split
          · rename_i hc
            rw [hc.1]
            exact hnone
          · rfl

theorem Books.endUnused (h : s.Books) (id : EngineId) : (s.endUnused id).Books := by
  obtain ⟨hnames, -, hnext, hlisteners⟩ := endUnused_names id s
  have hregs := h.registrations_endUnused id
  have hdoc : (s.endUnused id).document.Numbered ∧
      (s.endUnused id).document.nextObserver = s.document.nextObserver := by
    unfold Session.endUnused
    split
    · exact ⟨h.numbered, rfl⟩
    · split
      · exact ⟨h.numbered, rfl⟩
      · dsimp only
        split
        · split
          · exact ⟨h.numbered.disconnect _, rfl⟩
          · exact ⟨h.numbered, rfl⟩
        · exact ⟨h.numbered, rfl⟩
  refine ⟨hdoc.1, ?_, ?_, fun other e he => ?_, fun other e he => ?_, fun other => ?_, ?_⟩
  · rw [hlisteners, hdoc.2, hnext]
    exact h.known
  · rw [hnames, hlisteners]
    exact h.scripts
  · rw [engine?_endUnused] at he
    split at he
    · simp at he
    · rw [hnext]
      exact h.born other e he
  · rw [engine?_endUnused] at he
    split at he
    · simp at he
    · rename_i hc
      rw [hregs, if_neg fun h => hc ⟨h.1, h.2.1⟩]
      exact h.registered other e he
  · rw [hregs]
    split
    · exact Nat.zero_le 1
    · exact h.once other
  · rw [hnames]
    exact h.distinct

-- If all is well but for one engine that may have nobody any more, then all is well without it.
theorem Books.ledger_endUnused (h : s.Books)
    (ho : ∀ other, other ≠ id → ((s.engine? other).isSome = true ↔ s.Held other))
    (hi : s.Held id → (s.engine? id).isSome = true) : (s.endUnused id).Ledger where
  toBooks := h.endUnused id
  alive other := by
    obtain ⟨hnames, hbusy, -, -⟩ := endUnused_names id s
    rw [held_congr (congrArg Names.engines hnames) hbusy, engine?_endUnused]
    by_cases hother : other = id
    · rw [hother]
      by_cases hh : s.Held id
      · simp [hh, hi hh]
      · simp [hh]
    · simp only [hother, false_and, if_false]
      exact ho other hother

end Ending

end Session
end PageLocalizer
