import PageLocalizer.Proofs.Session.Calm
import PageLocalizer.Proofs.Session.Reachable

-- What engines write does not come back to them as work.
namespace PageLocalizer

open Session

-- The session while an engine is at work.
def Session.working (id : EngineId) (s : Session) : Session := { s with busy := id :: s.busy }

-- A call as it is made: the engine lives at least until it is done.
def EngineCall.made (play : Play) (id : EngineId) (call : EngineCall) (s : Session) : Session :=
  (s.employ id fun s => ((), call.run play id s)).2

-- A call of an engine in a state where `w` is the engine whose writing is under way, if one is.
structure EngineCall.Discreet (play : Play) (w : Option EngineId) (id : EngineId)
    (call : EngineCall) (s : Session) : Prop where
  -- Whoever is told of the writes finds the guard of the engine up.
  guarded : ∀ t ∈ call.tellings play id (s.working id),
    ∃ e, t.session.engine? id = some e ∧ e.guard.active = true
  -- Nobody takes anything up from being told. A script may run steps of its own.
  untaken : ∀ t ∈ call.tellings play id (s.working id), ¬t.Reacts →
    (t.after play).waiting = t.session.waiting
  -- Nor do the writes themselves make anything wait.
  undisturbed : (call = .flush → s.access = .free) →
    Undisturbed play (call.begun id (s.working id)) (call.tellings play id (s.working id))
      (call.run play id (s.working id))
  -- So if no script reacts, what waited when the call began to write is what waits after it.
  unstirred : (call = .flush → s.access = .free) →
    (∀ t ∈ call.tellings play id (s.working id), ¬t.Reacts) →
      (call.run play id (s.working id)).waiting = (call.begun id (s.working id)).waiting
  -- While the page is in use there are no writes.
  held : s.access ≠ .free → call.tellings play id (s.working id) = [] ∧
    (call.run play id (s.working id)).document = s.document
  -- After the call the guard is down, unless the engine was called out of its own writing.
  lowered : ∀ e, (call.made play id s).engine? id = some e → (e.guard.active = true ↔ w = some id)

variable {s : Session} {w : Option EngineId} {id : EngineId} {play : Play} {call : EngineCall}

namespace Session

section Held

variable (hs : s.access ≠ .free)

include hs

theorem isFree_of_held : s.isFree = false := by
  rw [Bool.eq_false_iff]
  exact fun h => hs (isFree_iff.mp h)

theorem guardedTellings_of_held (id : EngineId) (edit : Edit Unit) :
    s.guardedTellings play id edit = [] := by simp [guardedTellings, isFree_of_held hs]

theorem guardedWrite_of_held (id : EngineId) (edit : Edit Unit) :
    s.guardedWrite play id edit = s := by simp [guardedWrite, isFree_of_held hs]

theorem applyTo_of_held (id : EngineId) (root : Option NodeId) (locale : Option Locale) :
    s.applyTo play id root locale = s := by
  unfold applyTo
  split
  · exact guardedWrite_of_held hs id _
  · rfl

theorem applyTellings_of_held (id : EngineId) (root : Option NodeId) (locale : Option Locale) :
    EngineCall.applyTellings play id root locale s = [] := by
  unfold EngineCall.applyTellings
  split
  · exact guardedTellings_of_held hs id _
  · rfl

theorem switch_of_held (id : EngineId) (locale : Locale) :
    EngineCall.switchTellings play id locale s = [] ∧
      (s.switchTo play id locale).document = s.document := by
  unfold EngineCall.switchTellings Session.switchTo
  cases s.engine? id with
  | none => exact ⟨rfl, rfl⟩
  | some e =>
      let shown := s.modifyEngine id ({ · with applied := some locale })
      have hshown : shown.access ≠ .free := hs
      have hmark : shown.guardedWrite play id (e.mark locale) = shown :=
        guardedWrite_of_held hshown id _
      have hkept : (shown.setPreference e.store e.settings.storageKey locale.tag).2.access ≠
          .free := by
        rw [(aside_setPreference _ _ _ shown).access]
        exact hs
      dsimp only
      rw [hmark, guardedTellings_of_held hshown, applyTellings_of_held hkept,
        applyTo_of_held hkept]
      refine ⟨rfl, ?_⟩
      unfold setPreference
      split <;> rfl

end Held

end Session

namespace EngineCall

private theorem held_call (hs : s.access ≠ .free) (id : EngineId) (call : EngineCall) :
    call.tellings play id s = [] ∧ (call.run play id s).document = s.document := by
  cases call with
  | setLocale input => exact switch_of_held hs id _
  | toggle =>
      refine ⟨(switch_of_held hs id _).1, ?_⟩
      unfold EngineCall.run Session.toggle
      dsimp only
      split
      · exact (switch_of_held hs id _).2
      · rfl
  | applyTo root locale =>
      exact ⟨applyTellings_of_held hs id root locale,
        congrArg Session.document (applyTo_of_held hs id root locale)⟩
  | flush =>
      have hfree : (s.modifyEngine id ({ · with batch := Batch.empty })).isFree = false :=
        isFree_of_held hs
      unfold EngineCall.tellings EngineCall.run Session.flush
      cases s.engine? id with
      | none => exact ⟨rfl, rfl⟩
      | some e =>
          dsimp only [Batch.take]
          rw [hfree]
          refine ⟨rfl, ?_⟩
          split
          · rfl
          · show (rebatch id _ _).document = _
            unfold rebatch
            dsimp only
            split <;> rfl

private theorem course_made (hp : Courteous play) (id : EngineId) (call : EngineCall)
    (s : Session) : Course s (call.made play id s) := course_employ (course_run hp id call) id s

end EngineCall

namespace Session

-- An engine that is at work is there while it writes.
theorem Within.engine {t : Telling} (ht : Within id s t) (hid : id ∈ s.busy) :
    (t.session.engine? id).isSome := by
  obtain ⟨before, raised, hb, hr, hc⟩ := ht.raised
  have hbusy : id ∈ raised.busy := by
    rw [hr.busy, hb.busy]
    exact hid
  refine hc.stays id hbusy ?_
  rw [engine?, hr.engines]
  exact (isSome_modifyEngine id id _ before).trans hr.engine

private theorem discreet_call (hp : Courteous play) (hg : Guarded w s) (id : EngineId)
    (call : EngineCall) : call.Discreet play w id s := by
  have hgw : Guarded w (s.working id) := hg.of_engines rfl rfl (Or.inl rfl)
  have hid : id ∈ (s.working id).busy := List.mem_cons_self
  have huntaken : ∀ t ∈ call.tellings play id (s.working id), ¬t.Reacts →
      (t.after play).waiting = t.session.waiting := by
    intro t ht hr
    have hwithin := EngineCall.within_of_call hp ht
    exact waiting_after (hgw.within hwithin).orderly hwithin.plain hr
  have hundisturbed : (call = .flush → s.access = .free) →
      Undisturbed play (call.begun id (s.working id)) (call.tellings play id (s.working id))
        (call.run play id (s.working id)) := by
    intro hs
    have hfree : call = .flush → (s.working id).access = .free := hs
    exact EngineCall.undisturbed_call call hfree
  refine ⟨?_, huntaken, hundisturbed, fun hs hr => ?_, ?_, ?_⟩
  · intro t ht
    have hwithin := EngineCall.within_of_call hp ht
    obtain ⟨e, he⟩ := Option.isSome_iff_exists.mp (hwithin.engine hid)
    exact ⟨e, he, ((hgw.within hwithin).active_iff id e he).mpr rfl⟩
  · exact (hundisturbed hs).waiting_eq fun t ht => huntaken t ht (hr t ht)
  · intro hs
    have hheld : (s.working id).access ≠ .free := hs
    exact EngineCall.held_call hheld id call
  · intro e he
    have hcourse := EngineCall.course_made hp id call s
    exact (hg.course hcourse).active_iff id e he

-- Whatever the state, whoever watches and however deep scripts go, a call is discreet. If only
-- engines edit the page, a frame that gets the page leaves no engine waiting for another frame.
theorem discreet_of_reachable (hs : Reachable w s) (depth : Nat) :
    (∀ id (call : EngineCall), call.Discreet (Session.play depth) w id s) ∧
      (s.access = .free → s.Unedited →
        ∀ id, .flush id ∉ (s.runFrame (Session.play depth)).2.frames.pending) := by
  have hp := courteous_play depth
  have hg := guarded_of_reachable hs
  refine ⟨discreet_call hp hg, fun hfree hu id => ?_⟩
  exact (calm_runFrame hp (soothing_play depth) hg.orderly hu fun _ _ => hfree).no_flush id

-- Two engines watch a page, a script asks for the frames from within, and an element waits.
def twoEngines : Session :=
  let indicator := Sketch.element "b" [(Directive.languageIndicator.marker, "")] [] none
  let setup : EngineSetup :=
    { surroundings := some "de", store := none, settings := .standard, sources := some [] }
  let script : List Step :=
    [.createEngine "first" setup, .engine "first" .start, .createEngine "second" setup,
      .engine "second" .start, .observe "$root" "all" (some [.frames]),
      .edit (.build (some "$body") indicator)]
  (Session.play 2 script .initial).2

theorem discreet_twoEngines : Reachable none twoEngines ∧
    (EngineCall.toggle.tellings (Session.play 2) 0 (twoEngines.working 0)).length = 5 ∧
    EngineCall.toggle.Discreet (Session.play 2) none 0 twoEngines ∧
    twoEngines.access = .free ∧ twoEngines.Unedited ∧ twoEngines.frames.pending.length = 2 ∧
    ∀ id, .flush id ∉ (twoEngines.runFrame (Session.play 2)).2.frames.pending := by
  have hr : Reachable none twoEngines := Reachable.initial.play 2 _
  have hfree : twoEngines.access = .free := by decide +kernel
  have hu : twoEngines.Unedited := by decide +kernel
  obtain ⟨hcalls, hframe⟩ := discreet_of_reachable hr 2
  exact ⟨hr, by decide +kernel, hcalls 0 .toggle, hfree, hu, by decide +kernel, hframe hfree hu⟩

end Session
end PageLocalizer
