import PageLocalizer.Proofs.Session.Histories

-- The registrations of engines are in order at any time, and an engine that has ended is silent for
-- ever.
namespace PageLocalizer.Session

open Document

-- Nothing makes the engine act: nobody can call it, what is told to it and what waits for it comes
-- to nothing, and it does not write.
structure Mute (id : EngineId) (s : Session) : Prop where
  unnamed : ∀ name, s.names.engines.lookup name ≠ some id
  idle : id ∉ s.busy
  call : ∀ play call, EngineCall.run play id call s = s
  hear : ∀ play c o, s.listeners.lookup o = some (.engine id) → s.hear play c o = s
  frame : ∀ play, runJob play (.flush id) s = s
  write : ∀ play edit, s.guardedWrite play id edit = s

-- What holds of the engines and their registrations in every state of a session.
structure Exact (s : Session) : Prop where
  -- An engine lives as long as it has a handle, or is in the middle of something.
  living : ∀ id, (s.engine? id).isSome = true ↔
    (∃ name, s.names.engines.lookup name = some id) ∨ id ∈ s.busy
  watching : ∀ id e, s.engine? id = some e → e.status.watching = true →
    ∃ o, e.observer = some o ∧ s.registrations id = [⟨o, body⟩]
  resting : ∀ id e, s.engine? id = some e → e.status.watching = false → s.registrations id = []
  once : ∀ id, (s.registrations id).length ≤ 1
  unborn : ∀ id, s.nextEngine ≤ id → s.registrations id = []
  -- Without its last handle an idle engine ends. With the page in use, its registration stays.
  dropping : ∀ name id, s.names.engines.lookup name = some id →
    (∀ other, s.names.engines.lookup other = some id → other = name) → id ∉ s.busy →
    (s.dropEngine name).2.Ended id ∧ (s.dropEngine name).2.registrations id =
      if s.access = .free then [] else s.registrations id
  -- If it loses its last handle in the middle of something, it ends when that is done.
  called : ∀ depth name id step, s.names.engines.lookup name = some id → s.access = .free →
    let t := (s.performEngine (Session.play depth) name step).2
    t.engine? id = none → t.registrations id = []
  flushed : ∀ depth id, (s.engine? id).isSome = true → s.access = .free →
    let t := runJob (Session.play depth) (.flush id) s
    t.engine? id = none → t.registrations id = []
  -- However it ends, it leaves nothing to a page that is free.
  ending : ∀ s', Deed s s' → ∀ id, (s.engine? id).isSome = true → s'.engine? id = none →
    s'.registrations id = if s.access = .free then [] else s.registrations id
  ended : ∀ s', Leads s s' → ∀ id, s.Ended id →
    s'.Ended id ∧ s'.registrations id = s.registrations id ∧ s'.Mute id

variable {s s' : Session} {id : EngineId} {e : Engine} {name : String}

theorem ledger_initial : initial.Ledger where
  numbered := numbered_empty
  known o l h := by simp [initial] at h
  scripts name o h := by simp [initial, Names.initial] at h
  born id e h := by simp [engine?, initial] at h
  registered id e h := by simp [engine?, initial] at h
  once id := Nat.zero_le 1
  distinct := List.nodup_nil
  alive id := by simp [engine?, initial, Held, Names.initial]

theorem Ledger.leads (h : s.Ledger) (hl : Leads s s') : s'.Ledger := by
  induction hl with
  | refl => exact h
  | tail _ hd ih => exact (hd.ledger_settles ih).1

-- What an engine left behind when it ended stays as it is, and the engine does not come back.
theorem Ledger.ended (h : s.Ledger) (hl : Leads s s') (he : s.Ended id) :
    s'.Ended id ∧ s'.registrations id = s.registrations id := by
  induction hl with
  | refl => exact ⟨he, rfl⟩
  | @tail t t' hlt hd ih =>
      obtain ⟨hended, hregs⟩ := ih
      have hsettles := (hd.ledger_settles (h.leads hlt)).2
      have hnone := hsettles.ended id hended.1 hended.2
      refine ⟨⟨Nat.lt_of_lt_of_le hended.1 hsettles.nextEngine, hnone⟩, ?_⟩
      rw [hsettles.left id hended.1 hnone, if_neg (by simp [hended.2])]
      exact hregs

theorem Books.held_iff (h : s.Books) (id : EngineId) :
    s.Held id ↔ (∃ name, s.names.engines.lookup name = some id) ∨ id ∈ s.busy :=
  or_congr (isNamed_iff.trans (exists_congr fun _ =>
    ⟨Table.lookup_of_mem h.distinct, Table.mem_of_lookup⟩)) Iff.rfl

theorem Ledger.mute (h : s.Ledger) (he : s.engine? id = none) : s.Mute id := by
  have hheld : ¬s.Held id := by
    rw [← h.alive id, he]
    simp
  rw [h.held_iff, not_or, not_exists] at hheld
  refine ⟨hheld.1, hheld.2, fun play call => ?_, fun play c o ho => ?_, fun play => ?_,
    fun play edit => ?_⟩
  · cases call <;>
      simp [EngineCall.run, Session.setLocale, Session.toggle, Session.switchTo, Session.applyTo,
        Session.flush, he]
  · simp [Session.hear, ho, engineHears, he]
  · simp [runJob, he]
  · simp [Session.guardedWrite, he]

-- A handle is a handle of an engine that lives.
theorem Ledger.isSome_of_lookup (h : s.Ledger) (hid : s.names.engines.lookup name = some id) :
    (s.engine? id).isSome = true := (h.alive id).mpr ((h.held_iff id).mpr (Or.inl ⟨name, hid⟩))

theorem Books.lt_of_isSome (h : s.Books) (hid : (s.engine? id).isSome = true) :
    id < s.nextEngine := by
  obtain ⟨e, he⟩ := Option.isSome_iff_exists.mp hid
  exact h.born id e he

theorem Ledger.dropping (h : s.Ledger) (hid : s.names.engines.lookup name = some id)
    (hlast : ∀ other, s.names.engines.lookup other = some id → other = name)
    (hidle : id ∉ s.busy) : (s.dropEngine name).2.Ended id := by
  let t := s.modifyNames fun n => { n with engines := n.engines.erase name }
  have hunheld : ¬t.Held id := by
    rintro (hnamed | hbusy)
    · obtain ⟨key, hm⟩ := isNamed_iff.mp hnamed
      obtain ⟨hm, hkey⟩ := List.mem_filter.mp hm
      have hsame := hlast key (Table.lookup_of_mem h.distinct hm)
      simp [hsame] at hkey
    · exact hidle hbusy
  have hdrop : (s.dropEngine name).2 = t.endUnused id := by
    simp [Session.dropEngine, hid, t]
  rw [hdrop]
  refine ⟨?_, ?_⟩
  · rw [(endUnused_names id t).2.2.1]
    exact h.lt_of_isSome (h.isSome_of_lookup hid)
  · rw [engine?_endUnused, if_pos ⟨rfl, hunheld⟩]

-- While an engine does something it lives on, and the page is in the same hands afterwards.
theorem Ledger.employ {α : Type} {work : Session → α × Session} (h : s.Ledger)
    (hid : (s.engine? id).isSome = true)
    (hw : ∀ t, (t.engine? id).isSome = true → Leads t (work t).2)
    (hc : ∀ t, Course t (work t).2) (hfree : s.access = .free)
    (hend : (s.employ id work).2.engine? id = none) :
    (s.employ id work).2.registrations id = [] := by
  let t : Session := { s with busy := id :: s.busy }
  have hdone : (work t).2.Ledger := (h.working hid).leads (hw t hid)
  have hlive : ((work t).2.engine? id).isSome = true := (hc t).stays id List.mem_cons_self hid
  have hpage : (work t).2.access = .free := (hc t).access.trans hfree
  have hleft := (hdone.done id).2.left id (hdone.lt_of_isSome hlive) hend
  exact hleft.trans (if_pos ⟨hlive, hpage⟩)

theorem Ledger.exact (h : s.Ledger) : s.Exact where
  living id := (h.alive id).trans (h.held_iff id)
  watching id e he hw := by
    obtain ⟨o, ho⟩ := Option.isSome_iff_exists.mp hw
    exact ⟨o, ho, (h.registered id e he).trans (Engine.registration_some ho)⟩
  resting id e he hw := by
    have hnone : e.observer = none := by simpa [Engine.status] using hw
    exact (h.registered id e he).trans (Engine.registration_none hnone)
  once := h.once
  unborn _ := h.registrations_unborn
  dropping name id hid hlast hidle := by
    have hlive := h.isSome_of_lookup hid
    have hended := h.dropping hid hlast hidle
    refine ⟨hended, ?_⟩
    rw [(h.dropEngine name).2.left id (h.lt_of_isSome hlive) hended.2]
    simp [hlive]
  called depth name id step hid hfree := by
    have hlive := h.isSome_of_lookup hid
    obtain ⟨e, he⟩ := Option.isSome_iff_exists.mp hlive
    have hcall : s.performEngine (Session.play depth) name step =
        s.employ id (performOn (Session.play depth) id e step) := by
      simp [performEngine, hid, he]
    intro t ht
    rw [show t = (s.employ id (performOn (Session.play depth) id e step)).2 from
      congrArg Prod.snd hcall] at ht ⊢
    have hstrides := strides_leads (plays_play depth)
    exact h.employ hlive (fun _ hl => hstrides.performOn (fun _ => trivial) hl e)
      (fun t => (moves_course (courteous_play depth)).performOn id e step t) hfree ht
  flushed depth id hlive hfree := by
    intro t ht
    have hjob : t = (s.employ id fun s => ((), s.flush (Session.play depth) id)).2 := if_pos hlive
    rw [hjob] at ht ⊢
    exact h.employ hlive (fun t _ => (strides_leads (plays_play depth)).flush id t)
      (fun t => course_flush (courteous_play depth) id t) hfree ht
  ending s' hd id hlive hnone := by
    rw [(hd.ledger_settles h).2.left id (h.lt_of_isSome hlive) hnone]
    simp [hlive]
  ended s' hl id he := by
    obtain ⟨hended, hregs⟩ := h.ended hl he
    exact ⟨hended, hregs, (h.leads hl).mute hended.2⟩

-- Whatever happened so far, all is in order. Any script leads on from here, and so do the calls and
-- the edits that observers are told of while they are made.
theorem exact_of_leads (h : Leads .initial s) (depth : Nat) :
    s.Exact ∧ (∀ steps, Leads s (Session.play depth steps s).2) ∧
      (∀ id call, ∀ t ∈ EngineCall.tellings (Session.play depth) id call s, Leads s t.session) ∧
      (∀ e edit, PageEdit.plan s.names.nodes e = some edit →
        ∀ t ∈ writeTellings (Session.play depth) edit s, Leads s t.session) := by
  have hstrides := strides_leads (plays_play depth)
  refine ⟨(ledger_initial.leads h).exact, fun steps => plays_play depth steps s,
    fun id call t ht => ?_, fun e edit hplan t ht => ?_⟩
  · exact hstrides.callTellings trivial ht
  · exact hstrides.writeTellings (hstrides.planned trivial hplan) ht

-- While somebody writes to the page, an engine that watches loses its only handle.
def deserted : List Step :=
  let setup : EngineSetup :=
    { surroundings := none, store := none, settings := .standard, sources := some [] }
  [.createEngine "engine" setup, .engine "engine" .start, .hold true [.dropEngine "engine"]]

theorem deserted_for_good :
    let s := (Session.play 2 deserted initial).2
    s.registrations 0 = [⟨0, body⟩] ∧
      ∀ t, Leads s t → t.registrations 0 = [⟨0, body⟩] ∧ t.Mute 0 := by
  intro s
  have hleads : Leads .initial s := plays_play 2 deserted initial
  have hended : s.Ended 0 := ⟨by decide +kernel, by
    have hnone : (s.engine? 0).isNone = true := by decide +kernel
    exact Option.isNone_iff_eq_none.mp hnone⟩
  have hleft : s.registrations 0 = [⟨0, body⟩] := by decide +kernel
  refine ⟨hleft, fun t ht => ?_⟩
  obtain ⟨-, hregs, hmute⟩ := (exact_of_leads hleads 2).1.ended t ht 0 hended
  exact ⟨hregs.trans hleft, hmute⟩

-- Two elements wait for an engine, and a script drops its only handle when the first is translated.
def unsettled : List Step :=
  let setup : EngineSetup :=
    { surroundings := none, store := none, settings := .standard, sources := some [] }
  let paragraph : Step :=
    .edit (.build (some "$body") (.element "p" [("data-i18n-lang", "")] [] none))
  [.createEngine "engine" setup, .engine "engine" .start, paragraph, paragraph,
    .observe "$body" "observer" (some [.dropEngine "engine"])]

-- A handle that goes while the page is in use may leave a registration behind. And an engine goes
-- on writing without a handle until it has done what it has begun: it has one when it and the
-- script hear of the first translation, and none when they hear of the second.
theorem inexact_in_use :
    let s := (Session.play 2 deserted initial).2
    let t := (Session.play 2 unsettled initial).2
    let told := EngineCall.tellings (Session.play 2) 0 .flush { t with busy := [0] }
    (s.access = .free ∧ s.names.engines = [] ∧ s.registrations 0 = [⟨0, body⟩]) ∧
      told.map (fun u => (u.change.record.target, u.session.names.engines)) =
        [(⟨5, 0⟩, [("engine", 0)]), (⟨5, 0⟩, [("engine", 0)]), (⟨6, 0⟩, []), (⟨6, 0⟩, [])] := by
  decide +kernel

end PageLocalizer.Session
