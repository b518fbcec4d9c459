import PageLocalizer.Proofs.Session.Callbacks

-- The smallest pieces that all that goes on in a session is made of: steps, whole scripts, frames,
-- calls of engines, and what runs in between while observers are told. What each piece leads to,
-- all of them lead to, and so does everything on the way.
namespace PageLocalizer

-- An engine is asked to go to a locale.
def EngineStep.sets : EngineStep → Bool
  | .start | .setLocale _ | .toggle => true
  | _ => false

namespace Session

-- `ok` says which steps may be taken, and `loud` whether engines may go to other locales.
structure Strides (loud : Prop) (ok : Step → Prop) (play : Play)
    (R : Session → Session → Prop) : Prop where
  refl (s : Session) : R s s
  trans {s s' s'' : Session} : R s s' → R s' s'' → R s s''
  light {s s' : Session} : Light s s' → R s s'
  access (a : Access) (s : Session) : R s { s with access := a }
  -- Nothing comes to wait for a frame here.
  frames {f : Frames FrameJob} {s : Session} : f.pending ⊆ s.frames.pending →
    R s { s with frames := f }
  flushing (id : EngineId) (s : Session) : R s (s.requestFlush id)
  guard (id : EngineId) (guard : Guard) (s : Session) :
    R s (s.modifyEngine id ({ · with guard }))
  batch (id : EngineId) (batch : Batch) (s : Session) :
    R s (s.modifyEngine id ({ · with batch }))
  -- The page changes before anybody is told.
  passed (c : Catalog) (l : Locale) (root : NodeId) (s : Session) :
    R s { s with document := (Translation.pass c l root s.document).document }
  planned {e : PageEdit} {nodes : Table String NodeId} {edit : Edit Outcome} : ok (.edit e) →
    e.plan nodes = some edit → ∀ s, R s { s with document := (edit s.document).document }
  marked : loud → ∀ (e : Engine) (l : Locale) (s : Session),
    R s { s with document := (e.mark l s.document).document }
  applied : loud → ∀ (id : EngineId) (l : Locale) (s : Session),
    R s (s.modifyEngine id ({ · with applied := some l }))
  kept {s s' : Session} {id : EngineId} {e : Engine} : loud → s.engine? id = some e → R s s' →
    ∀ value, R s (s'.setPreference e.store e.settings.storageKey value).2
  stored {step : StoreStep} : ok (.store step) → ∀ s, R s (s.performStore step).2
  watch (id : EngineId) (s : Session) : R s (s.watch id)
  unwatch (id : EngineId) (s : Session) : R s (s.unwatch id)
  observe {target name : String} {reaction : Option (List Step)} :
    ok (.observe target name reaction) → ∀ s, R s (s.observe target name reaction).2
  disconnectNamed (name : String) (s : Session) : R s (s.disconnectNamed name).2
  -- An engine sets to work, and later it is done.
  working {s : Session} {id : EngineId} : (s.engine? id).isSome = true →
    R s { s with busy := id :: s.busy }
  done (id : EngineId) (s : Session) : R s (endUnused id { s with busy := s.busy.erase id })
  nameEngine {s : Session} {id : EngineId} : (s.engine? id).isSome = true →
    ∀ name, R s (s.nameEngine name id)
  dropEngine (name : String) (s : Session) : R s (s.dropEngine name).2
  created {s s' : Session} {setup : EngineSetup} {store : StoreId} :
    s.engineStore setup = some (store, s') → ∀ (catalog : Catalog) (name : String),
      R s ((s'.addEngine (.create catalog setup.surroundings setup.settings store)).2.nameEngine
        name s'.nextEngine)
  request {name : String} {steps : List Step} : ok (.requestFrame name steps) →
    ∀ s, R s (Frames.request s (FrameJob.script name steps))
  settings {name : String} {step : EngineStep} : ok (.engine name step) → step.sets = true → loud
  -- Scripts run: reactions, what waited for a frame, and those that steps hold.
  reacts {s : Session} {o : ObserverId} {name : String} {steps : List Step} :
    s.listeners.lookup o = some (.script name (some steps)) → R s (play steps s).2
  due {s s' : Session} {name : String} {steps : List Step} :
    .script name steps ∈ s.frames.pending → R s s' → R s (play steps s').2
  repeated {times : Nat} {steps : List Step} : ok (.repeated times steps) →
    ∀ s, R s (play steps s).2
  held {exclusive : Bool} {steps : List Step} : ok (.hold exclusive steps) →
    ∀ s, R s (play steps s).2

variable {loud : Prop} {ok : Step → Prop} {play : Play} {R : Session → Session → Prop}
  {s : Session} {id : EngineId} {e : Engine} {t : Telling} {c : Change}

-- The page that comes of an edit is one of the pieces.
def Allows (R : Session → Session → Prop) {α : Type} (edit : Edit α) : Prop :=
  ∀ s : Session, R s { s with document := (edit s.document).document }

namespace Strides

section Writing

variable (h : Strides loud ok play R)

include h

theorem translate (e : Engine) (l : Locale) (root : NodeId) : Allows R (e.translate l root) :=
  h.passed e.catalog l root

theorem rebatch (id : EngineId) (b : Batched) (s : Session) : R s (s.rebatch id b) := by
  have hset := h.batch id b.batch s
  unfold Session.rebatch
  dsimp only
  split
  · exact h.trans hset (h.flushing id _)
  · exact hset

theorem engineHears (id : EngineId) (c : Change) (s : Session) : R s (s.engineHears id c) := by
  unfold Session.engineHears
  split
  · exact h.rebatch id _ s
  · exact h.refl s

theorem hear (c : Change) (o : ObserverId) (s : Session) : R s (s.hear play c o) := by
  unfold Session.hear
  split
  · exact h.engineHears _ c s
  · exact h.light (light_record _ s)
  · rename_i name steps hl
    have hheard := h.light (light_record (.heard name c) s)
    have hreacted : R (s.record (.heard name c)) (play steps (s.record (.heard name c))).2 :=
      h.reacts hl
    exact h.trans (h.trans hheard hreacted) (h.light (light_record _ _))
  · exact h.refl s

theorem hearAll (c : Change) (observers : List ObserverId) (s : Session) :
    R s (observers.foldl (Session.hear play c) s) := by
  induction observers generalizing s with
  | nil => exact h.refl s
  | cons o rest ih => exact h.trans (h.hear c o s) (ih _)

theorem deliver (changes : List Change) (s : Session) : R s (deliver play changes s) := by
  induction changes generalizing s with
  | nil => exact h.refl s
  | cons c rest ih => exact h.trans (h.hearAll c c.audience s) (ih _)

theorem edited {α : Type} {edit : Edit α} (he : Allows R edit) (s : Session) :
    R s { s with document := (edit s.document).document, access := .exclusive } :=
  h.trans (he s) (h.access .exclusive _)

theorem write {α : Type} {edit : Edit α} (he : Allows R edit) (s : Session) :
    R s (s.write play edit).2 :=
  h.trans (h.trans (h.edited he s) (h.deliver _ _)) (h.access .free _)

theorem guardedWrite {edit : Edit Unit} (he : Allows R edit) (id : EngineId) (s : Session) :
    R s (s.guardedWrite play id edit) := by
  unfold Session.guardedWrite
  split
  · rename_i e _ _
    have hraised := h.guard id e.guard.acquire.2 s
    exact h.trans (h.trans hraised (h.write he _)) (h.guard id _ _)
  · exact h.refl s

theorem applyTo (id : EngineId) (root : Option NodeId) (locale : Option Locale) (s : Session) :
    R s (s.applyTo play id root locale) := by
  unfold Session.applyTo
  split
  · exact h.guardedWrite (h.translate _ _ _) id s
  · exact h.refl s

theorem switchTo (hl : loud) (id : EngineId) (locale : Locale) (s : Session) :
    R s (s.switchTo play id locale) := by
  unfold Session.switchTo
  split
  · rename_i e he
    have hmarked := h.trans (h.applied hl id locale s)
      (h.guardedWrite (h.marked hl e locale) id _)
    exact h.trans (h.kept hl he hmarked _) (h.applyTo id none _ _)
  · exact h.refl s

theorem setLocale (hl : loud) (id : EngineId) (input : Option String) (s : Session) :
    R s (s.setLocale play id input).2 := h.switchTo hl id _ s

theorem toggle (hl : loud) (id : EngineId) (s : Session) : R s (s.toggle play id).2 := by
  unfold Session.toggle
  split
  · exact h.setLocale hl id _ s
  · exact h.refl s

theorem start (hl : loud) (id : EngineId) (s : Session) : R s (s.start play id).2 := by
  have hset := h.setLocale hl id none s
  unfold Session.start
  dsimp only
  split
  · dsimp only
    split
    · exact h.trans hset (h.watch id _)
    · exact hset
  · exact hset

theorem translateEach (id : EngineId) (e : Engine) (locale : Locale) (nodes : List NodeId)
    (s : Session) :
    R s (nodes.foldl (fun s node => s.guardedWrite play id (e.translate locale node)) s) := by
  induction nodes generalizing s with
  | nil => exact h.refl s
  | cons node rest ih =>
      exact h.trans (h.guardedWrite (h.translate e locale node) id s) (ih _)

theorem flush (id : EngineId) (s : Session) : R s (s.flush play id) := by
  have htake := h.batch id .empty s
  unfold Session.flush
  split
  · exact h.refl s
  · dsimp only [Batch.take]
    split
    · exact htake
    · split
      · exact h.trans htake (h.translateEach id _ _ _ _)
      · exact h.trans htake (h.rebatch id _ _)

theorem translateWith (root : String) (locale : Locale) (sources : Option (List CatalogSource))
    (guard : Option String) (s : Session) :
    R s (s.translateWith play root locale sources guard).2 := by
  unfold Session.translateWith
  split
  · exact h.refl s
  · split
    · exact h.refl s
    · exact h.refl s
    · rename_i catalog root _ _
      have hpass : Allows R (Translation.pass catalog locale root) :=
        h.passed catalog locale root
      dsimp only
      split
      · exact h.write hpass s
      · split
        · exact h.refl s
        · exact h.trans (h.trans (h.light (light_setGuard _ _ s)) (h.write hpass _))
            (h.light (light_setGuard _ _ _))

theorem performEdit {e : PageEdit} (he : ok (.edit e)) (s : Session) :
    R s (s.performEdit play e).2 := by
  unfold Session.performEdit
  split
  · exact h.refl s
  · split
    · exact h.refl s
    · rename_i edit hplan
      have hw : R s (s.write play edit).2 := h.write (h.planned he hplan) s
      split
      · rename_i outcome written hwritten
        rw [hwritten] at hw
        exact h.trans hw (h.light (light_nameNodes outcome.names written))
      · rename_i hwritten
        rw [hwritten] at hw
        exact hw

end Writing

section Work

variable (h : Strides loud ok play R)

include h

-- An engine does something, lives until it is done, and may end then.
theorem employ {α : Type} {work : Session → α × Session}
    (hw : ∀ s, (s.engine? id).isSome = true → R s (work s).2)
    (hid : (s.engine? id).isSome = true) : R s (s.employ id work).2 := by
  have hworks : R s (work { s with busy := id :: s.busy }).2 :=
    h.trans (h.working hid) (hw _ hid)
  exact h.trans hworks (h.done id _)

theorem createEngine (name : String) (setup : EngineSetup) (s : Session) :
    R s (s.createEngine name setup).2 := by
  unfold Session.createEngine
  split
  · exact h.refl s
  · exact h.refl s
  · rename_i hstore
    exact h.created hstore _ name

theorem performOn {step : EngineStep} (hl : step.sets = true → loud)
    (hid : (s.engine? id).isSome = true) (e : Engine) :
    R s (performOn play id e step s).2 := by
  unfold Session.performOn
  cases step with
  | share name => exact h.nameEngine hid name
  | start => exact h.start (hl rfl) id s
  | setLocale input => exact h.setLocale (hl rfl) id input s
  | toggle => exact h.toggle (hl rfl) id s
  | apply root locale =>
      dsimp only
      split
      · exact h.applyTo id none locale s
      · split
        · exact h.applyTo id _ locale s
        · exact h.refl s
  | watch => exact h.watch id s
  | unwatch => exact h.unwatch id s
  | _ => exact h.refl s

theorem performEngine (name : String) {step : EngineStep} (hl : step.sets = true → loud)
    (s : Session) : R s (s.performEngine play name step).2 := by
  unfold Session.performEngine
  split
  · exact h.refl s
  · split
    · rename_i e he
      exact h.employ (fun s hid => h.performOn hl hid e) (by simp [he])
    · exact h.refl s

-- A frame runs what waited when it began.
theorem runJobs {s' : Session} {jobs : List FrameJob} (hj : jobs ⊆ s.frames.pending)
    (hs : R s s') : R s (jobs.foldl (fun s job => runJob play job s) s') := by
  induction jobs generalizing s' with
  | nil => exact hs
  | cons job rest ih =>
      obtain ⟨hdue, hrest⟩ := List.cons_subset.mp hj
      refine ih hrest ?_
      cases job with
      | flush id =>
          unfold runJob
          dsimp only
          split
          · exact h.trans hs (h.employ (fun s _ => h.flush id s) ‹_›)
          · exact hs
      | script name steps => exact h.trans (h.due hdue hs) (h.light (light_record _ _))

theorem runFrame (s : Session) : R s (s.runFrame play).2 := by
  let begun : Session := { s with frames := { s.frames with pending := [] } }
  have hbegun : R s begun := h.frames (List.nil_subset _)
  have hran := h.runJobs (List.Subset.refl _) hbegun
  exact h.trans hran (h.frames (List.Subset.refl _))

theorem runUntilIdle (limit : Nat) (s : Session) : R s (s.runUntilIdle play limit).2 := by
  induction limit generalizing s with
  | zero => exact h.refl s
  | succ limit ih =>
      unfold Session.runUntilIdle Frames.runUntilIdle
      split
      · exact h.refl s
      · exact h.trans (h.runFrame s) (ih _)

theorem performRepeated {steps : List Step} (hp : ∀ s, R s (play steps s).2) (times : Nat)
    (answers : List Answer) (s : Session) :
    R s (performRepeated play steps times answers s).2 := by
  induction times generalizing answers s with
  | zero => exact h.refl s
  | succ times ih => exact h.trans (h.trans (h.light (light_log [] s)) (hp _)) (ih _ _)

theorem performHold {exclusive : Bool} {steps : List Step} (hp : ∀ s, R s (play steps s).2)
    (s : Session) : R s (s.performHold play exclusive steps).2 := by
  unfold Session.performHold
  dsimp only
  split
  · exact h.refl s
  · exact h.trans (h.trans (h.access _ s) (hp _)) (h.access s.access _)

theorem perform {step : Step} (hs : ok step) (s : Session) : R s (perform play step s).2 := by
  cases step with
  | edit e => exact h.performEdit hs s
  | ask q => exact h.light (light_performQuery q s)
  | foreign count name => exact h.light (light_nameForeign count name s)
  | observe target name reaction => exact h.observe hs s
  | disconnect name => exact h.disconnectNamed name s
  | translate root locale sources guard => exact h.translateWith root locale sources guard s
  | guard g => exact h.light (light_performGuard g s)
  | batch b => exact h.light (light_performBatch b s)
  | store st => exact h.stored hs s
  | requestFrame name steps => exact h.request hs s
  | runFrame => exact h.runFrame s
  | runUntilIdle limit => exact h.runUntilIdle limit s
  | frames => exact h.refl s
  | createEngine name setup => exact h.createEngine name setup s
  | dropEngine name => exact h.dropEngine name s
  | engine name e => exact h.performEngine name (h.settings hs) s
  | repeated times steps => exact h.performRepeated (h.repeated hs) times [] s
  | hold exclusive steps => exact h.performHold (h.held hs) s

theorem inOrder {steps : List Step} (hs : ∀ step ∈ steps, ok step) (s : Session) :
    R s (inOrder (Session.perform play) steps s).2 := by
  induction steps generalizing s with
  | nil => exact h.refl s
  | cons step rest ih =>
      have hfirst := h.perform (hs step List.mem_cons_self) s
      exact h.trans hfirst (ih (fun step hm => hs step (List.mem_cons_of_mem _ hm)) _)

end Work

section Tellings

variable (h : Strides loud ok play R)

include h

-- Whoever is told of a change while it is made is told in a state on the way.
theorem tellEach {observers : List ObserverId} (ht : t ∈ tellEach play c observers s) :
    R s t.session := by
  induction observers generalizing s with
  | nil => simp [Session.tellEach] at ht
  | cons o rest ih =>
      rcases List.mem_cons.mp ht with rfl | ht
      · exact h.refl s
      · exact h.trans (h.hear c o s) (ih ht)

theorem tellings {changes : List Change} (ht : t ∈ tellings play changes s) : R s t.session := by
  induction changes generalizing s with
  | nil => simp [Session.tellings] at ht
  | cons c rest ih =>
      rcases List.mem_append.mp ht with ht | ht
      · exact h.tellEach ht
      · exact h.trans (h.hearAll c c.audience s) (ih ht)

theorem writeTellings {α : Type} {edit : Edit α} (he : Allows R edit)
    (ht : t ∈ writeTellings play edit s) : R s t.session :=
  h.trans (h.edited he s) (h.tellings ht)

theorem guardedTellings {edit : Edit Unit} (he : Allows R edit)
    (ht : t ∈ guardedTellings play id edit s) : R s t.session := by
  unfold Session.guardedTellings at ht
  split at ht
  · exact h.trans (h.guard id _ s) (h.writeTellings he ht)
  · simp at ht

theorem applyTellings {root : Option NodeId} {locale : Option Locale}
    (ht : t ∈ EngineCall.applyTellings play id root locale s) : R s t.session := by
  unfold EngineCall.applyTellings at ht
  split at ht
  · exact h.guardedTellings (h.translate _ _ _) ht
  · simp at ht

theorem switchTellings (hl : loud) {locale : Locale}
    (ht : t ∈ EngineCall.switchTellings play id locale s) : R s t.session := by
  unfold EngineCall.switchTellings at ht
  split at ht
  · rename_i e he
    have hshown := h.applied hl id locale s
    rcases List.mem_append.mp ht with ht | ht
    · exact h.trans hshown (h.guardedTellings (h.marked hl e locale) ht)
    · have hmarked := h.trans hshown (h.guardedWrite (h.marked hl e locale) id _)
      exact h.trans (h.kept hl he hmarked _) (h.applyTellings ht)
  · simp at ht

theorem translateTellings {locale : Locale} {nodes : List NodeId}
    (ht : t ∈ EngineCall.translateTellings play id e locale nodes s) : R s t.session := by
  induction nodes generalizing s with
  | nil => simp [EngineCall.translateTellings] at ht
  | cons node rest ih =>
      rcases List.mem_append.mp ht with ht | ht
      · exact h.guardedTellings (h.translate e locale node) ht
      · exact h.trans (h.guardedWrite (h.translate e locale node) id s) (ih ht)

theorem callTellings (hl : loud) {call : EngineCall} (ht : t ∈ call.tellings play id s) :
    R s t.session := by
  cases call with
  | setLocale input => exact h.switchTellings hl ht
  | toggle => exact h.switchTellings hl ht
  | applyTo root locale => exact h.applyTellings ht
  | flush =>
      unfold EngineCall.tellings at ht
      dsimp only at ht
      split at ht
      · simp at ht
      · split at ht
        · exact h.trans (h.batch id .empty s) (h.translateTellings ht)
        · simp at ht

end Tellings

end Strides
end Session
end PageLocalizer
