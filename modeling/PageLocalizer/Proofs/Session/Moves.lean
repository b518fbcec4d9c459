import PageLocalizer.Proofs.Document.Registrations
import PageLocalizer.Session.Perform

-- The moves that every step of a session is made of. What holds of each move, from the session
-- before it to the session after it, holds of whole steps and scripts.
namespace PageLocalizer.Session

-- Nothing of what engines and frames go by has changed.
structure Aside (s s' : Session) : Prop where
  access : s'.access = s.access
  frames : s'.frames = s.frames
  listeners : s'.listeners = s.listeners
  engines : s'.engines = s.engines
  nextEngine : s'.nextEngine = s.nextEngine
  busy : s'.busy = s.busy

-- Nor has anything of who is registered, and of what registrations and engines are called.
structure Aloof (s s' : Session) : Prop extends Aside s s' where
  registry : s'.document.registry = s.document.registry
  observerNames : s'.names.observers = s.names.observers
  engineNames : s'.names.engines = s.names.engines

-- Only what is said, guards that belong to no engine, and names for nodes, guards and batches are
-- new.
def Light (s s' : Session) : Prop :=
  s' = { s with
    guards := s'.guards
    log := s'.log
    names := { s.names with
      nodes := s'.names.nodes
      guards := s'.names.guards
      scopes := s'.names.scopes
      batches := s'.names.batches
      taken := s'.names.taken } }

section Light

variable {s s' : Session}

theorem Light.aloof (h : Light s s') : Aloof s s' := by
  rw [h]
  exact ⟨⟨rfl, rfl, rfl, rfl, rfl, rfl⟩, rfl, rfl, rfl⟩

theorem Light.refl (s : Session) : Light s s := rfl

theorem light_record (entry : LogEntry) (s : Session) : Light s (s.record entry) := rfl

theorem light_log (log : List LogEntry) (s : Session) : Light s { s with log } := rfl

theorem light_nameNodes (named : List (String × NodeId)) (s : Session) :
    Light s (s.nameNodes named) := rfl

theorem light_setGuard (id : Nat) (g : Guard) (s : Session) : Light s (s.setGuard id g) := rfl

theorem light_performQuery (q : PageQuery) (s : Session) : Light s (s.performQuery q).2 := by
  unfold performQuery
  split
  · exact .refl s
  · split
    · exact light_nameNodes _ s
    · exact .refl s

theorem light_nameForeign (count : Nat) (name : String) (s : Session) :
    Light s (s.nameForeign count name).2 := by
  unfold nameForeign
  split
  · exact light_nameNodes _ s
  · exact .refl s

theorem light_performGuard (g : GuardStep) (s : Session) : Light s (s.performGuard g).2 := by
  unfold performGuard
  cases g with
  | create name => rfl
  | share name guard =>
      dsimp only
      split <;> rfl
  | acquire guard scope =>
      dsimp only
      split
      · exact .refl s
      · dsimp only
        split <;> rfl
  | finish scope =>
      dsimp only
      split <;> rfl
  | isActive guard =>
      dsimp only
      split <;> exact .refl s

theorem light_performBatch (b : BatchStep) (s : Session) : Light s (s.performBatch b).2 := by
  unfold performBatch
  cases b with
  | create name => rfl
  | record name guard records =>
      dsimp only
      split
      · exact .refl s
      · split <;> rfl
  | take name label =>
      dsimp only
      split
      · exact .refl s
      · cases label <;> rfl
  | restore name label =>
      dsimp only
      split <;> rfl
  | state name =>
      dsimp only
      split <;> exact .refl s

end Light

section Aloof

variable {s s' : Session}

theorem Aloof.refl (s : Session) : Aloof s s := (Light.refl s).aloof

theorem aloof_setPreference (id : StoreId) (key value : String) (s : Session) :
    Aloof s (s.setPreference id key value).2 := by
  unfold setPreference
  split <;> exact ⟨⟨rfl, rfl, rfl, rfl, rfl, rfl⟩, rfl, rfl, rfl⟩

theorem aloof_performAt (id : StoreId) (store : Store) (step : StoreStep) (s : Session) :
    Aloof s (s.performAt id store step).2 := by
  unfold performAt
  cases step with
  | get name key =>
      dsimp only
      split <;> exact .refl s
  | set name key value =>
      have hset := aloof_setPreference id key value s
      dsimp only
      split
      · rename_i h
        rw [h] at hset
        exact hset
      · rename_i h
        rw [h] at hset
        exact hset
  | recordRelease name check tag now =>
      dsimp only
      split
      · exact ⟨⟨rfl, rfl, rfl, rfl, rfl, rfl⟩, rfl, rfl, rfl⟩
      · exact .refl s
  | _ => exact .refl s

theorem aloof_addStore (store : Store) (s : Session) : Aloof s (s.addStore store).2 :=
  ⟨⟨rfl, rfl, rfl, rfl, rfl, rfl⟩, rfl, rfl, rfl⟩

theorem aloof_performStore (step : StoreStep) (s : Session) :
    Aloof s (s.performStore step).2 := by
  unfold performStore
  cases step with
  | create name store => exact ⟨⟨rfl, rfl, rfl, rfl, rfl, rfl⟩, rfl, rfl, rfl⟩
  | _ =>
      dsimp only
      split
      · exact aloof_performAt _ _ _ s
      · exact .refl s

theorem aloof_engineStore {setup : EngineSetup} {store : StoreId}
    (h : s.engineStore setup = some (store, s')) : Aloof s s' := by
  unfold engineStore at h
  split at h
  · obtain ⟨id, -, he⟩ := Option.map_eq_some_iff.mp h
    rw [← (Prod.mk.inj he).2]
    exact .refl s
  · rw [← (Prod.mk.inj (Option.some.inj h)).2]
    exact aloof_addStore _ s

end Aloof

section Aside

variable {s : Session}

theorem aside_record (entry : LogEntry) (s : Session) : Aside s (s.record entry) :=
  (light_record entry s).aloof.toAside

theorem aside_setPreference (id : StoreId) (key value : String) (s : Session) :
    Aside s (s.setPreference id key value).2 := (aloof_setPreference id key value s).toAside

theorem aside_disconnect (observer : ObserverId) (s : Session) :
    Aside s (s.disconnect observer) := ⟨rfl, rfl, rfl, rfl, rfl, rfl⟩

theorem aside_modifyNames (f : Names → Names) (s : Session) : Aside s (s.modifyNames f) :=
  ⟨rfl, rfl, rfl, rfl, rfl, rfl⟩

theorem aside_nameNodes (named : List (String × NodeId)) (s : Session) :
    Aside s (s.nameNodes named) := (light_nameNodes named s).aloof.toAside

theorem aside_setGuard (id : Nat) (g : Guard) (s : Session) : Aside s (s.setGuard id g) :=
  (light_setGuard id g s).aloof.toAside

theorem aside_disconnectNamed (name : String) (s : Session) :
    Aside s (s.disconnectNamed name).2 := by
  unfold disconnectNamed
  split
  · exact (Aloof.refl s).toAside
  · split <;> exact ⟨rfl, rfl, rfl, rfl, rfl, rfl⟩

end Aside

theorem isFree_iff {s : Session} : s.isFree = true ↔ s.access = .free := by
  unfold isFree
  cases s.access <;> decide

-- The stages of a switch.
theorem switchTo_eq {s : Session} {id : EngineId} {e : Engine} (he : s.engine? id = some e)
    (play : Play) (l : Locale) :
    s.switchTo play id l =
      ((((s.modifyEngine id ({ · with applied := some l })).guardedWrite play id
        (e.mark l)).setPreference e.store e.settings.storageKey l.tag).2).applyTo play id none
          (some l) := by
  unfold switchTo
  rw [he]

-- What the writing of engines and scripts is made of. `A` says which changes may come about.
structure Writes (A : Change → Prop) (play : Play) (R : Session → Session → Prop) : Prop where
  refl (s : Session) : R s s
  trans {s s' s'' : Session} : R s s' → R s' s'' → R s s''
  aside {s s' : Session} : Aside s s' → R s s'
  plain {c : Change} : c.Plain → A c
  hears {c : Change} : A c → ∀ id s, R s (s.engineHears id c)
  reacts {s : Session} {o : ObserverId} {name : String} {steps : List Step} :
    s.listeners.lookup o = some (.script name (some steps)) → R s (play steps s).2
  told {s s' : Session} (d : Document) : s.access = .free →
    R { s with document := d, access := .exclusive } s' → R s { s' with access := .free }
  guarded {s s' : Session} {id : EngineId} {e : Engine} : s.engine? id = some e →
    R (s.modifyEngine id ({ · with guard := ⟨true⟩ })) s' →
      R s (s'.modifyEngine id ({ · with guard := e.guard }))

-- What all else is made of. `ok` says which steps may be taken.
structure Moves (A : Change → Prop) (ok : Step → Prop) (play : Play)
    (R : Session → Session → Prop) : Prop extends Writes A play R where
  applied (id : EngineId) (locale : Locale) (s : Session) :
    R s (s.modifyEngine id ({ · with applied := some locale }))
  watch (id : EngineId) (s : Session) : R s (s.watch id)
  unwatch (id : EngineId) (s : Session) : R s (s.unwatch id)
  endUnused (id : EngineId) (s : Session) : R s (s.endUnused id)
  employed {s s' : Session} {id : EngineId} : R { s with busy := id :: s.busy } s' →
    R s { s' with busy := s'.busy.erase id }
  addEngine (catalog : Catalog) (surroundings : Option String) (settings : EngineSettings)
    (store : StoreId) (s : Session) :
    R s (s.addEngine (.create catalog surroundings settings store)).2
  runFrame (s : Session) : R s (s.runFrame play).2
  edit {e : PageEdit} : ok (.edit e) → ∀ s, R s (s.performEdit play e).2
  observe {target name : String} {reaction : Option (List Step)} :
    ok (.observe target name reaction) → ∀ s, R s (s.observe target name reaction).2
  request {name : String} {steps : List Step} : ok (.requestFrame name steps) →
    ∀ s, R s (Frames.request s (FrameJob.script name steps))
  repeated {times : Nat} {steps : List Step} : ok (.repeated times steps) →
    ∀ s, R s (play steps s).2
  hold {exclusive : Bool} {steps : List Step} : ok (.hold exclusive steps) →
    ∀ s, R s (s.performHold play exclusive steps).2

namespace Writes

variable {A : Change → Prop} {play : Play} {R : Session → Session → Prop} {c : Change}

theorem hear (h : Writes A play R) (hc : A c) (s : Session) (o : ObserverId) :
    R s (s.hear play c o) := by
  unfold Session.hear
  split
  · exact h.hears hc _ s
  · exact h.aside (aside_record _ s)
  · next name steps hl =>
      have hheard := h.aside (aside_record (.heard name c) s)
      have hreacted : R (s.record (.heard name c)) (play steps (s.record (.heard name c))).2 :=
        h.reacts hl
      exact h.trans (h.trans hheard hreacted) (h.aside (aside_record _ _))
  · exact h.refl s

theorem hearAll (h : Writes A play R) (hc : A c) (observers : List ObserverId) (s : Session) :
    R s (observers.foldl (Session.hear play c) s) := by
  induction observers generalizing s with
  | nil => exact h.refl s
  | cons o rest ih => exact h.trans (h.hear hc s o) (ih _)

theorem deliver (h : Writes A play R) {changes : List Change} (hc : ∀ c ∈ changes, A c)
    (s : Session) : R s (deliver play changes s) := by
  induction changes generalizing s with
  | nil => exact h.refl s
  | cons c rest ih =>
      have hfirst := h.hearAll (hc c List.mem_cons_self) c.audience s
      exact h.trans hfirst (ih (fun c hm => hc c (List.mem_cons_of_mem _ hm)) _)

theorem write {α : Type} (h : Writes A play R) (hs : s.access = .free) {edit : Edit α}
    (he : ∀ c ∈ (edit s.document).changes, A c) : R s (s.write play edit).2 :=
  h.told _ hs (h.deliver he _)

theorem guardedWrite (h : Writes A play R) (id : EngineId) {edit : Edit Unit}
    (he : Edit.Plain edit) (s : Session) : R s (s.guardedWrite play id edit) := by
  unfold Session.guardedWrite
  split
  · next e hfree hid =>
      have hraised : (s.modifyEngine id ({ · with guard := ⟨true⟩ })).access = .free :=
        isFree_iff.mp hfree
      exact h.guarded hid (h.write hraised fun c hc => h.plain (he _ c hc))
  · exact h.refl s

-- The whole work of a flush that finds the page free.
theorem translateEach (h : Writes A play R) (id : EngineId) (e : Engine) (locale : Locale)
    (nodes : List NodeId) (s : Session) :
    R s (nodes.foldl (fun s node => s.guardedWrite play id (e.translate locale node)) s) := by
  induction nodes generalizing s with
  | nil => exact h.refl s
  | cons node rest ih =>
      exact h.trans (h.guardedWrite id (Engine.plain_translate e locale node) s) (ih _)

theorem applyTo (h : Writes A play R) (id : EngineId) (root : Option NodeId)
    (locale : Option Locale) (s : Session) : R s (s.applyTo play id root locale) := by
  unfold Session.applyTo
  split
  · exact h.guardedWrite id (Engine.plain_translate _ _ _) s
  · exact h.refl s

-- Passes outside of any engine.
theorem translateWith (h : Writes A play R) (root : String) (locale : Locale)
    (sources : Option (List CatalogSource)) (guard : Option String) (s : Session) :
    R s (s.translateWith play root locale sources guard).2 := by
  unfold Session.translateWith
  split
  · exact h.refl s
  · next hheld =>
      have hfree := Classical.not_not.mp hheld
      split
      · exact h.refl s
      · exact h.refl s
      · next catalog root _ _ =>
          have hpass : ∀ d, ∀ c ∈ (Translation.pass catalog locale root d).changes, A c :=
            fun d c hc => h.plain (Translation.plain_pass catalog locale root d c hc)
          dsimp only
          split
          · exact h.write hfree (hpass _)
          · split
            · exact h.refl s
            · next id _ =>
                have hraised := h.aside (aside_setGuard id ⟨true⟩ s)
                have hfree' : (s.setGuard id ⟨true⟩).access = .free := hfree
                have hwritten := h.write hfree' (hpass _)
                exact h.trans (h.trans hraised hwritten) (h.aside (aside_setGuard id _ _))

end Writes

namespace Moves

variable {A : Change → Prop} {ok : Step → Prop} {play : Play} {R : Session → Session → Prop}

theorem switchTo (h : Moves A ok play R) (id : EngineId) (locale : Locale) (s : Session) :
    R s (s.switchTo play id locale) := by
  unfold Session.switchTo
  split
  · next e he =>
      have hmarked := h.trans (h.applied id locale s)
        (h.guardedWrite id (Engine.plain_mark e locale) _)
      have hkept := h.trans hmarked (h.aside (aside_setPreference e.store
        e.settings.storageKey locale.tag _))
      exact h.trans hkept (h.applyTo id none (some locale) _)
  · exact h.refl s

theorem setLocale (h : Moves A ok play R) (id : EngineId) (input : Option String)
    (s : Session) : R s (s.setLocale play id input).2 := h.switchTo id _ s

theorem toggle (h : Moves A ok play R) (id : EngineId) (s : Session) :
    R s (s.toggle play id).2 := by
  unfold Session.toggle
  split
  · exact h.setLocale id _ s
  · exact h.refl s

theorem start (h : Moves A ok play R) (id : EngineId) (s : Session) :
    R s (s.start play id).2 := by
  have hset := h.setLocale id none s
  unfold Session.start
  dsimp only
  split
  · dsimp only
    split
    · exact h.trans hset (h.watch id _)
    · exact hset
  · exact hset

theorem employ {α : Type} {work : Session → α × Session} (h : Moves A ok play R)
    (hw : ∀ s, R s (work s).2) (id : EngineId) (s : Session) : R s (s.employ id work).2 :=
  h.trans (h.employed (hw _)) (h.endUnused id _)

theorem runUntilIdle (h : Moves A ok play R) (limit : Nat) (s : Session) :
    R s (s.runUntilIdle play limit).2 := by
  induction limit generalizing s with
  | zero => exact h.refl s
  | succ limit ih =>
      unfold Session.runUntilIdle Frames.runUntilIdle
      split
      · exact h.refl s
      · exact h.trans (h.runFrame s) (ih _)

theorem nameEngine (h : Moves A ok play R) (name : String) (id : EngineId) (s : Session) :
    R s (s.nameEngine name id) := by
  unfold Session.nameEngine
  dsimp only
  split
  · exact h.trans (h.aside (aside_modifyNames _ s)) (h.endUnused _ _)
  · exact h.aside (aside_modifyNames _ s)

theorem createEngine (h : Moves A ok play R) (name : String) (setup : EngineSetup)
    (s : Session) : R s (s.createEngine name setup).2 := by
  unfold Session.createEngine
  split
  · exact h.refl s
  · exact h.refl s
  · next catalog store stored _ hs =>
      have hadded := h.trans (h.aside (aloof_engineStore hs).toAside)
        (h.addEngine catalog setup.surroundings setup.settings store stored)
      exact h.trans hadded (h.nameEngine name _ _)

theorem dropEngine (h : Moves A ok play R) (name : String) (s : Session) :
    R s (s.dropEngine name).2 := by
  unfold Session.dropEngine
  split
  · exact h.trans (h.aside (aside_modifyNames _ s)) (h.endUnused _ _)
  · exact h.refl s

theorem performOn (h : Moves A ok play R) (id : EngineId) (e : Engine) (step : EngineStep)
    (s : Session) : R s (performOn play id e step s).2 := by
  unfold Session.performOn
  cases step with
  | share name => exact h.nameEngine name id s
  | start => exact h.start id s
  | setLocale input => exact h.setLocale id input s
  | toggle => exact h.toggle id s
  | apply root locale =>
      dsimp only
      split
      · exact h.applyTo id none locale s
      · split
        · exact h.applyTo id _ locale s
        · exact h.refl s
  | watch => exact h.watch id s
  | unwatch => exact h.unwatch id s
  | _ => exact h.refl s

theorem performEngine (h : Moves A ok play R) (name : String) (step : EngineStep)
    (s : Session) : R s (s.performEngine play name step).2 := by
  unfold Session.performEngine
  split
  · exact h.refl s
  · split
    · exact h.employ (h.performOn _ _ step) _ s
    · exact h.refl s

theorem performRepeated (h : Moves A ok play R) {steps : List Step}
    (hp : ∀ s, R s (play steps s).2) (times : Nat) (answers : List Answer) (s : Session) :
    R s (performRepeated play steps times answers s).2 := by
  induction times generalizing answers s with
  | zero => exact h.refl s
  | succ times ih =>
      have hreset : Aside s { s with log := [] } := ⟨rfl, rfl, rfl, rfl, rfl, rfl⟩
      exact h.trans (h.trans (h.aside hreset) (hp _)) (ih _ _)

-- A single step.
theorem perform (h : Moves A ok play R) {step : Step} (hs : ok step) (s : Session) :
    R s (perform play step s).2 := by
  cases step with
  | edit e => exact h.edit hs s
  | ask q => exact h.aside (light_performQuery q s).aloof.toAside
  | foreign count name => exact h.aside (light_nameForeign count name s).aloof.toAside
  | observe target name reaction => exact h.observe hs s
  | disconnect name => exact h.aside (aside_disconnectNamed name s)
  | translate root locale sources guard => exact h.translateWith root locale sources guard s
  | guard g => exact h.aside (light_performGuard g s).aloof.toAside
  | batch b => exact h.aside (light_performBatch b s).aloof.toAside
  | store st => exact h.aside (aloof_performStore st s).toAside
  | requestFrame name steps => exact h.request hs s
  | runFrame => exact h.runFrame s
  | runUntilIdle limit => exact h.runUntilIdle limit s
  | frames => exact h.refl s
  | createEngine name setup => exact h.createEngine name setup s
  | dropEngine name => exact h.dropEngine name s
  | engine name e => exact h.performEngine name e s
  | repeated times steps => exact h.performRepeated (h.repeated hs) times [] s
  | hold exclusive steps => exact h.hold hs s

-- A whole script, whose steps are taken in the surroundings of the scripts that they set off.
theorem inOrder (h : Moves A ok play R) {steps : List Step} (hs : ∀ step ∈ steps, ok step)
    (s : Session) : R s (inOrder (Session.perform play) steps s).2 := by
  induction steps generalizing s with
  | nil => exact h.refl s
  | cons step rest ih =>
      have hfirst := h.perform (hs step List.mem_cons_self) s
      exact h.trans hfirst (ih (fun step hm => hs step (List.mem_cons_of_mem _ hm)) _)

end Moves

end PageLocalizer.Session
