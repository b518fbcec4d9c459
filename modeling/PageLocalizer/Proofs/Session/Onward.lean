import PageLocalizer.Proofs.Session.PageEdits
import PageLocalizer.Proofs.Session.Places
import PageLocalizer.Proofs.Session.Strides

-- All that goes on in a session comes down to moves. Where nobody sets a locale, and no reaction
-- and no work of a frame does, none of the places of an engine's locale are written.
namespace PageLocalizer

mutual

-- A step that has an engine go to a locale, or that writes an attribute that shows one or the key
-- that one is stored under, whatever node, engine and store it is about. Or a step that runs or
-- leaves behind such a step.
def Step.sets : Step → Bool
  | .edit e => e.attributeNames.any Engine.shown.contains
  | .store (.set _ key _) => key = EngineSettings.standard.storageKey
  | .store (.recordRelease _ check _ _) => check.key = EngineSettings.standard.storageKey
  | .engine _ step => step.sets
  | .observe _ _ (some steps) => scriptSets steps
  | .requestFrame _ steps => scriptSets steps
  | .repeated _ steps => scriptSets steps
  | .hold _ steps => scriptSets steps
  | _ => false

def scriptSets : List Step → Bool
  | [] => false
  | step :: rest => step.sets || scriptSets rest

end

private theorem sets_of_mem {steps : List Step} {step : Step} (hm : step ∈ steps)
    (h : step.sets = true) : scriptSets steps = true := by
  induction steps with
  | nil => simp at hm
  | cons first rest ih =>
      rw [scriptSets, Bool.or_eq_true]
      rcases List.mem_cons.mp hm with rfl | hm
      · exact Or.inl h
      · exact Or.inr (ih hm)

def Listener.sets : Listener → Bool
  | .script _ (some steps) => scriptSets steps
  | _ => false

def FrameJob.sets : FrameJob → Bool
  | .script _ steps => scriptSets steps
  | .flush _ => false

namespace Session

open Document

-- Where that is not allowed, no reaction sets a locale, nor does any script that waits for a frame.
structure Hushed (loud : Prop) (s : Session) : Prop where
  listeners : ∀ l ∈ s.listeners, l.2.sets = true → loud
  jobs : ∀ job ∈ s.frames.pending, job.sets = true → loud

instance (s : Session) : Decidable (s.Hushed False) :=
  decidable_of_iff ((∀ l ∈ s.listeners, l.2.sets = false) ∧
      ∀ job ∈ s.frames.pending, job.sets = false)
    ⟨fun h => ⟨fun l hl => by simp [h.1 l hl], fun job hj => by simp [h.2 job hj]⟩,
      fun h => ⟨fun l hl => by simpa using h.listeners l hl, fun job hj => by
        simpa using h.jobs job hj⟩⟩

-- One session leads to another one, and if it is not `wide` without a write to the places of an
-- engine.
def Proceeds (loud wide : Prop) (id : EngineId) (store : StoreId) (s s' : Session) : Prop :=
  s.Sound → s.Hushed loud → s'.Hushed loud ∧ Onward (fun p => wide ∨ p.Other id store) s s'

-- Scripts proceed so.
def Quietly (loud wide : Prop) (id : EngineId) (store : StoreId) (play : Play) : Prop :=
  ∀ steps, (scriptSets steps = true → loud) → ∀ s, Proceeds loud wide id store s (play steps s).2

variable {loud wide : Prop} {id : EngineId} {store : StoreId} {s s' s'' : Session} {play : Play}
  {ok : Place → Prop}

section Proceeds

theorem Proceeds.refl (s : Session) : Proceeds loud wide id store s s := fun _ hh => ⟨hh, .refl⟩

theorem Proceeds.trans (h : Proceeds loud wide id store s s')
    (h' : Proceeds loud wide id store s' s'') : Proceeds loud wide id store s s'' := by
  intro hs hh
  obtain ⟨hh', ho⟩ := h hs hh
  obtain ⟨hh'', ho'⟩ := h' (Onward.sound ho hs).1 hh'
  exact ⟨hh'', ho.trans ho'⟩

theorem hushed_true (s : Session) : s.Hushed True := ⟨fun _ _ _ => trivial, fun _ _ _ => trivial⟩

theorem Proceeds.onward (h : Proceeds True True id store s s') (hs : s.Sound) :
    Onward (fun _ => True) s s' :=
  Onward.mono (h hs (hushed_true s)).2 fun _ _ => trivial

theorem Proceeds.quiet {loud : Prop} (h : Proceeds loud False id store s s') (hs : s.Sound)
    (hh : s.Hushed loud) : s'.Hushed loud ∧ Onward (Place.Other id store) s s' := by
  obtain ⟨hh', ho⟩ := h hs hh
  exact ⟨hh', Onward.mono ho fun _ hp => hp.resolve_left not_false⟩

theorem proceeds_of_onward (hl : s'.listeners = s.listeners)
    (hf : s'.frames.pending ⊆ s.frames.pending)
    (ho : s.Sound → Onward (fun p => wide ∨ p.Other id store) s s') :
    Proceeds loud wide id store s s' := by
  refine fun hs hh => ⟨⟨?_, fun job hj => hh.jobs job (hf hj)⟩, ho hs⟩
  rw [hl]
  exact hh.listeners

theorem proceeds_of_move (hl : s'.listeners = s.listeners) (hf : s'.frames = s.frames)
    (hm : Move (fun p => wide ∨ p.Other id store) s s') : Proceeds loud wide id store s s' :=
  proceeds_of_onward hl (hf ▸ List.Subset.refl _) fun _ => .single hm

theorem proceeds_listener {l : Listener} (hl : l.sets = true → loud) (o : ObserverId)
    (s : Session) : Proceeds loud wide id store s { s with listeners := s.listeners.set o l } := by
  refine fun _ hh => ⟨⟨fun entry hm => ?_, hh.jobs⟩, .single (.apart rfl)⟩
  rcases Table.mem_of_mem_set hm with rfl | hm
  · exact hl
  · exact hh.listeners entry hm

theorem proceeds_request {job : FrameJob} (hj : job.sets = true → loud) (s : Session) :
    Proceeds loud wide id store s (Frames.request s job) := by
  refine fun _ hh => ⟨⟨hh.listeners, fun other hm => ?_⟩, .single (.apart rfl)⟩
  rcases List.mem_append.mp hm with hm | hm
  · exact hh.jobs other hm
  · exact List.mem_singleton.mp hm ▸ hj

end Proceeds

section Pieces

-- A move that is about none of the places that hold a locale.
theorem proceeds_tuned {f : Engine → Engine} (hf : ∀ e, (f e).settings = e.settings ∧
    (f e).store = e.store ∧ (f e).applied = e.applied) (other : EngineId) (s : Session) :
    Proceeds loud wide id store s (s.modifyEngine other f) :=
  proceeds_of_move rfl rfl (.tuned other f hf)

theorem proceeds_setObserver (other : EngineId) (observer : Option ObserverId) (s : Session) :
    Proceeds loud wide id store s (s.modifyEngine other ({ · with observer })) :=
  proceeds_tuned (f := ({ · with observer })) (fun _ => ⟨rfl, rfl, rfl⟩) other s

theorem proceeds_observed (target : NodeId) (s : Session) : Proceeds loud wide id store s
    { s with document := (Document.observe target s.document).document } :=
  proceeds_of_move rfl rfl (.edited (.observe target) nofun)

theorem proceeds_disconnect (o : ObserverId) (s : Session) :
    Proceeds loud wide id store s (s.disconnect o) :=
  proceeds_of_move rfl rfl (.edited (.disconnect o) nofun)

theorem proceeds_watch (other : EngineId) (s : Session) :
    Proceeds loud wide id store s (s.watch other) := by
  unfold watch
  split
  · split
    · exact .refl s
    · have hobserved : Proceeds loud wide id store s _ := proceeds_observed body s
      have hlisten : Proceeds loud wide id store s _ := hobserved.trans
        (proceeds_listener (l := .engine other) nofun s.document.nextObserver _)
      exact hlisten.trans (proceeds_setObserver other (some s.document.nextObserver) _)
  · exact .refl s

theorem proceeds_unwatch (other : EngineId) (s : Session) :
    Proceeds loud wide id store s (s.unwatch other) := by
  unfold unwatch
  split
  · split
    · exact (proceeds_disconnect _ s).trans (proceeds_setObserver other none _)
    · exact .refl s
  · exact .refl s

theorem proceeds_observe {reaction : Option (List Step)}
    (hr : ∀ steps, reaction = some steps → scriptSets steps = true → loud)
    (target name : String) (s : Session) :
    Proceeds loud wide id store s (s.observe target name reaction).2 := by
  have hl : (Listener.script name reaction).sets = true → loud := by
    cases reaction with
    | none => nofun
    | some steps => exact hr steps rfl
  unfold observe
  split
  · exact .refl s
  · split
    · exact .refl s
    · rename_i target _
      have hobserved : Proceeds loud wide id store s _ := proceeds_observed target s
      have hlisten := hobserved.trans (proceeds_listener hl s.document.nextObserver _)
      exact hlisten.trans (proceeds_of_move rfl rfl (.apart rfl))

theorem proceeds_disconnectNamed (name : String) (s : Session) :
    Proceeds loud wide id store s (s.disconnectNamed name).2 := by
  unfold disconnectNamed
  split
  · exact .refl s
  · split
    · exact proceeds_disconnect _ s
    · exact .refl s

theorem proceeds_endUnused (other : EngineId) (s : Session) :
    Proceeds loud wide id store s (s.endUnused other) := by
  have hended : Proceeds loud wide id store s { s with engines := s.engines.erase other } :=
    proceeds_of_move rfl rfl (.ended other)
  unfold endUnused
  split
  · exact .refl s
  · split
    · exact .refl s
    · dsimp only
      split
      · split
        · exact hended.trans (proceeds_disconnect _ _)
        · exact hended
      · exact hended

theorem proceeds_nameEngine (name : String) (other : EngineId) (s : Session) :
    Proceeds loud wide id store s (s.nameEngine name other) := by
  have hnamed : Proceeds loud wide id store s
      (s.modifyNames fun n => { n with engines := n.engines.set name other }) :=
    proceeds_of_move rfl rfl (.apart rfl)
  unfold nameEngine
  dsimp only
  split
  · exact hnamed.trans (proceeds_endUnused _ _)
  · exact hnamed

theorem proceeds_dropEngine (name : String) (s : Session) :
    Proceeds loud wide id store s (s.dropEngine name).2 := by
  unfold dropEngine
  split
  · have hdropped : Proceeds loud wide id store s
        (s.modifyNames fun n => { n with engines := n.engines.erase name }) :=
      proceeds_of_move rfl rfl (.apart rfl)
    exact hdropped.trans (proceeds_endUnused _ _)
  · exact .refl s

theorem proceeds_created {setup : EngineSetup} {new : StoreId}
    (h : s.engineStore setup = some (new, s')) (catalog : Catalog) (name : String) :
    Proceeds loud wide id store s
      ((s'.addEngine (.create catalog setup.surroundings setup.settings new)).2.nameEngine name
        s'.nextEngine) := by
  refine Proceeds.trans ?_ (proceeds_nameEngine name _ _)
  unfold engineStore at h
  split at h
  · obtain ⟨old, hold, he⟩ := Option.map_eq_some_iff.mp h
    obtain ⟨rfl, rfl⟩ := Prod.mk.inj he
    exact proceeds_of_onward rfl (List.Subset.refl _) fun hs =>
      .single (.hired _ (hs.storeNames _ old hold))
  · obtain ⟨rfl, rfl⟩ := Prod.mk.inj (Option.some.inj h)
    refine proceeds_of_onward rfl (List.Subset.refl _) fun hs => ?_
    have hlt := (hs.addStore (.memory [])).2
    exact .tail (.single (.stocked _)) (.hired _ (hlt ▸ Nat.lt_succ_self _))

end Pieces

section Stores

-- A value is written to a store that is there.
theorem proceeds_setPreference {other : StoreId} {key : String}
    (hkey : key = EngineSettings.standard.storageKey → wide)
    (hother : s.Sound → other < s.stores.length) (value : String) :
    Proceeds loud wide id store s (s.setPreference other key value).2 := by
  have haside := aside_setPreference other key value s
  refine proceeds_of_onward haside.listeners (haside.frames ▸ List.Subset.refl _) fun hs =>
    .single (.preferred other key value (hother hs) ?_)
  by_cases hk : key = EngineSettings.standard.storageKey
  · exact Or.inl (hkey hk)
  · exact Or.inr fun _ => hk

-- To record a release is to write it under the key of the notice.
private theorem setPreference_of_recordRelease {check : UpdateCheck} {tag : String} {now : Instant}
    {other : StoreId} {r : UpdateRecord} {kept : Store}
    (h : check.recordRelease (s.storeAt other) tag now = .ok (r, kept)) :
    (s.setPreference other check.key r.text).2 = { s with stores := s.stores.set other kept } := by
  unfold UpdateCheck.recordRelease at h
  cases hset : (s.storeAt other).set check.key
      (UpdateRecord.text ⟨UpdateCheck.versionOf tag, now.seconds⟩) with
  | error e => simp [hset, Except.map] at h
  | ok kept' =>
      simp only [hset, Except.map, Except.ok.injEq, Prod.mk.injEq] at h
      obtain ⟨rfl, rfl⟩ := h
      simp only [setPreference, hset]

theorem proceeds_performStore {step : StoreStep} (hs : (Step.store step).sets = true → wide)
    (s : Session) : Proceeds loud wide id store s (s.performStore step).2 := by
  unfold performStore
  cases step with
  | create name new =>
      refine proceeds_of_onward rfl (List.Subset.refl _) fun hsound => ?_
      have hlt := (hsound.addStore new).2
      exact .tail (.single (.stocked new)) (.labelled name _ (hlt ▸ Nat.lt_succ_self _))
  | set name key value =>
      dsimp only
      split
      · rename_i other hname
        have hset : Proceeds loud wide id store s (s.setPreference other key value).2 :=
          proceeds_setPreference (fun hk => hs (by simp [Step.sets, hk]))
            (fun hsound => hsound.storeNames name other hname) value
        unfold performAt
        dsimp only
        split
        all_goals
          rename_i h
          rw [h] at hset
          exact hset
      · exact .refl s
  | recordRelease name check tag now =>
      dsimp only
      split
      · rename_i other hname
        unfold performAt
        dsimp only
        split
        · rename_i r kept hrecord
          rw [← setPreference_of_recordRelease hrecord]
          exact proceeds_setPreference (fun hk => hs (by simp [Step.sets, hk]))
            (fun hsound => hsound.storeNames name other hname) r.text
        · exact .refl s
      · exact .refl s
  | get name key =>
      dsimp only
      split
      · unfold performAt
        dsimp only
        split <;> exact .refl s
      · exact .refl s
  | _ =>
      dsimp only
      split <;> exact .refl s

end Stores

section Pages

variable {written : String → Prop} {d d' : Document} {cs : List Change}

-- Operations are moves.
theorem onward_turns (h : Turns (Operation.Tame written) d cs d')
    (hw : ∀ name, written name → ok (.page name)) (s : Session) :
    Onward ok { s with document := d } { s with document := d' } := by
  induction h with
  | nil d => exact .refl
  | cons hop _ ih =>
      exact .head (.edited _ fun name hn => hw name (hop.writes html name hn)) ih

theorem proceeds_edited {edit : Edit α} (h : Edit.Stepwise written edit)
    (hw : ∀ name, written name → wide ∨ name ∉ Engine.shown) (s : Session) :
    Proceeds loud wide id store s { s with document := (edit s.document).document } :=
  proceeds_of_onward rfl (List.Subset.refl _) fun _ => onward_turns (h s.document) hw s

theorem proceeds_planned {e : PageEdit} {nodes : Table String NodeId} {edit : Edit Outcome}
    (hs : (Step.edit e).sets = true → wide) (hplan : e.plan nodes = some edit) (s : Session) :
    Proceeds loud wide id store s { s with document := (edit s.document).document } := by
  have hstep : Edit.Stepwise (fun name => wide ∨ name ∉ Engine.shown) edit := by
    refine PageEdit.stepwise_plan hplan (fun name hn => ?_) fun _ => Or.inr
    by_cases hshown : name ∈ Engine.shown
    · exact Or.inl (hs (List.any_eq_true.mpr ⟨name, hn, by simpa using hshown⟩))
    · exact Or.inr hshown
  exact proceeds_edited hstep (fun _ h => h) s

private theorem stepwise_mark (e : Engine) (l : Locale) :
    Edit.Stepwise (fun _ => True) (e.mark l) := by
  have hensure : ∀ name value,
      Edit.Stepwise (fun _ => True) (Engine.ensureAttribute html name value) := by
    intro name value d
    unfold Engine.ensureAttribute
    split
    · exact Edit.stepwise_pure () d
    · exact Document.stepwise_setAttribute trivial html value d
  exact Edit.stepwise_bind (hensure _ _) fun _ => hensure _ _

end Pages

section Scripts

-- Everything that is not about another locale proceeds without one.
theorem strides_proceeds (hwide : loud → wide) (hp : Quietly loud wide id store play) :
    Strides wide (fun step => step.sets = true → loud) play (Proceeds loud wide id store) where
  refl := .refl
  trans := .trans
  light h := by
    rw [h]
    exact proceeds_of_move rfl rfl (.apart rfl)
  access _ _ := proceeds_of_move rfl rfl (.apart rfl)
  frames hf := proceeds_of_onward rfl hf fun _ => .single (.apart rfl)
  flushing _ := proceeds_request nofun
  guard other guard := proceeds_tuned (f := ({ · with guard })) (fun _ => ⟨rfl, rfl, rfl⟩) other
  batch other batch := proceeds_tuned (f := ({ · with batch })) (fun _ => ⟨rfl, rfl, rfl⟩) other
  passed c l root _ := by
    have htargets : ∀ name ∈ Translation.targets, name ∉ Engine.shown := by decide
    exact proceeds_of_move rfl rfl (.passed c l root fun name hn => Or.inr (htargets name hn))
  planned hok := proceeds_planned fun hs => hwide (hok hs)
  marked hl e l := proceeds_edited (stepwise_mark e l) fun _ _ => Or.inl hl
  applied hl other l _ := proceeds_of_move rfl rfl (.applied other l (Or.inl hl))
  kept {s s' other e} hl he h value := by
    intro hs hh
    obtain ⟨hh', ho⟩ := h hs hh
    obtain ⟨hs', hle⟩ := Onward.sound ho hs
    have hstore := Nat.lt_of_lt_of_le (hs.numbered other e he).2 hle
    exact h.trans (proceeds_setPreference (fun _ => hl) (fun _ => hstore) value) hs hh
  stored hok := proceeds_performStore fun hs => hwide (hok hs)
  watch := proceeds_watch
  unwatch := proceeds_unwatch
  observe hok := proceeds_observe (fun steps hr => by
    subst hr
    exact hok) _ _
  disconnectNamed := proceeds_disconnectNamed
  working _ := proceeds_of_move rfl rfl (.apart rfl)
  done other s := by
    have hidle : Proceeds loud wide id store s { s with busy := s.busy.erase other } :=
      proceeds_of_move rfl rfl (.apart rfl)
    exact hidle.trans (proceeds_endUnused other _)
  nameEngine _ name := proceeds_nameEngine name _ _
  dropEngine := proceeds_dropEngine
  created := proceeds_created
  request {name steps} hok s := by
    have hjob : (FrameJob.script name steps).sets = true → loud := hok
    exact proceeds_request hjob s
  settings hok hs := hwide (hok hs)
  reacts {s o name steps} hl hs hh :=
    hp steps (hh.listeners _ (Table.mem_of_lookup hl)) s hs hh
  due {s s' name steps} hj h hs hh :=
    h.trans (hp steps (hh.jobs _ hj) s') hs hh
  repeated hok := hp _ hok
  held hok := hp _ hok

theorem quietly_play (hwide : loud → wide) (id : EngineId) (store : StoreId) (depth : Nat) :
    Quietly loud wide id store (Session.play depth) := by
  induction depth with
  | zero => exact fun _ _ s => .refl s
  | succ depth ih =>
      exact fun steps hs s => (strides_proceeds hwide ih).inOrder
        (fun step hm hstep => hs (sets_of_mem hm hstep)) s

end Scripts

end Session
end PageLocalizer
