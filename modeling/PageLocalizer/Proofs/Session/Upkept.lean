import PageLocalizer.Proofs.Session.Flushes
import PageLocalizer.Proofs.Session.Places
import PageLocalizer.Proofs.Translation.Upright

-- Sessions without scripts, where nothing happens but what engines do: what they leave of the page
-- and of a store.
namespace PageLocalizer.Session

open Document

-- Nothing comes of a script.
def Inert (play : Play) : Prop := ∀ steps s, (play steps s).2 = s

-- Whoever has the page, it is as it was, and so are the stores.
structure Unobtrusive (s s' : Session) : Prop where
  document : s'.document = s.document
  access : s'.access = s.access
  stores : s'.stores = s.stores

-- The page is free and as it should be, and so is one of the stores.
structure Upkept (page : Document → Prop) (store : StoreId) (kept : Store → Prop) (s : Session) :
    Prop where
  free : s.access = .free
  page : page s.document
  kept : kept (s.storeAt store)

variable {s s' s'' : Session} {play : Play} {page page' : Document → Prop} {store : StoreId}
  {kept kept' : Store → Prop} {id : EngineId} {e : Engine} {lang : Option String}
  {way : List NodeId} {l : Locale}

section Unobtrusive

theorem Unobtrusive.refl (s : Session) : Unobtrusive s s := ⟨rfl, rfl, rfl⟩

theorem Unobtrusive.trans (h : Unobtrusive s s') (h' : Unobtrusive s' s'') :
    Unobtrusive s s'' where
  document := h'.document.trans h.document
  access := h'.access.trans h.access
  stores := h'.stores.trans h.stores

theorem unobtrusive_modifyEngine (id : EngineId) (f : Engine → Engine) (s : Session) :
    Unobtrusive s (s.modifyEngine id f) := ⟨rfl, rfl, rfl⟩

theorem unobtrusive_record (entry : LogEntry) (s : Session) : Unobtrusive s (s.record entry) :=
  ⟨rfl, rfl, rfl⟩

theorem unobtrusive_rebatch (id : EngineId) (b : Batched) (s : Session) :
    Unobtrusive s (s.rebatch id b) := by
  unfold rebatch
  dsimp only
  split <;> exact ⟨rfl, rfl, rfl⟩

private theorem unobtrusive_engineHears (id : EngineId) (c : Change) (s : Session) :
    Unobtrusive s (s.engineHears id c) := by
  unfold engineHears
  split
  · exact unobtrusive_rebatch id _ s
  · exact .refl s

end Unobtrusive

theorem Upkept.unobtrusive (h : Upkept page store kept s) (hs : Unobtrusive s s') :
    Upkept page store kept s' where
  free := hs.access.trans h.free
  page := by
    rw [hs.document]
    exact h.page
  kept := by
    unfold storeAt
    rw [hs.stores]
    exact h.kept

section Writes

variable (hplay : Inert play)

theorem unobtrusive_foldl {α : Type} {move : Session → α → Session} (xs : List α)
    (h : ∀ x s, Unobtrusive s (move s x)) : Unobtrusive s (xs.foldl move s) := by
  induction xs generalizing s with
  | nil => exact .refl s
  | cons x rest ih => exact (h x s).trans ih

include hplay

private theorem unobtrusive_hear (c : Change) (o : ObserverId) (s : Session) :
    Unobtrusive s (s.hear play c o) := by
  unfold hear
  split
  · exact unobtrusive_engineHears _ c s
  · exact unobtrusive_record _ s
  · rename_i name steps _
    dsimp only
    rw [hplay]
    exact (unobtrusive_record _ s).trans (unobtrusive_record _ _)
  · exact .refl s

private theorem unobtrusive_deliver (changes : List Change) :
    Unobtrusive s (deliver play changes s) :=
  unobtrusive_foldl changes fun c _ =>
    unobtrusive_foldl c.audience fun o s => unobtrusive_hear hplay c o s

-- Those who hear of an edit leave the page as it is.
theorem Upkept.write {edit : Edit α} (h : Upkept page store kept s)
    (hedit : page' (edit s.document).document) :
    Upkept page' store kept (s.write play edit).2 := by
  let edited : Session := { s with document := (edit s.document).document, access := .exclusive }
  have htold : Unobtrusive edited (deliver play (edit s.document).changes edited) :=
    unobtrusive_deliver hplay _
  refine ⟨rfl, ?_, ?_⟩
  · show page' (deliver play (edit s.document).changes edited).document
    rw [htold.document]
    exact hedit
  · show kept (((deliver play (edit s.document).changes edited).stores.lookup store).getD _)
    rw [htold.stores]
    exact h.kept

theorem Upkept.guardedWrite {edit : Edit Unit} (h : Upkept page store kept s)
    (he : s.engine? id = some e) (hedit : page' (edit s.document).document) :
    Upkept page' store kept (s.guardedWrite play id edit) := by
  unfold Session.guardedWrite
  rw [isFree_iff.mpr h.free, he]
  have hup : Upkept page store kept (s.modifyEngine id ({ · with guard := e.guard.acquire.2 })) :=
    h.unobtrusive (unobtrusive_modifyEngine id _ _)
  exact (hup.write hplay hedit).unobtrusive (unobtrusive_modifyEngine id _ _)

theorem Upkept.guardedWrite_same {edit : Edit Unit} (h : Upkept page store kept s)
    (hedit : ∀ d, page d → page (edit d).document) (id : EngineId) :
    Upkept page store kept (s.guardedWrite play id edit) := by
  cases he : s.engine? id with
  | some e => exact h.guardedWrite hplay he (hedit _ h.page)
  | none =>
      unfold Session.guardedWrite
      rw [isFree_iff.mpr h.free, he]
      exact h

end Writes

section Engines

variable (hplay : Inert play) (h : Upkept (Upright lang way) store kept s)

include hplay h

theorem Upkept.translate (e : Engine) (l : Locale) (x : NodeId) (id : EngineId) :
    Upkept (Upright lang way) store kept (s.guardedWrite play id (e.translate l x)) :=
  h.guardedWrite_same hplay (fun _ hd => Translation.upright_pass hd e.catalog l x) id

theorem Upkept.applyTo (id : EngineId) (x : Option NodeId) (l : Option Locale) :
    Upkept (Upright lang way) store kept (s.applyTo play id x l) := by
  unfold Session.applyTo
  split
  · exact h.translate hplay _ _ _ id
  · exact h

omit hplay in
-- Others than before may observe the page.
theorem Upkept.observers {d : Document} (hs : d.slots = s.document.slots)
    (hf : d.free = s.document.free) :
    Upkept (Upright lang way) store kept { s with document := d } :=
  ⟨h.free, h.page.of_observers hs hf, h.kept⟩

omit hplay in
theorem Upkept.watch (id : EngineId) : Upkept (Upright lang way) store kept (s.watch id) := by
  unfold Session.watch
  split
  · split
    · exact h
    · have hobserved := h.observers (d := (Document.observe body s.document).document) rfl rfl
      have hlistened : Upkept (Upright lang way) store kept
          { s with
            document := (Document.observe body s.document).document
            listeners := s.listeners.set s.document.nextObserver (.engine id) } :=
        ⟨hobserved.free, hobserved.page, hobserved.kept⟩
      exact hlistened.unobtrusive (unobtrusive_modifyEngine id _ _)
  · exact h

omit hplay in
theorem Upkept.endUnused (id : EngineId) :
    Upkept (Upright lang way) store kept (s.endUnused id) := by
  have hended : Upkept (Upright lang way) store kept { s with engines := s.engines.erase id } :=
    ⟨h.free, h.page, h.kept⟩
  unfold Session.endUnused
  split
  · exact h
  · split
    · exact h
    · dsimp only
      split
      · split
        · exact hended.observers rfl rfl
        · exact hended
      · exact hended

theorem Upkept.flush (id : EngineId) : Upkept (Upright lang way) store kept (s.flush play id) := by
  have htake : Unobtrusive s (s.modifyEngine id ({ · with batch := Batch.empty })) :=
    unobtrusive_modifyEngine id _ s
  have htaken := h.unobtrusive htake
  unfold Session.flush
  split
  · exact h
  · rename_i e _
    dsimp only [Batch.take]
    split
    · exact htaken
    · split
      · generalize e.batch.nodes = nodes
        generalize Session.localeOf _ _ = l
        generalize s.modifyEngine id _ = taken at htaken
        induction nodes generalizing taken with
        | nil => exact htaken
        | cons x rest ih => exact ih _ (htaken.translate hplay e l x id)
      · exact htaken.unobtrusive (unobtrusive_rebatch id _ _)

theorem Upkept.runJob (job : FrameJob) :
    Upkept (Upright lang way) store kept (Session.runJob play job s) := by
  unfold Session.runJob
  cases job with
  | script name steps =>
      dsimp only
      rw [hplay]
      exact h.unobtrusive (unobtrusive_record _ s)
  | flush id =>
      dsimp only
      split
      · have hbusy : Upkept (Upright lang way) store kept { s with busy := id :: s.busy } :=
          ⟨h.free, h.page, h.kept⟩
        have hdone := hbusy.flush hplay id
        have hidle : Upkept (Upright lang way) store kept
            { Session.flush play id { s with busy := id :: s.busy } with
              busy := (Session.flush play id { s with busy := id :: s.busy }).busy.erase id } :=
          ⟨hdone.free, hdone.page, hdone.kept⟩
        exact hidle.endUnused id
      · exact h

theorem Upkept.runFrame : Upkept (Upright lang way) store kept (s.runFrame play).2 := by
  have hjobs : ∀ jobs : List FrameJob, ∀ t, Upkept (Upright lang way) store kept t →
      Upkept (Upright lang way) store kept
        (jobs.foldl (fun t job => Session.runJob play job t) t) := by
    intro jobs
    induction jobs with
    | nil => exact fun _ ht => ht
    | cons job rest ih => exact fun t ht => ih _ (ht.runJob hplay job)
  have hall := hjobs s.frames.pending s.begun ⟨h.free, h.page, h.kept⟩
  exact ⟨hall.free, hall.page, hall.kept⟩

-- A switch leaves the language on the page and the locale in the store.
theorem Upkept.switchTo (he : s.engine? id = some e) (hstore : e.store = store) (l : Locale)
    (hset : ∀ stored, kept stored → ∃ stored',
      stored.set e.settings.storageKey l.tag = .ok stored' ∧ kept' stored') :
    Upkept (Upright (some l.languageTag) way) store kept' (s.switchTo play id l) := by
  subst hstore
  rw [switchTo_eq he]
  let applied := s.modifyEngine id ({ · with applied := some l })
  have happlied : Upkept (Upright lang way) e.store kept applied := ⟨h.free, h.page, h.kept⟩
  have he' : applied.engine? id = some { e with applied := some l } := by
    rw [engine?_modifyEngine, if_pos rfl, he]
    rfl
  have hmarked := happlied.guardedWrite hplay he' (Engine.upright_mark h.page e l)
  obtain ⟨stored, hput, hkept⟩ := hset _ hmarked.kept
  have hstill := still_setPreference e.store e.settings.storageKey l.tag
    (applied.guardedWrite play id (e.mark l))
  refine Upkept.applyTo hplay ⟨?_, ?_, ?_⟩ id none (some l)
  · exact hstill.1.access.trans hmarked.free
  · rw [hstill.2]
    exact hmarked.page
  · rw [storeAt_setPreference hput]
    exact hkept

end Engines
end PageLocalizer.Session
