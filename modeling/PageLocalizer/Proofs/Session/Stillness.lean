import PageLocalizer.Proofs.Session.Discretion

-- Sessions in which only engines stand behind registrations. What an engine writes there stirs
-- nothing but the page.
namespace PageLocalizer.Session

def Scriptless (s : Session) : Prop := ∀ o l, s.listeners.lookup o = some l → ∃ id, l = .engine id

-- The sessions differ in the page, the stores and the log at most.
structure Still (s s' : Session) : Prop where
  access : s'.access = s.access
  frames : s'.frames = s.frames
  listeners : s'.listeners = s.listeners
  nextEngine : s'.nextEngine = s.nextEngine
  busy : s'.busy = s.busy
  names : s'.names = s.names
  engine? : ∀ id, s'.engine? id = s.engine? id

variable {s s' s'' : Session} {id : EngineId} {e : Engine} {play : Play} {c : Change}

section Still

theorem Still.refl (s : Session) : Still s s := ⟨rfl, rfl, rfl, rfl, rfl, rfl, fun _ => rfl⟩

theorem Still.trans (h : Still s s') (h' : Still s' s'') : Still s s'' where
  access := h'.access.trans h.access
  frames := h'.frames.trans h.frames
  listeners := h'.listeners.trans h.listeners
  nextEngine := h'.nextEngine.trans h.nextEngine
  busy := h'.busy.trans h.busy
  names := h'.names.trans h.names
  engine? id := (h'.engine? id).trans (h.engine? id)

theorem Still.orderly (h : Still s s') (ho : s.Orderly) : s'.Orderly where
  numbered id e he := by
    rw [h.nextEngine]
    exact ho.numbered id e ((h.engine? id).symm.trans he)
  ready id e he := ho.ready id e ((h.engine? id).symm.trans he)

theorem Still.scriptless (h : Still s s') (hs : s.Scriptless) : s'.Scriptless := by
  unfold Scriptless
  rw [h.listeners]
  exact hs

theorem still_setPreference (store : StoreId) (key value : String) (s : Session) :
    Still s (s.setPreference store key value).2 ∧
      (s.setPreference store key value).2.document = s.document := by
  unfold setPreference
  split <;> exact ⟨⟨rfl, rfl, rfl, rfl, rfl, rfl, fun _ => rfl⟩, rfl⟩

end Still

section Plain

variable (ho : s.Orderly) (hs : s.Scriptless)

include ho hs

theorem still_hear (hc : c.Plain) (o : ObserverId) :
    Still s (s.hear play c o) ∧ (s.hear play c o).document = s.document := by
  unfold hear
  split
  · rename_i id _
    unfold engineHears
    cases he : s.engine? id with
    | none => exact ⟨.refl s, rfl⟩
    | some e =>
        have hplain : ∀ x ∈ [c.record].flatMap Record.added, c.seen.isElement x = false := by
          simpa [Change.Plain] using hc
        dsimp only
        rw [Batch.record_plain (ho.ready id e he) hplain e.guard]
        refine ⟨⟨rfl, rfl, rfl, rfl, rfl, rfl, fun other => ?_⟩, rfl⟩
        refine (engine?_modifyEngine id other _ s).trans ?_
        by_cases hid : other = id
        · simp [hid, he]
        · rw [if_neg hid]
  · rename_i hl
    obtain ⟨id, hid⟩ := hs _ _ hl
    simp at hid
  · rename_i hl
    obtain ⟨id, hid⟩ := hs _ _ hl
    simp at hid
  · exact ⟨.refl s, rfl⟩

theorem still_hearAll (hc : c.Plain) (observers : List ObserverId) :
    Still s (observers.foldl (hear play c) s) ∧
      (observers.foldl (hear play c) s).document = s.document := by
  induction observers generalizing s with
  | nil => exact ⟨.refl s, rfl⟩
  | cons o rest ih =>
      obtain ⟨hstill, hdoc⟩ := still_hear ho hs hc o
      obtain ⟨hrest, hdoc'⟩ := ih (hstill.orderly ho) (hstill.scriptless hs)
      exact ⟨hstill.trans hrest, hdoc'.trans hdoc⟩

theorem still_deliver {changes : List Change} (hc : ∀ c ∈ changes, c.Plain) :
    Still s (deliver play changes s) ∧ (deliver play changes s).document = s.document := by
  induction changes generalizing s with
  | nil => exact ⟨.refl s, rfl⟩
  | cons c rest ih =>
      obtain ⟨hstill, hdoc⟩ := still_hearAll ho hs (hc c List.mem_cons_self) c.audience
      obtain ⟨hrest, hdoc'⟩ := ih (hstill.orderly ho) (hstill.scriptless hs)
        fun c hm => hc c (List.mem_cons_of_mem _ hm)
      exact ⟨hstill.trans hrest, hdoc'.trans hdoc⟩

theorem still_write {edit : Edit α} (hfree : s.access = .free)
    (hc : ∀ c ∈ (edit s.document).changes, c.Plain) :
    Still s (s.write play edit).2 ∧
      (s.write play edit).2.document = (edit s.document).document := by
  have ho' : Orderly { s with document := (edit s.document).document, access := .exclusive } :=
    ⟨ho.numbered, ho.ready⟩
  obtain ⟨h, hdoc⟩ := still_deliver ho' hs hc
  exact ⟨⟨hfree.symm, h.frames, h.listeners, h.nextEngine, h.busy, h.names, h.engine?⟩, hdoc⟩

-- An engine that finds the page free writes to it, and to nothing else.
theorem still_guardedWrite {edit : Edit Unit} (hfree : s.access = .free)
    (he : s.engine? id = some e) (hc : Edit.Plain edit) :
    Still s (s.guardedWrite play id edit) ∧
      (s.guardedWrite play id edit).document = (edit s.document).document := by
  have ho' : (s.modifyEngine id ({ · with guard := ⟨true⟩ })).Orderly :=
    ho.modifyEngine fun e he => ho.ready id e he
  obtain ⟨h, hdoc⟩ := still_write ho' hs hfree (hc s.document)
  unfold guardedWrite
  rw [isFree_iff.mpr hfree, he]
  refine ⟨⟨h.access, h.frames, h.listeners, h.nextEngine, h.busy, h.names, fun other => ?_⟩, hdoc⟩
  refine (engine?_modifyEngine id other _ _).trans ?_
  rw [h.engine? other, engine?_modifyEngine]
  by_cases hid : other = id
  · simp [hid, he, GuardScope.finish]
  · rw [if_neg hid, if_neg hid]

-- So does a flush, node by node.
theorem still_translateEach (hfree : s.access = .free) (he : s.engine? id = some e)
    (locale : Locale) (nodes : List NodeId) :
    let after := nodes.foldl (fun s node => s.guardedWrite play id (e.translate locale node)) s
    Still s after ∧ after.document =
      nodes.foldl (fun d node => (e.translate locale node d).document) s.document := by
  induction nodes generalizing s with
  | nil => exact ⟨.refl s, rfl⟩
  | cons node rest ih =>
      obtain ⟨h, hdoc⟩ := still_guardedWrite ho hs hfree he
        (Engine.plain_translate e locale node)
      obtain ⟨hrest, hdoc'⟩ := ih (h.orderly ho) (h.scriptless hs) (h.access.trans hfree)
        ((h.engine? id).trans he)
      exact ⟨h.trans hrest, hdoc'.trans (by rw [hdoc]; rfl)⟩

end Plain

end PageLocalizer.Session
