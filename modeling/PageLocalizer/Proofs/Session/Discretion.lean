import PageLocalizer.Proofs.Session.Callbacks

-- An engine writes under its guard, and nobody who watches takes up what it writes.
namespace PageLocalizer

-- Nothing that waits changes but while somebody is told.
def Session.Undisturbed (play : Play) : Session → List Telling → Session → Prop
  | s, [], s' => s'.waiting = s.waiting
  | s, t :: rest, s' =>
    t.session.waiting = s.waiting ∧ Undisturbed play (t.after play) rest s'

theorem Batch.record_plain {b : Batch} (hb : b.Ready) {d : Document} {records : List Record}
    (h : ∀ id ∈ records.flatMap Record.added, d.isElement id = false) (guard : Guard) :
    b.record d records guard = ⟨b, false⟩ := by
  have hnone : (records.flatMap Record.added).filter d.isElement = [] :=
    List.filter_eq_nil_iff.mpr fun id hid => by simp [h id hid]
  have hready : b.nodes = [] ∨ b.scheduled = true := by
    by_cases hn : b.nodes = []
    · exact Or.inl hn
    · exact Or.inr (hb hn)
  unfold record
  split
  · rfl
  · rw [hnone]
    exact if_pos hready

namespace Session

variable {s s' s'' : Session} {id : EngineId} {play : Play} {ts ts' : List Telling} {t : Telling}
  {c : Change}

section Waiting

theorem waiting_modifyEngine {f : Engine → Engine} (h : ∀ e, s.engine? id = some e →
    (f e).batch = e.batch) : (s.modifyEngine id f).waiting = s.waiting := by
  refine Prod.ext (funext fun other => ?_) rfl
  show ((s.modifyEngine id f).engine? other).map (·.batch) = (s.engine? other).map (·.batch)
  rw [engine?_modifyEngine]
  by_cases hid : other = id
  · rw [if_pos hid, hid]
    cases he : s.engine? id with
    | none => rfl
    | some e => simp [h e he]
  · rw [if_neg hid]

theorem waiting_of_engines (he : s'.engines = s.engines) (hf : s'.frames = s.frames) :
    s'.waiting = s.waiting := by
  unfold waiting engine?
  rw [he, hf]

-- An engine that hears of no new elements takes up nothing, guard or no guard.
theorem waiting_engineHears (ho : s.Orderly) (hc : c.Plain) (id : EngineId) :
    (s.engineHears id c).waiting = s.waiting := by
  unfold engineHears
  cases he : s.engine? id with
  | none => rfl
  | some e =>
      have hplain : ∀ x ∈ [c.record].flatMap Record.added, c.seen.isElement x = false := by
        intro x hx
        exact hc x (by simpa using hx)
      dsimp only
      rw [Batch.record_plain (ho.ready id e he) hplain e.guard]
      refine waiting_modifyEngine fun e' he' => ?_
      rw [he, Option.some.injEq] at he'
      rw [he']

theorem waiting_after (ho : t.session.Orderly) (hc : t.change.Plain) (hr : ¬t.Reacts) :
    (t.after play).waiting = t.session.waiting := by
  unfold Telling.after hear
  split
  · exact waiting_engineHears ho hc _
  · exact waiting_of_engines rfl rfl
  · rename_i name steps h
    exact absurd ⟨name, steps, h⟩ hr
  · rfl

end Waiting

section Undisturbed

theorem Undisturbed.append (h : Undisturbed play s ts s') (h' : Undisturbed play s' ts' s'') :
    Undisturbed play s (ts ++ ts') s'' := by
  induction ts generalizing s with
  | nil =>
      cases ts' with
      | nil => exact Eq.trans h' h
      | cons t rest => exact ⟨h'.1.trans h, h'.2⟩
  | cons t rest ih => exact ⟨h.1, ih h.2⟩

theorem undisturbed_tellEach (c : Change) (observers : List ObserverId) (s : Session) :
    Undisturbed play s (tellEach play c observers s) (observers.foldl (hear play c) s) := by
  induction observers generalizing s with
  | nil => rfl
  | cons o rest ih => exact ⟨rfl, ih _⟩

theorem undisturbed_deliver (changes : List Change) (s : Session) :
    Undisturbed play s (tellings play changes s) (deliver play changes s) := by
  induction changes generalizing s with
  | nil => rfl
  | cons c rest ih => exact (undisturbed_tellEach c c.audience s).append (ih _)

theorem Undisturbed.of_waiting {r r' : Session} (h : Undisturbed play r ts r')
    (hs : r.waiting = s.waiting) (hs' : s'.waiting = r'.waiting) : Undisturbed play s ts s' := by
  have hfirst : Undisturbed play s [] r := hs
  have hlast : Undisturbed play r' [] s' := hs'
  simpa using (hfirst.append h).append hlast

theorem undisturbed_guardedWrite (id : EngineId) (edit : Edit Unit) (s : Session) :
    Undisturbed play s (s.guardedTellings play id edit) (s.guardedWrite play id edit) := by
  unfold guardedWrite guardedTellings
  cases s.isFree with
  | false => rfl
  | true =>
    cases s.engine? id with
    | none => rfl
    | some e =>
      let raised := s.modifyEngine id ({ · with guard := e.guard.acquire.2 })
      let written := (write play edit raised).2
      have hraised : raised.waiting = s.waiting := waiting_modifyEngine fun _ _ => rfl
      have hlowered : (written.modifyEngine id ({ · with guard := e.guard })).waiting =
          written.waiting := waiting_modifyEngine fun _ _ => rfl
      exact (undisturbed_deliver (edit s.document).changes _).of_waiting hraised hlowered

-- If nobody who is told stirs anything, nothing is stirred.
theorem Undisturbed.waiting_eq (h : Undisturbed play s ts s')
    (hq : ∀ t ∈ ts, (t.after play).waiting = t.session.waiting) : s'.waiting = s.waiting := by
  induction ts generalizing s with
  | nil => exact h
  | cons t rest ih =>
      have hrest := ih h.2 fun t ht => hq t (List.mem_cons_of_mem _ ht)
      exact hrest.trans ((hq t List.mem_cons_self).trans h.1)

end Undisturbed

section Within

theorem course_tellEach (hp : Courteous play) {observers : List ObserverId}
    (ht : t ∈ tellEach play c observers s) : t.change = c ∧ Course s t.session := by
  induction observers generalizing s with
  | nil => simp [tellEach] at ht
  | cons o rest ih =>
      rcases List.mem_cons.mp ht with rfl | ht
      · exact ⟨rfl, .refl s⟩
      · obtain ⟨hc, hcourse⟩ := ih ht
        exact ⟨hc, ((writes_course hp).hear trivial s o).trans hcourse⟩

theorem course_tellings (hp : Courteous play) {changes : List Change}
    (ht : t ∈ tellings play changes s) : t.change ∈ changes ∧ Course s t.session := by
  induction changes generalizing s with
  | nil => simp [tellings] at ht
  | cons c rest ih =>
      rcases List.mem_append.mp ht with ht | ht
      · obtain ⟨hc, hcourse⟩ := course_tellEach hp ht
        exact ⟨hc ▸ List.mem_cons_self, hcourse⟩
      · obtain ⟨hc, hcourse⟩ := ih ht
        have hheard : Course s (c.audience.foldl (hear play c) s) :=
          (writes_course hp).hearAll trivial c.audience s
        exact ⟨List.mem_cons_of_mem c hc, hheard.trans hcourse⟩

-- An engine begins to write: the page was free, and the guard is up.
structure Raised (id : EngineId) (before raised : Session) : Prop where
  free : before.access = .free
  engine : (before.engine? id).isSome
  engines : raised.engines = (before.modifyEngine id ({ · with guard := ⟨true⟩ })).engines
  access : raised.access = .exclusive
  busy : raised.busy = before.busy
  nextEngine : raised.nextEngine = before.nextEngine

-- An observer is told in the course of such writing.
structure Within (id : EngineId) (s : Session) (t : Telling) : Prop where
  plain : t.change.Plain
  raised : ∃ before raised, Course s before ∧ Raised id before raised ∧ Course raised t.session

theorem within_of_guarded (hp : Courteous play) {edit : Edit Unit} (hplain : Edit.Plain edit)
    (ht : t ∈ s.guardedTellings play id edit) : Within id s t := by
  unfold guardedTellings at ht
  split at ht
  · rename_i e hfree he
    obtain ⟨hc, hcourse⟩ := course_tellings hp ht
    refine ⟨hplain s.document t.change hc, s, _, .refl s, ?_, hcourse⟩
    exact ⟨isFree_iff.mp hfree, by simp [he], rfl, rfl, rfl, rfl⟩
  · simp at ht

theorem Within.of_course (hc : Course s s') (h : Within id s' t) : Within id s t := by
  obtain ⟨before, raised, hb, hrest⟩ := h.raised
  exact ⟨h.plain, before, raised, hc.trans hb, hrest⟩

end Within

end Session

namespace EngineCall

open Session

variable {s : Session} {id : EngineId} {play : Play} {t : Telling} {call : EngineCall}

theorem course_run (hp : Courteous play) (id : EngineId) (call : EngineCall) (s : Session) :
    Course s (call.run play id s) := by
  cases call with
  | setLocale input => exact (moves_course hp).setLocale id input s
  | toggle => exact (moves_course hp).toggle id s
  | applyTo root locale => exact (writes_course hp).applyTo id root locale s
  | flush => exact course_flush hp id s

section Tellings

theorem within_of_apply (hp : Courteous play) {root : Option NodeId} {locale : Option Locale}
    (ht : t ∈ applyTellings play id root locale s) : Within id s t := by
  unfold applyTellings at ht
  split at ht
  · exact within_of_guarded hp (Engine.plain_translate _ _ _) ht
  · simp at ht

theorem within_of_switch (hp : Courteous play) {locale : Locale}
    (ht : t ∈ switchTellings play id locale s) : Within id s t := by
  unfold switchTellings at ht
  split at ht
  · rename_i e he
    have hshown := course_setApplied id locale s
    rcases List.mem_append.mp ht with ht | ht
    · exact (within_of_guarded hp (Engine.plain_mark e locale) ht).of_course hshown
    · have hmarked := hshown.trans
        ((writes_course hp).guardedWrite id (Engine.plain_mark e locale) _)
      have hkept := hmarked.trans (aside_setPreference e.store e.settings.storageKey
        locale.tag _).course
      exact (within_of_apply hp ht).of_course hkept
  · simp at ht

theorem within_of_translate (hp : Courteous play) {e : Engine} {locale : Locale}
    {nodes : List NodeId} (ht : t ∈ translateTellings play id e locale nodes s) :
    Within id s t := by
  induction nodes generalizing s with
  | nil => simp [translateTellings] at ht
  | cons node rest ih =>
      rcases List.mem_append.mp ht with ht | ht
      · exact within_of_guarded hp (Engine.plain_translate e locale node) ht
      · exact (ih ht).of_course
          ((writes_course hp).guardedWrite id (Engine.plain_translate e locale node) s)

theorem within_of_call (hp : Courteous play) (ht : t ∈ call.tellings play id s) :
    Within id s t := by
  cases call with
  | setLocale input => exact within_of_switch hp ht
  | toggle => exact within_of_switch hp ht
  | applyTo root locale => exact within_of_apply hp ht
  | flush =>
      unfold EngineCall.tellings at ht
      dsimp only at ht
      split at ht
      · simp at ht
      · have htake : Course s (s.modifyEngine id ({ · with batch := Batch.empty })) :=
          course_modifyEngine (fun _ => rfl) fun _ _ _ => Batch.ready_empty
        split at ht
        · exact (within_of_translate hp ht).of_course htake
        · simp at ht

end Tellings

section Undisturbed

-- With the page free, all that waits is translated.
theorem flush_of_free {e : Engine} (he : s.engine? id = some e) (hs : s.access = .free) :
    let taken := s.modifyEngine id ({ · with batch := Batch.empty })
    s.flush play id = e.batch.nodes.foldl
      (fun s node => s.guardedWrite play id (e.translate (taken.localeOf e) node)) taken := by
  have hfree : (s.modifyEngine id ({ · with batch := e.batch.take.2 })).isFree = true :=
    isFree_iff.mpr hs
  unfold Session.flush
  rw [he]
  dsimp only
  by_cases hn : e.batch.take.1 = []
  · have hnil : e.batch.nodes = [] := hn
    rw [if_pos hn, hnil]
    rfl
  · rw [if_neg hn, if_pos hfree]
    rfl

theorem undisturbed_applyTo (root : Option NodeId) (locale : Option Locale) (s : Session) :
    Undisturbed play s (applyTellings play id root locale s) (s.applyTo play id root locale) := by
  unfold applyTellings Session.applyTo
  cases s.engine? id with
  | none => rfl
  | some e => exact undisturbed_guardedWrite id _ s

theorem undisturbed_switchTo (locale : Locale) (s : Session) :
    Undisturbed play s (switchTellings play id locale s) (s.switchTo play id locale) := by
  unfold switchTellings Session.switchTo
  cases s.engine? id with
  | none => rfl
  | some e =>
      let shown := s.modifyEngine id ({ · with applied := some locale })
      let marked := shown.guardedWrite play id (e.mark locale)
      have hshown : shown.waiting = s.waiting := waiting_modifyEngine fun _ _ => rfl
      have haside := aside_setPreference e.store e.settings.storageKey locale.tag marked
      have hkept := waiting_of_engines haside.engines haside.frames
      have hmark := (undisturbed_guardedWrite id (e.mark locale) shown).of_waiting hshown hkept
      exact hmark.append (undisturbed_applyTo none (some locale) _)

theorem undisturbed_translate (e : Engine) (locale : Locale) (nodes : List NodeId)
    (s : Session) : Undisturbed play s (translateTellings play id e locale nodes s)
      (nodes.foldl (fun s node => s.guardedWrite play id (e.translate locale node)) s) := by
  induction nodes generalizing s with
  | nil => rfl
  | cons node rest ih => exact (undisturbed_guardedWrite id _ s).append (ih _)

-- A flush that finds the page in use puts its batch back. That is no writing.
theorem undisturbed_call (call : EngineCall) (hs : call = .flush → s.access = .free) :
    Undisturbed play (call.begun id s) (call.tellings play id s) (call.run play id s) := by
  cases call with
  | setLocale input => exact undisturbed_switchTo _ s
  | toggle =>
      cases he : s.engine? id with
      | none => simp [EngineCall.tellings, EngineCall.run, Session.toggle, switchTellings, he,
          Undisturbed, begun]
      | some e =>
          have htoggle : (s.toggle play id).2 = s.switchTo play id (s.toggle play id).1 := by
            simp only [Session.toggle, he]
            rfl
          unfold EngineCall.tellings EngineCall.run
          dsimp only
          rw [htoggle]
          exact undisturbed_switchTo _ s
  | applyTo root locale => exact undisturbed_applyTo root locale s
  | flush =>
      cases he : s.engine? id with
      | none =>
          have hsame : (s.modifyEngine id ({ · with batch := Batch.empty })).waiting = s.waiting :=
            waiting_modifyEngine fun e h => by
              rw [he] at h
              simp at h
          simp only [EngineCall.tellings, EngineCall.run, Session.flush, he]
          exact hsame.symm
      | some e =>
          have hfree : (s.modifyEngine id ({ · with batch := Batch.empty })).isFree = true :=
            isFree_iff.mpr (hs rfl)
          simp only [EngineCall.tellings, EngineCall.run, he, hfree, ite_true]
          rw [flush_of_free he (hs rfl)]
          exact undisturbed_translate e _ e.batch.nodes _

end Undisturbed

end EngineCall
end PageLocalizer
