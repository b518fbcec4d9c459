import Mathlib.Logic.Relation
import PageLocalizer.Proofs.Session.Deeds
import PageLocalizer.Proofs.Session.PageEdits
import PageLocalizer.Proofs.Session.Strides

-- All that goes on in a session is deeds, one after the other.
namespace PageLocalizer.Session

-- The states on the way count too: a reaction begins in a state that the session led to.
abbrev Leads : Session → Session → Prop := Relation.ReflTransGen Deed

-- Scripts do deeds only.
def Plays (play : Play) : Prop := ∀ steps s, Leads s (play steps s).2

variable {s s' : Session} {play : Play}

theorem Aloof.leads (h : Aloof s s') : Leads s s' :=
  .single (.aside ⟨h.registry, h.listeners, h.nextEngine, h.observerNames,
    fun id => by rw [engine?, h.engines, engine?]⟩ h.engineNames h.busy)

-- The page gets another look, with the same registrations.
theorem leads_page {d : Document} (h : d.registry = s.document.registry) :
    Leads s { s with document := d } :=
  .single (.aside ⟨h, rfl, rfl, rfl, fun _ => rfl⟩ rfl rfl)

theorem leads_frames (frames : Frames FrameJob) (s : Session) : Leads s { s with frames } :=
  .single (.aside ⟨rfl, rfl, rfl, rfl, fun _ => rfl⟩ rfl rfl)

theorem leads_modifyEngine {f : Engine → Engine} (hf : ∀ e, (f e).observer = e.observer)
    (id : EngineId) (s : Session) : Leads s (s.modifyEngine id f) := by
  refine .single (.aside ⟨rfl, rfl, rfl, rfl, fun other => ?_⟩ rfl rfl)
  rw [engine?_modifyEngine]
  split
  · rw [Option.map_map]
    exact congrArg (Option.map · _) (funext hf)
  · rfl

theorem strides_leads (hp : Plays play) : Strides True (fun _ => True) play Leads where
  refl _ := .refl
  trans := .trans
  light h := h.aloof.leads
  access _ _ := .single (.aside ⟨rfl, rfl, rfl, rfl, fun _ => rfl⟩ rfl rfl)
  frames _ := leads_frames _ _
  flushing _ s := leads_frames _ s
  guard id guard s := leads_modifyEngine (f := ({ · with guard })) (fun _ => rfl) id s
  batch id batch s := leads_modifyEngine (f := ({ · with batch })) (fun _ => rfl) id s
  passed c l root s := leads_page (Translation.tacit_pass c l root s.document).1
  planned _ hplan s :=
    have hstepwise : Edit.Stepwise (fun _ => True) _ :=
      PageEdit.stepwise_plan hplan (fun _ _ => trivial) fun _ _ => trivial
    leads_page (hstepwise.tacit s.document).1
  marked _ e l s := leads_page (Engine.tacit_mark e l s.document).1
  applied _ id l s :=
    leads_modifyEngine (f := ({ · with applied := some l })) (fun _ => rfl) id s
  kept _ _ h value := h.trans (aloof_setPreference _ _ value _).leads
  stored _ s := (aloof_performStore _ s).leads
  watch id _ := .single (.watched id)
  unwatch id _ := .single (.unwatched id)
  observe _ _ := .single (.observed _ _ _)
  disconnectNamed name _ := .single (.disconnected name)
  working hid := .single (.working _ hid)
  done id _ := .single (.done id)
  nameEngine hid name := .single (.named name _ hid)
  dropEngine name _ := .single (.dropped name)
  created hstore _ name := (aloof_engineStore hstore).leads.tail (.created name _ rfl)
  request _ s := leads_frames _ s
  settings _ _ := trivial
  reacts _ := hp _ _
  due _ h := h.trans (hp _ _)
  repeated _ := hp _
  held _ := hp _

-- Scripts set off scripts, to any depth.
theorem plays_play (depth : Nat) : Plays (Session.play depth) := by
  induction depth with
  | zero => exact fun _ s => .refl
  | succ depth ih => exact fun _ s => (strides_leads ih).inOrder (fun _ _ => trivial) s

end PageLocalizer.Session
