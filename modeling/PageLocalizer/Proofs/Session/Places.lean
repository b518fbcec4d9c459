import Mathlib.Logic.Relation
import PageLocalizer.Proofs.Session.Stillness
import PageLocalizer.Proofs.Store
import PageLocalizer.Proofs.Translation.Marking

-- The places that a locale is kept in: the engines, the document element, and the stores. All that
-- goes on in a session comes down to small moves, and each tells which places it writes. What is
-- kept in the places of one engine stays for as long as no move writes there.
namespace PageLocalizer

-- The keys of the table of stores are the numbers below its length.
def Stocked (t : Table StoreId Store) : Prop := (t.map Prod.fst).Perm (List.range t.length)

namespace Stocked

variable {t : Table StoreId Store} {id : StoreId}

theorem keys_set (id : StoreId) (store : Store) (t : Table StoreId Store) :
    (t.set id store).map Prod.fst = id :: (t.map Prod.fst).filter (· ≠ id) := by
  simp only [Table.set, List.map_cons, List.filter_map]
  rfl

private theorem set_new (h : Stocked t) (store : Store) :
    Stocked (t.set t.length store) ∧ (t.set t.length store).length = t.length + 1 := by
  have hnew : t.length ∉ t.map Prod.fst := fun hm => by
    simpa using List.mem_range.mp (h.mem_iff.mp hm)
  have hkeys : (t.set t.length store).map Prod.fst = t.length :: t.map Prod.fst := by
    rw [keys_set, List.filter_eq_self.mpr]
    exact fun k hk => by simpa using fun he : k = t.length => hnew (he ▸ hk)
  have hlen : (t.set t.length store).length = t.length + 1 := by
    simpa using congrArg List.length hkeys
  refine ⟨?_, hlen⟩
  unfold Stocked
  rw [hlen, hkeys, List.range_succ]
  exact (h.cons t.length).trans (List.perm_append_singleton _ _).symm

private theorem set_old (h : Stocked t) (hid : id < t.length) (store : Store) :
    Stocked (t.set id store) ∧ (t.set id store).length = t.length := by
  have hnd : (t.map Prod.fst).Nodup := h.nodup_iff.mpr List.nodup_range
  have hm : id ∈ t.map Prod.fst := h.mem_iff.mpr (List.mem_range.mpr hid)
  have hkeys : ((t.set id store).map Prod.fst).Perm (t.map Prod.fst) := by
    rw [keys_set]
    have herase := hnd.erase_eq_filter id
    have hfilter : (t.map Prod.fst).filter (· ≠ id) = (t.map Prod.fst).erase id := by
      rw [herase]
      exact List.filter_congr fun k _ => Bool.eq_iff_iff.mpr (by simp)
    rw [hfilter]
    exact (List.perm_cons_erase hm).symm
  have hlen : (t.set id store).length = t.length := by simpa using hkeys.length_eq
  refine ⟨?_, hlen⟩
  unfold Stocked
  rw [hlen]
  exact hkeys.trans h

end Stocked

namespace Session

open Document

-- The places that a locale is kept in, and others of their kind.
inductive Place where
  -- The locale that an engine went to last.
  | engine (id : EngineId)
  -- An attribute of the document element.
  | page (name : String)
  -- What a store holds under a key.
  | store (id : StoreId) (key : String)

-- None of the places that an engine with a store keeps its locale in, by the standard settings.
def Place.Other (id : EngineId) (store : StoreId) : Place → Prop
  | .engine other => other ≠ id
  | .page name => name ∉ Engine.shown
  | .store other key => other = store → key ≠ EngineSettings.standard.storageKey

-- Nothing new but who has the page, who hears of it, what waits and who is at work, guards that
-- belong to no engine, what is said, and all names but those of stores.
def Apart (s s' : Session) : Prop :=
  s' = { s with
    access := s'.access
    frames := s'.frames
    listeners := s'.listeners
    busy := s'.busy
    guards := s'.guards
    names := { s'.names with stores := s.names.stores }
    log := s'.log }

-- `ok` says which places may be written.
inductive Move (ok : Place → Prop) (s : Session) : Session → Prop where
  | apart {s' : Session} : Apart s s' → Move ok s s'
  | edited (op : Operation) : (∀ name, op.Writes html name → ok (.page name)) →
      Move ok s { s with document := (op.edit s.document).document }
  | passed (c : Catalog) (l : Locale) (root : NodeId) :
      (∀ name ∈ Translation.targets, ok (.page name)) →
        Move ok s { s with document := (Translation.pass c l root s.document).document }
  -- The guard, the batch or the registration of an engine.
  | tuned (id : EngineId) (f : Engine → Engine) :
      (∀ e, (f e).settings = e.settings ∧ (f e).store = e.store ∧ (f e).applied = e.applied) →
        Move ok s (s.modifyEngine id f)
  | applied (id : EngineId) (l : Locale) : ok (.engine id) →
      Move ok s (s.modifyEngine id ({ · with applied := some l }))
  | preferred (id : StoreId) (key value : String) : id < s.stores.length → ok (.store id key) →
      Move ok s (s.setPreference id key value).2
  | stocked (store : Store) : Move ok s (s.addStore store).2
  | labelled (name : String) (id : StoreId) : id < s.stores.length →
      Move ok s (s.modifyNames fun n => { n with stores := n.stores.set name id })
  | hired (e : Engine) : e.store < s.stores.length → Move ok s (s.addEngine e).2
  | ended (id : EngineId) : Move ok s { s with engines := s.engines.erase id }

abbrev Onward (ok : Place → Prop) : Session → Session → Prop := Relation.ReflTransGen (Move ok)

variable {s s' s'' : Session} {ok ok' : Place → Prop} {id : EngineId} {e : Engine}
  {store : StoreId}

theorem Move.mono (h : Move ok s s') (hok : ∀ p, ok p → ok' p) : Move ok' s s' := by
  cases h with
  | apart ha => exact .apart ha
  | edited op hw => exact .edited op fun name hn => hok _ (hw name hn)
  | passed c l root hw => exact .passed c l root fun name hn => hok _ (hw name hn)
  | tuned id f hf => exact .tuned id f hf
  | applied id l hid => exact .applied id l (hok _ hid)
  | preferred id key value hid hkey => exact .preferred id key value hid (hok _ hkey)
  | stocked store => exact .stocked store
  | labelled name id hid => exact .labelled name id hid
  | hired e he => exact .hired e he
  | ended id => exact .ended id

theorem Onward.mono (h : Onward ok s s') (hok : ∀ p, ok p → ok' p) : Onward ok' s s' :=
  Relation.ReflTransGen.mono (fun _ _ hm => Move.mono hm hok) _ _ h

section Sound

-- The numbers that are given for engines and stores lie below the next ones, and the document
-- element is there.
structure Sound (s : Session) : Prop where
  numbered : ∀ id e, s.engine? id = some e → id < s.nextEngine ∧ e.store < s.stores.length
  stocked : Stocked s.stores
  storeNames : ∀ name id, s.names.stores.lookup name = some id → id < s.stores.length
  anchored : s.document.Anchored html
  element : s.document.isElement html

theorem sound_initial : initial.Sound where
  numbered id e h := by simp [initial, engine?] at h
  stocked := by simp [Stocked, initial]
  storeNames name id h := by simp [initial, Names.initial] at h
  anchored := anchored_empty (by decide)
  element := by decide

theorem Sound.apart (h : s.Sound) (ha : Apart s s') : s'.Sound := by
  rw [ha]
  exact ⟨h.numbered, h.stocked, h.storeNames, h.anchored, h.element⟩

theorem Sound.page {d : Document} {touched : String → Prop} (h : s.Sound)
    (hd : Keeps html touched s.document d) : Sound { s with document := d } :=
  ⟨h.numbered, h.stocked, h.storeNames, hd.anchored, hd.isElement.trans h.element⟩

theorem Sound.modifyEngine {f : Engine → Engine} (h : s.Sound)
    (hf : ∀ e, (f e).store = e.store) (id : EngineId) : (s.modifyEngine id f).Sound := by
  refine ⟨fun other e' he => ?_, h.stocked, h.storeNames, h.anchored, h.element⟩
  obtain ⟨e, hold, rfl⟩ := engine?_of_modifyEngine he
  have hstore : (if other = id then f e else e).store = e.store := by
    split
    · exact hf e
    · rfl
  rw [hstore]
  exact h.numbered other e hold

-- Stores are changed or added, but they do not go.
theorem Sound.restock {stores : Table StoreId Store} (h : s.Sound) (hstocked : Stocked stores)
    (hle : s.stores.length ≤ stores.length) : Sound { s with stores } where
  numbered id e he :=
    ⟨(h.numbered id e he).1, Nat.lt_of_lt_of_le (h.numbered id e he).2 hle⟩
  stocked := hstocked
  storeNames name id hid := Nat.lt_of_lt_of_le (h.storeNames name id hid) hle
  anchored := h.anchored
  element := h.element

theorem Sound.preferred (h : s.Sound) {store : StoreId} (hstore : store < s.stores.length)
    (key value : String) : (s.setPreference store key value).2.Sound ∧
      (s.setPreference store key value).2.stores.length = s.stores.length := by
  unfold setPreference
  split
  · rename_i kept _
    obtain ⟨hstocked, hlen⟩ := h.stocked.set_old hstore kept
    exact ⟨h.restock hstocked (Nat.le_of_eq hlen.symm), hlen⟩
  · exact ⟨h, rfl⟩

theorem Sound.addStore (h : s.Sound) (store : Store) : (s.addStore store).2.Sound ∧
    (s.addStore store).2.stores.length = s.stores.length + 1 := by
  obtain ⟨hstocked, hlen⟩ := h.stocked.set_new store
  exact ⟨h.restock hstocked (hlen ▸ Nat.le_succ _), hlen⟩

theorem Sound.labelled (h : s.Sound) (hstore : store < s.stores.length) (name : String) :
    Sound (s.modifyNames fun n => { n with stores := n.stores.set name store }) := by
  refine ⟨h.numbered, h.stocked, fun other id hid => ?_, h.anchored, h.element⟩
  have hlook : (s.names.stores.set name store).lookup other = some id := hid
  by_cases ho : other = name
  · subst ho
    rw [Table.lookup_set_self, Option.some.injEq] at hlook
    exact hlook ▸ hstore
  · rw [Table.lookup_set_of_ne ho] at hlook
    exact h.storeNames other id hlook

theorem Sound.hired (h : s.Sound) (hstore : e.store < s.stores.length) :
    (s.addEngine e).2.Sound := by
  refine ⟨fun id e' he => ?_, h.stocked, h.storeNames, h.anchored, h.element⟩
  rw [engine?_addEngine] at he
  split at he
  · rename_i hid
    rw [← Option.some.inj he]
    exact ⟨Nat.lt_succ_of_le (Nat.le_of_eq hid), hstore⟩
  · exact ⟨Nat.lt_succ_of_lt (h.numbered id e' he).1, (h.numbered id e' he).2⟩

theorem engine?_of_ended {other : EngineId}
    (h : engine? { s with engines := s.engines.erase id } other = some e) :
    s.engine? other = some e := by
  rw [engine?_endEngine] at h
  split at h
  · simp at h
  · exact h

-- Whatever places a move writes, the numbers stay in order and no store goes.
theorem Move.sound (hm : Move ok s s') (h : s.Sound) :
    s'.Sound ∧ s.stores.length ≤ s'.stores.length := by
  cases hm with
  | apart ha =>
      refine ⟨h.apart ha, ?_⟩
      rw [ha]
  | edited op _ =>
      exact ⟨h.page (op.keeping (by decide) _ h.anchored), Nat.le_refl _⟩
  | passed c l root _ =>
      exact ⟨h.page (Translation.keeping_pass (by decide) c l root _ h.anchored), Nat.le_refl _⟩
  | tuned id f hf => exact ⟨h.modifyEngine (fun e => (hf e).2.1) id, Nat.le_refl _⟩
  | applied id l _ => exact ⟨h.modifyEngine (f := ({ · with applied := some l })) (fun _ => rfl) id,
        Nat.le_refl _⟩
  | preferred id key value hid _ =>
      obtain ⟨hsound, hlen⟩ := h.preferred hid key value
      exact ⟨hsound, Nat.le_of_eq hlen.symm⟩
  | stocked store =>
      obtain ⟨hsound, hlen⟩ := h.addStore store
      exact ⟨hsound, hlen ▸ Nat.le_succ _⟩
  | labelled name id hid => exact ⟨h.labelled hid name, Nat.le_refl _⟩
  | hired e he => exact ⟨h.hired he, Nat.le_refl _⟩
  | ended id =>
      exact ⟨⟨fun other e he => h.numbered other e (engine?_of_ended he), h.stocked,
        h.storeNames, h.anchored, h.element⟩, Nat.le_refl _⟩

theorem Onward.sound (ho : Onward ok s s') (h : s.Sound) :
    s'.Sound ∧ s.stores.length ≤ s'.stores.length := by
  induction ho with
  | refl => exact ⟨h, Nat.le_refl _⟩
  | tail _ hm ih =>
      obtain ⟨hsound, hle⟩ := hm.sound ih.1
      exact ⟨hsound, Nat.le_trans ih.2 hle⟩

end Sound

section Kept

-- A store that can be relied on still can be, and holds the locale that it held.
def Spared (kept kept' : Store) : Prop :=
  kept.Dependable → kept'.Dependable ∧
    kept'.get EngineSettings.standard.storageKey = kept.get EngineSettings.standard.storageKey

-- What the places of an engine hold, they hold later on.
structure Kept (id : EngineId) (store : StoreId) (s s' : Session) : Prop where
  nextEngine : s.nextEngine ≤ s'.nextEngine
  engine : id < s.nextEngine → ∀ e', s'.engine? id = some e' → ∃ e, s.engine? id = some e ∧
    e'.settings = e.settings ∧ e'.store = e.store ∧ e'.applied = e.applied
  storeAt : store < s.stores.length → Spared (s.storeAt store) (s'.storeAt store)
  attribute? : ∀ name ∈ Engine.shown,
    s'.document.attribute? html name = s.document.attribute? html name

theorem Spared.refl (kept : Store) : Spared kept kept := fun h => ⟨h, rfl⟩

theorem Spared.trans {first second third : Store} (h : Spared first second)
    (h' : Spared second third) : Spared first third := fun hd =>
  ⟨(h' (h hd).1).1, (h' (h hd).1).2.trans (h hd).2⟩

theorem Kept.refl (id : EngineId) (store : StoreId) (s : Session) : Kept id store s s :=
  ⟨Nat.le_refl _, fun _ e he => ⟨e, he, rfl, rfl, rfl⟩, fun _ => .refl _, fun _ _ => rfl⟩

theorem Kept.trans (h : Kept id store s s') (h' : Kept id store s' s'')
    (hstores : s.stores.length ≤ s'.stores.length) : Kept id store s s'' where
  nextEngine := Nat.le_trans h.nextEngine h'.nextEngine
  engine hid e'' he := by
    obtain ⟨e', he', hset, hst, happ⟩ := h'.engine (Nat.lt_of_lt_of_le hid h.nextEngine) e'' he
    obtain ⟨e, hold, hset', hst', happ'⟩ := h.engine hid e' he'
    exact ⟨e, hold, hset.trans hset', hst.trans hst', happ.trans happ'⟩
  storeAt hs := (h.storeAt hs).trans (h'.storeAt (Nat.lt_of_lt_of_le hs hstores))
  attribute? name hn := (h'.attribute? name hn).trans (h.attribute? name hn)

theorem kept_page {d : Document} {touched : String → Prop}
    (hd : Keeps html touched s.document d) (ht : ∀ name, touched name → name ∉ Engine.shown) :
    Kept id store s { s with document := d } :=
  { Kept.refl id store s with
    attribute? := fun name hn => hd.attribute? name fun htouched => ht name htouched hn }

theorem kept_modifyEngine {f : Engine → Engine} {other : EngineId}
    (hf : ∀ e, (f e).settings = e.settings ∧ (f e).store = e.store ∧
      (other = id → (f e).applied = e.applied)) :
    Kept id store s (s.modifyEngine other f) := by
  refine { Kept.refl id store s with engine := fun _ e' he => ?_ }
  obtain ⟨e, hold, rfl⟩ := engine?_of_modifyEngine he
  obtain ⟨hset, hst, happ⟩ := hf e
  refine ⟨e, hold, ?_⟩
  by_cases hid : id = other
  · rw [if_pos hid]
    exact ⟨hset, hst, happ hid.symm⟩
  · rw [if_neg hid]
    exact ⟨rfl, rfl, rfl⟩

theorem storeAt_setPreference {kept : Store} {key value : String}
    (h : (s.storeAt store).set key value = .ok kept) :
    (s.setPreference store key value).2.storeAt store = kept := by
  unfold setPreference
  rw [h]
  show ((s.stores.set store kept).lookup store).getD _ = kept
  rw [Table.lookup_set_self]
  rfl

theorem storeAt_setPreference_of_ne {other : StoreId} (h : store ≠ other) (key value : String) :
    (s.setPreference other key value).2.storeAt store = s.storeAt store := by
  unfold setPreference
  split
  · rename_i kept _
    show ((s.stores.set other kept).lookup store).getD _ = _
    rw [Table.lookup_set_of_ne h]
    rfl
  · rfl

theorem kept_setPreference {other : StoreId} {key : String}
    (hkey : other = store → key ≠ EngineSettings.standard.storageKey) (value : String) :
    Kept id store s (s.setPreference other key value).2 := by
  obtain ⟨hstill, hdoc⟩ := still_setPreference other key value s
  refine ⟨Nat.le_of_eq hstill.nextEngine.symm, fun _ e he => ⟨e, ?_, rfl, rfl, rfl⟩, fun _ => ?_,
    fun name _ => by rw [hdoc]⟩
  · exact (hstill.engine? id).symm.trans he
  · by_cases hs : store = other
    · subst hs
      intro hdep
      obtain ⟨kept, hset, hdep', -, hothers⟩ := hdep.set key value
      rw [storeAt_setPreference hset]
      exact ⟨hdep', hothers _ (hkey rfl).symm⟩
    · rw [storeAt_setPreference_of_ne hs]
      exact .refl _

theorem kept_addStore (new : Store) : Kept id store s (s.addStore new).2 := by
  refine { Kept.refl id store s with storeAt := fun hlt => ?_ }
  show Spared _ (((s.stores.set s.stores.length new).lookup store).getD _)
  rw [Table.lookup_set_of_ne (Nat.ne_of_lt hlt)]
  exact .refl _

theorem kept_addEngine (e : Engine) : Kept id store s (s.addEngine e).2 := by
  refine { Kept.refl id store s with
    nextEngine := Nat.le_succ _
    engine := fun hid e' he => ?_ }
  rw [engine?_addEngine, if_neg (Nat.ne_of_lt hid)] at he
  exact ⟨e', he, rfl, rfl, rfl⟩

-- A move that writes none of an engine's places.
theorem Move.kept (hm : Move (Place.Other id store) s s') (h : s.Sound) : Kept id store s s' := by
  cases hm with
  | apart ha =>
      rw [ha]
      exact { Kept.refl id store s with }
  | edited op hw => exact kept_page (op.keeping (by decide) _ h.anchored) hw
  | passed c l root hw =>
      exact kept_page (Translation.keeping_pass (by decide) c l root _ h.anchored) hw
  | tuned other f hf => exact kept_modifyEngine fun e => ⟨(hf e).1, (hf e).2.1, fun _ => (hf e).2.2⟩
  | applied other l hne => exact kept_modifyEngine fun _ => ⟨rfl, rfl, fun ho => absurd ho hne⟩
  | preferred other key value _ hkey => exact kept_setPreference hkey value
  | stocked new => exact kept_addStore new
  | labelled name other _ => exact { Kept.refl id store s with }
  | hired e _ => exact kept_addEngine e
  | ended other =>
      exact { Kept.refl id store s with
        engine := fun _ e he => ⟨e, engine?_of_ended he, rfl, rfl, rfl⟩ }

theorem Onward.kept (ho : Onward (Place.Other id store) s s') (h : s.Sound) :
    Kept id store s s' := by
  induction ho with
  | refl => exact .refl id store s
  | tail ho hm ih =>
      obtain ⟨hsound, hle⟩ := Onward.sound ho h
      exact ih.trans (hm.kept hsound) hle

end Kept

end Session
end PageLocalizer
