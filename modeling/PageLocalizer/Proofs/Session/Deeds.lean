import PageLocalizer.Proofs.Session.Ledger

-- The deeds that all steps of a session come down to, as far as engines and their registrations go,
-- and what each of them makes of the ledger.
namespace PageLocalizer.Session

open Document

inductive Deed (s : Session) : Session → Prop where
  | aside {s' : Session} : Alike s s' → s'.names.engines = s.names.engines → s'.busy = s.busy →
      Deed s s'
  | watched (id : EngineId) : Deed s (s.watch id)
  | unwatched (id : EngineId) : Deed s (s.unwatch id)
  | observed (target name : String) (reaction : Option (List Step)) :
      Deed s (s.observe target name reaction).2
  | disconnected (name : String) : Deed s (s.disconnectNamed name).2
  -- An engine sets to work, and later it is done.
  | working (id : EngineId) : (s.engine? id).isSome = true → Deed s { s with busy := id :: s.busy }
  | done (id : EngineId) : Deed s (endUnused id { s with busy := s.busy.erase id })
  | named (name : String) (id : EngineId) : (s.engine? id).isSome = true →
      Deed s (s.nameEngine name id)
  | dropped (name : String) : Deed s (s.dropEngine name).2
  | created (name : String) (e : Engine) : e.observer = none →
      Deed s ((s.addEngine e).2.nameEngine name s.nextEngine)

-- What becomes of the engines that end. One that ends with the page free leaves nothing behind. One
-- that ends with the page in use leaves its registration. An engine that has ended does not come
-- back, and nobody touches what it left.
structure Settles (s s' : Session) : Prop where
  nextEngine : s.nextEngine ≤ s'.nextEngine
  ended : ∀ id < s.nextEngine, s.engine? id = none → s'.engine? id = none
  left : ∀ id < s.nextEngine, s'.engine? id = none → s'.registrations id =
    if (s.engine? id).isSome = true ∧ s.access = .free then [] else s.registrations id

variable {s s' s'' : Session} {id other : EngineId} {e : Engine} {o : ObserverId} {name : String}

section Settles

-- Nobody ends.
theorem Settles.of_same (hn : s.nextEngine ≤ s'.nextEngine)
    (hs : ∀ id, (s'.engine? id).isSome = (s.engine? id).isSome)
    (hr : ∀ id, s.engine? id = none → s'.registrations id = s.registrations id) :
    Settles s s' where
  nextEngine := hn
  ended id _ he := by simpa [he] using hs id
  left id _ he := by
    have hnone : s.engine? id = none := by simpa [he] using (hs id).symm
    rw [if_neg (by simp [hnone])]
    exact hr id hnone

theorem Settles.refl (s : Session) : Settles s s :=
  .of_same (Nat.le_refl _) (fun _ => rfl) fun _ _ => rfl

-- Something of no account to the engines that are there comes before.
theorem Settles.after (h : Settles s' s'') (hn : s.nextEngine ≤ s'.nextEngine)
    (ha : s'.access = s.access)
    (hs : ∀ id < s.nextEngine, (s'.engine? id).isSome = (s.engine? id).isSome ∧
      s'.registrations id = s.registrations id) : Settles s s'' where
  nextEngine := Nat.le_trans hn h.nextEngine
  ended id hid he := h.ended id (Nat.lt_of_lt_of_le hid hn) (by simpa [he] using (hs id hid).1)
  left id hid he := by
    obtain ⟨hsome, hreg⟩ := hs id hid
    rw [h.left id (Nat.lt_of_lt_of_le hid hn) he, hsome, hreg, ha]

theorem Books.settles_endUnused (h : s.Books) (id : EngineId) :
    Settles s (s.endUnused id) where
  nextEngine := Nat.le_of_eq (endUnused_names id s).2.2.1.symm
  ended other _ he := by
    rw [engine?_endUnused, he, ite_self]
  left other _ he := by
    rw [engine?_endUnused] at he
    rw [h.registrations_endUnused]
    by_cases hc : other = id ∧ ¬s.Held id
    · obtain ⟨rfl, hh⟩ := hc
      simp [hh]
    · rw [if_neg hc] at he
      rw [if_neg fun h => hc ⟨h.1, h.2.1⟩, if_neg (by simp [he])]

end Settles

section Watching

-- Somebody registers.
theorem Books.enlist (h : s.Books) (target : NodeId) (l : Listener)
    (hd : s'.document = (Document.observe target s.document).document)
    (hl : s'.listeners = s.listeners.set s.document.nextObserver l)
    (hn : s'.nextEngine = s.nextEngine) (hlid : ∀ id, l = .engine id → id < s.nextEngine)
    (hscripts : ∀ name o, s'.names.observers.lookup name = some o →
      ∃ script reaction, s'.listeners.lookup o = some (.script script reaction))
    (he : ∀ id e, s'.engine? id = some e → id < s.nextEngine ∧ e.registration =
      s.registrations id ++ if l.isFor id then [⟨s.document.nextObserver, target⟩] else [])
    (honce : ∀ id, l = .engine id → s.registrations id = [])
    (hdistinct : (s'.names.engines.map Prod.fst).Nodup) : s'.Books := by
  have hregs := h.registrations_enlist target l (by rw [hd]; rfl) hl
  refine ⟨hd ▸ h.numbered.observe target, fun o l' hlook => ?_, hscripts, fun id e hid => ?_,
    fun id e hid => ?_, fun id => ?_, hdistinct⟩
  · rw [hl] at hlook
    rw [hd, hn]
    by_cases ho : o = s.document.nextObserver
    · rw [ho, Table.lookup_set_self, Option.some.injEq] at hlook
      exact ⟨ho ▸ Nat.lt_succ_self _, fun id hid => hlid id (hlook.trans hid)⟩
    · rw [Table.lookup_set_of_ne ho] at hlook
      exact ⟨Nat.lt_succ_of_lt (h.known o l' hlook).1, (h.known o l' hlook).2⟩
  · rw [hn]
    exact (he id e hid).1
  · rw [hregs, (he id e hid).2]
  · rw [hregs]
    split
    · rename_i hfor
      simp [honce id (Listener.isFor_iff.mp hfor)]
    · simpa using h.once id

-- Nobody's registration is taken over.
theorem Books.lookup_enlist (h : s.Books) (hname : s.names.observers.lookup name = some o)
    (l : Listener) : (s.listeners.set s.document.nextObserver l).lookup o =
      s.listeners.lookup o := by
  obtain ⟨_, _, hscript⟩ := h.scripts name o hname
  exact Table.lookup_set_of_ne (Nat.ne_of_lt (h.known o _ hscript).1) _ _

theorem Ledger.watch (h : s.Ledger) (id : EngineId) :
    (s.watch id).Ledger ∧ Settles s (s.watch id) := by
  have hsame : s.Ledger ∧ Settles s s := ⟨h, .refl s⟩
  unfold Session.watch
  split
  · rename_i e he
    split
    · exact hsame
    · rename_i hwatch
      have hnone : e.observer = none := by
        rw [not_or] at hwatch
        simpa using hwatch.1
      have hempty : s.registrations id = [] :=
        (h.registered id e he).trans (Engine.registration_none hnone)
      refine ⟨⟨h.toBooks.enlist body (.engine id) rfl rfl rfl ?_ ?_ ?_ ?_
        h.distinct, fun other => ?_⟩, .of_same (Nat.le_refl _) (fun other => ?_) fun other ho => ?_⟩
      · exact fun other hother => Listener.engine.inj hother ▸ h.born id e he
      · intro name o ho
        rw [h.lookup_enlist ho]
        exact h.scripts name o ho
      · intro other e' he'
        obtain ⟨e₁, he₁, -, -, hobs⟩ := engine?_of_setObserver he'
        refine ⟨h.born other e₁ he₁, ?_⟩
        by_cases hother : other = id
        · rw [if_pos hother] at hobs
          rw [hother, hempty, Engine.registration_some hobs]
          simp [Listener.isFor]
        · rw [if_neg hother] at hobs
          rw [h.registered other e₁ he₁]
          simp [Engine.registration, hobs, Listener.isFor, Ne.symm hother]
      · exact fun other hother => Listener.engine.inj hother ▸ hempty
      · exact (isSome_modifyEngine id other _ s).symm ▸ h.alive other
      · exact isSome_modifyEngine id other _ s
      · have hne : id ≠ other := fun hid => by simp [hid, ho] at he
        rw [h.registrations_enlist body (.engine id) rfl rfl]
        simp [Listener.isFor, hne]
  · exact hsame

-- Somebody is struck off.
theorem Books.strike (h : s.Books)
    (hd : s'.document = (Document.disconnect o s.document).document)
    (hl : s'.listeners = s.listeners) (hn : s'.nextEngine = s.nextEngine)
    (hnames : s'.names = s.names)
    (he : ∀ id e, s'.engine? id = some e → id < s.nextEngine ∧
      (s.registrations id).filter (·.id ≠ o) = e.registration) : s'.Books := by
  have hregs : ∀ id, s'.registrations id = (s.registrations id).filter (·.id ≠ o) := fun id =>
    (registrations_congr (s := s.disconnect o) (by rw [hd]; rfl) hl id).trans
      (registrations_disconnect o s id)
  refine ⟨hd ▸ h.numbered.disconnect o, ?_, ?_, fun id e hid => ?_, fun id e hid => ?_,
    fun id => ?_, ?_⟩
  · rw [hl, hd, hn]
    exact h.known
  · rw [hl, hnames]
    exact h.scripts
  · rw [hn]
    exact (he id e hid).1
  · rw [hregs, (he id e hid).2]
  · rw [hregs]
    exact Nat.le_trans (List.length_filter_le _ _) (h.once id)
  · rw [hnames]
    exact h.distinct

-- A registration is in one engine's name only.
theorem Books.filter_registrations (h : s.Books) (he : s.engine? id = some e)
    (ho : e.observer = some o) (hother : other ≠ id) :
    (s.registrations other).filter (·.id ≠ o) = s.registrations other := by
  have hmine : (⟨o, body⟩ : Observer) ∈ s.registrations id := by
    rw [h.registered id e he, Engine.registration_some ho]
    exact List.mem_cons_self
  have hfor := (mem_registrations.mp hmine).2
  rw [← registrations_disconnect]
  refine registrations_disconnect_of_ne fun hl => hother ?_
  have hsame := hl.symm.trans hfor
  simpa using hsame

theorem Ledger.unwatch (h : s.Ledger) (id : EngineId) :
    (s.unwatch id).Ledger ∧ Settles s (s.unwatch id) := by
  have hsame : s.Ledger ∧ Settles s s := ⟨h, .refl s⟩
  unfold Session.unwatch
  split
  · rename_i o hbind
    obtain ⟨e, he, ho⟩ := Option.bind_eq_some_iff.mp hbind
    split
    · refine ⟨⟨h.toBooks.strike (o := o) rfl rfl rfl rfl fun other e' he' => ?_, fun other => ?_⟩,
        .of_same (Nat.le_refl _) (fun other => ?_) fun other hnone => ?_⟩
      · obtain ⟨e₁, he₁, -, -, hobs⟩ := engine?_of_setObserver he'
        refine ⟨h.born other e₁ he₁, ?_⟩
        by_cases hother : other = id
        · rw [if_pos hother] at hobs
          rw [hother, h.registered id e he, Engine.registration_some ho,
            Engine.registration_none hobs]
          simp
        · rw [if_neg hother] at hobs
          rw [h.filter_registrations he ho hother, h.registered other e₁ he₁]
          simp [Engine.registration, hobs]
      · exact (isSome_modifyEngine id other _ (s.disconnect o)).symm ▸ h.alive other
      · exact isSome_modifyEngine id other _ (s.disconnect o)
      · have hne : other ≠ id := fun hid => by simp [← hid, hnone] at he
        exact (registrations_disconnect o s other).trans (h.filter_registrations he ho hne)
    · exact hsame
  · exact hsame

end Watching

section Scripts

theorem Ledger.observe (h : s.Ledger) (target name : String) (reaction : Option (List Step)) :
    (s.observe target name reaction).2.Ledger ∧
      Settles s (s.observe target name reaction).2 := by
  have hsame : s.Ledger ∧ Settles s s := ⟨h, .refl s⟩
  unfold Session.observe
  split
  · exact hsame
  · split
    · exact hsame
    · rename_i target _
      refine ⟨⟨h.toBooks.enlist target (.script name reaction) rfl rfl rfl nofun ?_
        ?_ nofun h.distinct, h.alive⟩, .of_same (Nat.le_refl _) (fun _ => rfl) fun id _ => ?_⟩
      · intro other o ho
        dsimp only at ho ⊢
        by_cases hother : other = name
        · rw [hother, Table.lookup_set_self, Option.some.injEq] at ho
          rw [← ho, Table.lookup_set_self]
          exact ⟨name, reaction, rfl⟩
        · rw [Table.lookup_set_of_ne hother] at ho
          rw [h.lookup_enlist ho]
          exact h.scripts other o ho
      · intro id e he
        refine ⟨h.born id e he, ?_⟩
        simpa [Listener.isFor] using (h.registered id e he).symm
      · rw [h.registrations_enlist target (.script name reaction) rfl rfl]
        simp [Listener.isFor]

theorem Ledger.disconnectNamed (h : s.Ledger) (name : String) :
    (s.disconnectNamed name).2.Ledger ∧ Settles s (s.disconnectNamed name).2 := by
  have hsame : s.Ledger ∧ Settles s s := ⟨h, .refl s⟩
  unfold Session.disconnectNamed
  split
  · exact hsame
  · split
    · rename_i o ho
      obtain ⟨_, _, hscript⟩ := h.scripts name o ho
      have hregs : ∀ id, (s.disconnect o).registrations id = s.registrations id := fun id =>
        registrations_disconnect_of_ne (by simp [hscript])
      refine ⟨⟨h.toBooks.strike (o := o) rfl rfl rfl rfl fun id e he => ⟨h.born id e he, ?_⟩,
        h.alive⟩, .of_same (Nat.le_refl _) (fun _ => rfl) fun id _ => hregs id⟩
      rw [← registrations_disconnect, hregs]
      exact h.registered id e he
    · exact hsame

end Scripts

section Handles

-- Those who did not have the name have the names that they had.
private theorem held_of_nameEngine (hother : other ≠ id)
    (h : Held (s.modifyNames fun n => { n with engines := n.engines.set name id }) other) :
    s.Held other := by
  refine h.imp_left fun hnamed => ?_
  obtain ⟨key, hm⟩ := isNamed_iff.mp hnamed
  rcases List.mem_cons.mp hm with he | hm
  · exact absurd (Prod.mk.inj he).2 hother
  · exact isNamed_iff.mpr ⟨key, (List.mem_filter.mp hm).1⟩

theorem Books.held_nameEngine (h : s.Books) (hlost : s.names.engines.lookup name ≠ some other)
    (hheld : s.Held other) :
    Held (s.modifyNames fun n => { n with engines := n.engines.set name id }) other := by
  refine hheld.imp_left fun hnamed => ?_
  obtain ⟨key, hm⟩ := isNamed_iff.mp hnamed
  have hkey : key ≠ name := fun hk => hlost (Table.lookup_of_mem h.distinct (hk ▸ hm))
  have hkept : (key, other) ∈ s.names.engines.filter (·.1 ≠ name) :=
    List.mem_filter.mpr ⟨hm, by simpa using hkey⟩
  exact isNamed_iff.mpr ⟨key, List.mem_cons_of_mem _ hkept⟩

-- An engine gets a name, and another one may lose it. It may be a new engine that has no name yet.
theorem Books.nameEngine (h : s.Books) (name : String) (hid : (s.engine? id).isSome = true)
    (ho : ∀ other, other ≠ id → ((s.engine? other).isSome = true ↔ s.Held other)) :
    (s.nameEngine name id).Ledger ∧ Settles s (s.nameEngine name id) := by
  let t := s.modifyNames fun n => { n with engines := n.engines.set name id }
  have ht : t.Books :=
    h.alike ⟨rfl, rfl, rfl, rfl, fun _ => rfl⟩ (Table.nodup_set h.distinct name id)
  have hlive : ∀ other, t.Held other → (t.engine? other).isSome = true := by
    intro other hheld
    by_cases hother : other = id
    · rw [hother]
      exact hid
    · exact (ho other hother).mpr (held_of_nameEngine hother hheld)
  have halive : ∀ other, s.names.engines.lookup name ≠ some other →
      ((t.engine? other).isSome = true ↔ t.Held other) := by
    intro other hlost
    refine ⟨fun hsome => ?_, hlive other⟩
    by_cases hother : other = id
    · rw [hother]
      exact Or.inl (isNamed_iff.mpr ⟨name, List.mem_cons_self⟩)
    · exact h.held_nameEngine hlost ((ho other hother).mp hsome)
  unfold Session.nameEngine
  dsimp only
  split
  · rename_i old hold
    refine ⟨ht.ledger_endUnused (fun other hne => ?_) (hlive old),
      (ht.settles_endUnused old).after (Nat.le_refl _) rfl fun _ _ => ⟨rfl, rfl⟩⟩
    exact halive other fun hlost => hne (Option.some.inj (hlost.symm.trans hold))
  · rename_i hold
    exact ⟨⟨ht, fun other => halive other (by simp [hold])⟩,
      .of_same (Nat.le_refl _) (fun _ => rfl) fun _ _ => rfl⟩

theorem Ledger.dropEngine (h : s.Ledger) (name : String) :
    (s.dropEngine name).2.Ledger ∧ Settles s (s.dropEngine name).2 := by
  unfold Session.dropEngine
  split
  · rename_i id hid
    let t := s.modifyNames fun n => { n with engines := n.engines.erase name }
    have ht : t.Books :=
      h.toBooks.alike ⟨rfl, rfl, rfl, rfl, fun _ => rfl⟩ (Table.nodup_erase h.distinct name)
    have hback : ∀ other, t.Held other → s.Held other := fun other hheld =>
      hheld.imp_left fun hnamed => by
        obtain ⟨key, hm⟩ := isNamed_iff.mp hnamed
        exact isNamed_iff.mpr ⟨key, (List.mem_filter.mp hm).1⟩
    have hkept : ∀ other, other ≠ id → s.Held other → t.Held other := fun other hne hheld =>
      hheld.imp_left fun hnamed => by
        obtain ⟨key, hm⟩ := isNamed_iff.mp hnamed
        have hkey : key ≠ name := fun hk => hne <| Option.some.inj <|
          (Table.lookup_of_mem h.distinct (hk ▸ hm)).symm.trans hid
        exact isNamed_iff.mpr ⟨key, List.mem_filter.mpr ⟨hm, by simpa using hkey⟩⟩
    have hlive : t.Held id → (t.engine? id).isSome = true := fun hheld =>
      (h.alive id).mpr (hback id hheld)
    refine ⟨ht.ledger_endUnused (fun other hne => ?_) hlive,
      (ht.settles_endUnused id).after (Nat.le_refl _) rfl fun _ _ => ⟨rfl, rfl⟩⟩
    exact ⟨fun hsome => hkept other hne ((h.alive other).mp hsome),
      fun hheld => (h.alive other).mpr (hback other hheld)⟩
  · exact ⟨h, .refl s⟩

theorem Ledger.working (h : s.Ledger) (hid : (s.engine? id).isSome = true) :
    Ledger { s with busy := id :: s.busy } where
  toBooks := h.toBooks.alike ⟨rfl, rfl, rfl, rfl, fun _ => rfl⟩ h.distinct
  alive other := by
    refine (h.alive other).trans ⟨fun hheld => hheld.imp_right (List.mem_cons_of_mem id), ?_⟩
    rintro (hnamed | hbusy)
    · exact Or.inl hnamed
    · rcases List.mem_cons.mp hbusy with rfl | hbusy
      · exact (h.alive other).mp hid
      · exact Or.inr hbusy

theorem Ledger.done (h : s.Ledger) (id : EngineId) :
    (endUnused id { s with busy := s.busy.erase id }).Ledger ∧
      Settles s (endUnused id { s with busy := s.busy.erase id }) := by
  have ht : Books { s with busy := s.busy.erase id } :=
    h.toBooks.alike ⟨rfl, rfl, rfl, rfl, fun _ => rfl⟩ h.distinct
  refine ⟨ht.ledger_endUnused (fun other hne => ?_) fun hheld => ?_,
    (ht.settles_endUnused id).after (Nat.le_refl _) rfl fun _ _ => ⟨rfl, rfl⟩⟩
  · exact (h.alive other).trans (or_congr Iff.rfl (List.mem_erase_of_ne hne).symm)
  · exact (h.alive id).mpr (hheld.imp_right List.mem_of_mem_erase)

-- Nobody has registered for an engine that is not there yet.
theorem Books.registrations_unborn (h : s.Books) (hid : s.nextEngine ≤ id) :
    s.registrations id = [] := by
  refine List.eq_nil_iff_forall_not_mem.mpr fun r hr => ?_
  have hlt := (h.known r.id _ (mem_registrations.mp hr).2).2 id rfl
  exact Nat.not_le_of_lt hlt hid

theorem Ledger.createEngine (h : s.Ledger) (name : String) (hobs : e.observer = none) :
    ((s.addEngine e).2.nameEngine name s.nextEngine).Ledger ∧
      Settles s ((s.addEngine e).2.nameEngine name s.nextEngine) := by
  have hlook := engine?_addEngine e s
  have hadded : (s.addEngine e).2.Books := by
    refine ⟨h.numbered, fun o l hl => ⟨(h.known o l hl).1, fun id hid => ?_⟩, h.scripts,
      fun id e' he => ?_, fun id e' he => ?_, h.once, h.distinct⟩
    · exact Nat.lt_succ_of_lt ((h.known o l hl).2 id hid)
    · rw [hlook] at he
      split at he
      · rename_i hid
        exact hid ▸ Nat.lt_succ_self _
      · exact Nat.lt_succ_of_lt (h.born id e' he)
    · rw [hlook] at he
      split at he
      · rename_i hid
        rw [← Option.some.inj he, Engine.registration_none hobs]
        exact h.registrations_unborn (Nat.le_of_eq hid.symm)
      · exact h.registered id e' he
  have hnew : ((s.addEngine e).2.engine? s.nextEngine).isSome = true := by
    rw [hlook, if_pos rfl]
    rfl
  obtain ⟨hledger, hsettles⟩ := hadded.nameEngine name hnew fun other hne => by
    rw [hlook, if_neg hne]
    exact h.alive other
  refine ⟨hledger, hsettles.after (Nat.le_succ _) rfl fun other hlt => ⟨?_, rfl⟩⟩
  rw [hlook, if_neg (Nat.ne_of_lt hlt)]

end Handles

-- Every deed keeps the ledger in order.
theorem Deed.ledger_settles (hd : Deed s s') (h : s.Ledger) : s'.Ledger ∧ Settles s s' := by
  cases hd with
  | aside ha hn hb =>
      exact ⟨h.alike ha hn hb, .of_same (Nat.le_of_eq ha.nextEngine.symm) ha.isSome
        fun id _ => ha.registrations id⟩
  | watched id => exact h.watch id
  | unwatched id => exact h.unwatch id
  | observed target name reaction => exact h.observe target name reaction
  | disconnected name => exact h.disconnectNamed name
  | working id hid =>
      exact ⟨h.working hid, .of_same (Nat.le_refl _) (fun _ => rfl) fun _ _ => rfl⟩
  | done id => exact h.done id
  | named name id hid => exact h.toBooks.nameEngine name hid fun other _ => h.alive other
  | dropped name => exact h.dropEngine name
  | created name e hobs => exact h.createEngine name hobs

end PageLocalizer.Session
