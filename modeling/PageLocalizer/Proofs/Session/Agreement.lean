import PageLocalizer.Proofs.Session.Feedback
import PageLocalizer.Proofs.Session.Onward

-- The places that a locale is kept in agree from one setting of a locale to the next.
namespace PageLocalizer

-- Whoever is told of a change leaves some places be.
def Telling.Heeds (play : Play) (ok : Session.Place → Prop) (t : Telling) : Prop :=
  Session.Onward ok t.session (t.after play)

namespace Session

open Document

-- What the document element shows, in both of its places.
def marks (s : Session) : List (Option String) :=
  Engine.shown.map (s.document.attribute? html)

-- All that is asked about the locale of an engine has the same answer.
structure Agreement (s : Session) (e : Engine) (l : Locale) : Prop where
  detected : s.detectFor e = l
  stored : (s.storeOf e).get e.settings.storageKey = .ok (some l.tag)
  tag : s.document.attribute? html e.settings.localeAttribute = some l.tag
  lang : s.document.attribute? html "lang" = some l.languageTag
  -- Also while somebody has the page.
  locale : ∀ a, localeOf { s with access := a } e = l

-- The same, but the page shows what it showed at another time, and goes before what was set.
structure Deferral (page : Document) (s : Session) (e : Engine) (l : Locale) : Prop where
  detected : s.detectFor e = l
  stored : (s.storeOf e).get e.settings.storageKey = .ok (some l.tag)
  shown : ∀ name ∈ Engine.shown, s.document.attribute? html name = page.attribute? html name
  locale : ∀ a, localeOf { s with access := a } e = if a = .exclusive then l else
    ((page.attribute? html e.settings.localeAttribute).map Locale.ofTag).getD l

variable {s s' : Session} {play : Play} {ok : Place → Prop} {id : EngineId} {e : Engine}
  {l : Locale} {store : StoreId} {expected : List (Option String)} {c : Change}

section Told

-- Where all those who are told of something leave some places be, so does the telling.
theorem onward_tellEach {observers : List ObserverId}
    (h : ∀ t ∈ tellEach play c observers s, t.Heeds play ok) :
    Onward ok s (observers.foldl (hear play c) s) := by
  induction observers generalizing s with
  | nil => exact .refl
  | cons o rest ih =>
      have hfirst : Onward ok s (s.hear play c o) := h ⟨c, o, s⟩ List.mem_cons_self
      exact hfirst.trans (ih fun t ht => h t (List.mem_cons_of_mem _ ht))

theorem onward_deliver {changes : List Change}
    (h : ∀ t ∈ tellings play changes s, t.Heeds play ok) :
    Onward ok s (deliver play changes s) := by
  induction changes generalizing s with
  | nil => exact .refl
  | cons c rest ih =>
      have hfirst := onward_tellEach fun t ht => h t (List.mem_append_left _ ht)
      exact hfirst.trans (ih fun t ht => h t (List.mem_append_right _ ht))

-- From the page as it is right after an edit, the session goes on to the end of the write.
theorem onward_guardedWrite {edit : Edit Unit} (hfree : s.access = .free)
    (he : s.engine? id = some e) (h : ∀ t ∈ guardedTellings play id edit s, t.Heeds play ok) :
    Onward ok { s with document := (edit s.document).document } (s.guardedWrite play id edit) := by
  unfold guardedTellings at h
  unfold guardedWrite
  rw [isFree_iff.mpr hfree, he] at h ⊢
  let raised := s.modifyEngine id ({ · with guard := e.guard.acquire.2 })
  let begun : Session :=
    { raised with document := (edit s.document).document, access := .exclusive }
  have hguard : ∀ (guard : Guard) (s : Session),
      Move ok s (s.modifyEngine id ({ · with guard })) :=
    fun guard _ => .tuned id ({ · with guard }) fun _ => ⟨rfl, rfl, rfl⟩
  have hbegun : Onward ok { s with document := (edit s.document).document } begun :=
    .tail (.single (hguard _ _)) (.apart rfl)
  let told := deliver play (edit s.document).changes begun
  have htold : Onward ok begun told := onward_deliver h
  have hdone : Move ok told { told with access := .free } := .apart rfl
  exact ((hbegun.trans htold).tail hdone).tail (hguard _ _)

theorem onward_applyTo {root : Option NodeId} {locale : Option Locale}
    (h : ∀ t ∈ EngineCall.applyTellings play id root locale s,
      t.Heeds play (Place.Other id store)) :
    Onward (Place.Other id store) s (s.applyTo play id root locale) := by
  unfold EngineCall.applyTellings at h
  unfold applyTo
  cases he : s.engine? id with
  | none => exact .refl
  | some e =>
      rw [he] at h
      dsimp only at h ⊢
      by_cases hfree : s.access = .free
      · have htargets : ∀ name ∈ Translation.targets, name ∉ Engine.shown := by decide
        exact .head (.passed e.catalog _ _ htargets) (onward_guardedWrite hfree he h)
      · rw [guardedWrite_of_held hfree]

-- Where no script sets a locale, nobody who is told of the writes of a call sets one.
private theorem heeds_of_hushed (depth : Nat) (hs : s.Sound) (hh : s.Hushed False)
    {call : EngineCall} {t : Telling} (ht : t ∈ call.tellings (Session.play depth) id s) :
    t.Heeds (Session.play depth) (Place.Other id store) := by
  have hwide : Quietly False True id store (Session.play depth) :=
    quietly_play False.elim id store depth
  have hcall : Proceeds False True id store s t.session :=
    (strides_proceeds False.elim hwide).callTellings trivial ht
  obtain ⟨hh', ho⟩ := hcall hs hh
  have hnarrow : Quietly False False id store (Session.play depth) :=
    quietly_play False.elim id store depth
  have htold : Proceeds False False id store t.session (t.after (Session.play depth)) :=
    (strides_proceeds False.elim hnarrow).hear t.change t.observer t.session
  exact (htold.quiet (Onward.sound ho hs).1 hh').2

end Told

-- All but the store keeps this locale, and the page shows what is expected.
structure Poised (id : EngineId) (store : StoreId) (l : Locale)
    (expected : List (Option String)) (s : Session) : Prop where
  sound : s.Sound
  numbered : id < s.nextEngine
  stocked : store < s.stores.length
  engine : ∀ e, s.engine? id = some e →
    e.settings = .standard ∧ e.store = store ∧ e.applied = some l
  dependable : (s.storeAt store).Dependable
  marks : s.marks = expected

structure Settled (id : EngineId) (store : StoreId) (l : Locale)
    (expected : List (Option String)) (s : Session) : Prop
    extends s.Poised id store l expected where
  stored : (s.storeAt store).get EngineSettings.standard.storageKey = .ok (some l.tag)

section Settled

-- It stays so for as long as none of the places are written.
theorem Poised.onward (h : s.Poised id store l expected)
    (ho : Onward (Place.Other id store) s s') : s'.Poised id store l expected := by
  obtain ⟨hsound, hle⟩ := Onward.sound ho h.sound
  have hkept := Onward.kept ho h.sound
  refine ⟨hsound, ?_, ?_, fun e' he => ?_, ?_, ?_⟩
  · exact Nat.lt_of_lt_of_le h.numbered hkept.nextEngine
  · exact Nat.lt_of_lt_of_le h.stocked hle
  · obtain ⟨e, hold, hset, hstore, happ⟩ := hkept.engine h.numbered e' he
    obtain ⟨hset', hstore', happ'⟩ := h.engine e hold
    exact ⟨hset.trans hset', hstore.trans hstore', happ.trans happ'⟩
  · exact (hkept.storeAt h.stocked h.dependable).1
  · calc s'.marks = s.marks := List.map_congr_left hkept.attribute?
      _ = expected := h.marks

theorem Settled.onward (h : s.Settled id store l expected)
    (ho : Onward (Place.Other id store) s s') : s'.Settled id store l expected := by
  have hkept := (Onward.kept ho h.sound).storeAt h.stocked h.dependable
  exact ⟨h.toPoised.onward ho, hkept.2.trans h.stored⟩

-- The store comes last.
theorem Poised.settled (h : s.Poised id store l expected) :
    Settled id store l expected
      (s.setPreference store EngineSettings.standard.storageKey l.tag).2 := by
  obtain ⟨kept, hput, hdep, hget, -⟩ := h.dependable.set EngineSettings.standard.storageKey l.tag
  have hstill := still_setPreference store EngineSettings.standard.storageKey l.tag s
  obtain ⟨hsound, hlen⟩ := h.sound.preferred h.stocked EngineSettings.standard.storageKey l.tag
  refine ⟨⟨hsound, ?_, ?_, fun e he => ?_, ?_, ?_⟩, ?_⟩
  · exact hstill.1.nextEngine ▸ h.numbered
  · exact hlen ▸ h.stocked
  · rw [hstill.1.engine?] at he
    exact h.engine e he
  · rw [storeAt_setPreference hput]
    exact hdep
  · rw [Session.marks, hstill.2]
    exact h.marks
  · rw [storeAt_setPreference hput]
    exact hget

theorem Settled.detected (h : s.Settled id store l expected) (he : s.engine? id = some e) :
    s.detectFor e = l := by
  obtain ⟨hset, hstore, -⟩ := h.engine e he
  apply Store.detect_of_get
  rw [hset]
  unfold storeOf
  rw [hstore]
  exact h.stored

theorem Settled.preference (h : s.Settled id store l expected) (he : s.engine? id = some e) :
    (s.storeOf e).get e.settings.storageKey = .ok (some l.tag) := by
  obtain ⟨hset, hstore, -⟩ := h.engine e he
  unfold storeOf
  rw [hset, hstore]
  exact h.stored

-- An engine believes the page before it believes itself.
theorem Settled.localeOf (h : s.Settled id store l expected) (he : s.engine? id = some e)
    (a : Access) : Session.localeOf { s with access := a } e = if a = .exclusive then l else
      ((s.document.attribute? html e.settings.localeAttribute).map Locale.ofTag).getD l := by
  obtain ⟨-, -, happ⟩ := h.engine e he
  unfold Session.localeOf Engine.locale readable
  by_cases ha : a = .exclusive
  · simp [ha, happ]
  · rw [if_neg ha, if_neg ha, Option.bind_some]
    cases s.document.attribute? html e.settings.localeAttribute with
    | none => simp [happ]
    | some tag => rfl

theorem Settled.agreement (h : s.Settled id store l [some l.tag, some l.languageTag])
    (he : s.engine? id = some e) : s.Agreement e l := by
  obtain ⟨hset, -, -⟩ := h.engine e he
  obtain ⟨htag, hlang⟩ : s.document.attribute? html EngineSettings.standard.localeAttribute =
      some l.tag ∧ s.document.attribute? html "lang" = some l.languageTag := by
    have hmarks := h.marks
    simpa [Session.marks, Engine.shown] using hmarks
  rw [← hset] at htag
  refine ⟨h.detected he, h.preference he, htag, hlang, fun a => ?_⟩
  have hself : Locale.ofTag l.tag = l := by cases l <;> rfl
  rw [h.localeOf he, htag]
  simp [hself]

theorem Settled.deferral {before : Session} (h : s.Settled id store l before.marks)
    (he : s.engine? id = some e) : Deferral before.document s e l := by
  obtain ⟨hset, -, -⟩ := h.engine e he
  have hshown := List.map_inj_left.mp h.marks
  refine ⟨h.detected he, h.preference he, hshown, fun a => ?_⟩
  rw [h.localeOf he, hset, hshown _ (by decide)]

end Settled

section Call

-- What the document element shows after a switch. A page that is in use is left out.
def expectedMarks (s : Session) (l : Locale) : List (Option String) :=
  if s.access = .free then [some l.tag, some l.languageTag] else s.marks

-- An engine with the standard settings, whose store can be relied on.
variable (hs : s.Sound) (he : s.engine? id = some e) (hset : e.settings = .standard)
  (hstore : (s.storeAt e.store).Dependable)

include hs he hset hstore

private theorem poised_applied (l : Locale) :
    Poised id e.store l s.marks (s.modifyEngine id ({ · with applied := some l })) := by
  obtain ⟨hid, hlt⟩ := hs.numbered id e he
  have hsound := hs.modifyEngine (f := ({ · with applied := some l })) (fun _ => rfl) id
  refine ⟨hsound, hid, hlt, fun e' he' => ?_, hstore, rfl⟩
  rw [engine?_modifyEngine, if_pos rfl, he, Option.map_some, Option.some.injEq] at he'
  subst he'
  exact ⟨hset, rfl, rfl⟩

private theorem poised_mark {l : Locale}
    (htold : ∀ t ∈ guardedTellings play id (e.mark l)
      (s.modifyEngine id ({ · with applied := some l })), t.Heeds play (Place.Other id e.store)) :
    Poised id e.store l (s.expectedMarks l)
      ((s.modifyEngine id ({ · with applied := some l })).guardedWrite play id (e.mark l)) := by
  have happlied := poised_applied hs he hset hstore l
  let applied := s.modifyEngine id ({ · with applied := some l })
  unfold expectedMarks
  split
  · rename_i hfree
    have he' : applied.engine? id = some { e with applied := some l } := by
      rw [engine?_modifyEngine, if_pos rfl, he]
      rfl
    have hkeeps : Keeps html (fun _ => True) s.document (e.mark l s.document).document :=
      Engine.keeping_mark e l s.document hs.anchored
    obtain ⟨htag, hlang⟩ := Engine.attribute?_mark hset hs.anchored hs.element l
    have hmarked : Poised id e.store l [some l.tag, some l.languageTag]
        { applied with document := (e.mark l s.document).document } :=
      { happlied with
        sound := happlied.sound.page hkeeps
        marks := by simp [Session.marks, Engine.shown, htag, hlang] }
    exact hmarked.onward (onward_guardedWrite (s := applied) hfree he' htold)
  · rename_i hheld
    rw [guardedWrite_of_held (s := applied) hheld]
    exact happlied

-- A switch leaves the locale everywhere, apart from a page that is in use.
theorem settled_switchTo {l : Locale}
    (htold : ∀ t ∈ EngineCall.switchTellings play id l s,
      t.Heeds play (Place.Other id e.store)) :
    (s.switchTo play id l).Settled id e.store l (s.expectedMarks l) := by
  unfold EngineCall.switchTellings at htold
  rw [he] at htold
  have hpoised := poised_mark hs he hset hstore fun t ht => htold t (List.mem_append_left _ ht)
  have hsettled := hpoised.settled
  have happly := onward_applyTo fun t ht => htold t (List.mem_append_right _ ht)
  rw [switchTo_eq he]
  rw [hset] at happly ⊢
  exact hsettled.onward happly

-- A call of `setLocale` gives a locale, and leaves it everywhere.
theorem settled_performEngine {name : String} (hname : s.names.engines.lookup name = some id)
    {input : Option String}
    (htold : ∀ t ∈ EngineCall.tellings play id (.setLocale input) (s.working id),
      t.Heeds play (Place.Other id e.store)) :
    ∃ l, (s.performEngine play name (.setLocale input)).1 = .locale l ∧
      (s.performEngine play name (.setLocale input)).2.Settled id e.store l
        (s.expectedMarks l) := by
  have hperform : s.performEngine play name (.setLocale input) =
      s.employ id (performOn play id e (.setLocale input)) := by
    unfold performEngine
    simp only [hname, he]
  have hworking : (s.working id).Sound := hs.apart rfl
  let l := ((s.working id).setLocale play id input).1
  have hswitched : ((s.working id).switchTo play id l).Settled id e.store l (s.expectedMarks l) :=
    settled_switchTo hworking he hset hstore htold
  let switched := (s.working id).switchTo play id l
  let idle : Session := { switched with busy := switched.busy.erase id }
  have hidle : idle.Settled id e.store l (s.expectedMarks l) :=
    hswitched.onward (.single (.apart rfl))
  have hended : Proceeds True False id e.store idle (idle.endUnused id) :=
    proceeds_endUnused id idle
  rw [hperform]
  exact ⟨l, rfl, hidle.onward (hended.quiet hidle.sound (hushed_true idle)).2⟩

end Call

-- Whatever went on before, a call of `setLocale` gives a locale. If nobody who is told of its
-- writes sets the locale of the engine, then until that is set again the engine, its store and the
-- page agree on what the call gave. A call that finds the page in use leaves the page out.
--
-- Any script leads on from here, and so do the calls and the edits that observers are told of while
-- they are made. Where no script sets a locale, none of that sets one.
theorem agreement_until_next_setting (hs : Onward (fun _ => True) .initial s) (depth : Nat) :
    ((∀ steps, Onward (fun _ => True) s (Session.play depth steps s).2) ∧
      (∀ id call, ∀ t ∈ EngineCall.tellings (Session.play depth) id call s,
        Onward (fun _ => True) s t.session) ∧
      (∀ e edit, PageEdit.plan s.names.nodes e = some edit →
        ∀ t ∈ writeTellings (Session.play depth) edit s, Onward (fun _ => True) s t.session)) ∧
    (s.Hushed False → ∀ id store,
      (∀ steps, scriptSets steps = false → (Session.play depth steps s).2.Hushed False ∧
        Onward (Place.Other id store) s (Session.play depth steps s).2) ∧
      (∀ call, ∀ t ∈ EngineCall.tellings (Session.play depth) id call (s.working id),
        t.Heeds (Session.play depth) (Place.Other id store))) ∧
    ∀ name id e input, s.names.engines.lookup name = some id → s.engine? id = some e →
      e.settings = .standard → (s.storeOf e).Dependable →
      (∀ t ∈ EngineCall.tellings (Session.play depth) id (.setLocale input) (s.working id),
        t.Heeds (Session.play depth) (Place.Other id e.store)) →
      let called := s.performEngine (Session.play depth) name (.setLocale input)
      ∃ l, called.1 = .locale l ∧ ∀ t, Onward (Place.Other id e.store) called.2 t →
        ∀ e', t.engine? id = some e' → (s.access = .free → t.Agreement e' l) ∧
          (s.access ≠ .free → Deferral s.document t e' l) := by
  have hsound := (Onward.sound hs sound_initial).1
  have hplay : Quietly True True 0 0 (Session.play depth) := quietly_play (fun h => h) 0 0 depth
  have hstrides := strides_proceeds (fun h => h) hplay
  refine ⟨⟨fun steps => ?_, fun id call t ht => ?_, fun e edit hplan t ht => ?_⟩,
    fun hhushed id store => ⟨fun steps hsteps => ?_, fun call t ht => ?_⟩,
    fun name id e input hname he hset hstore htold => ?_⟩
  · exact (hplay steps (fun _ => trivial) s).onward hsound
  · exact (hstrides.callTellings trivial ht).onward hsound
  · exact (hstrides.writeTellings (hstrides.planned (fun _ => trivial) hplan) ht).onward hsound
  · have hquiet : Proceeds False False id store s (Session.play depth steps s).2 :=
      quietly_play False.elim id store depth steps (by simp [hsteps]) s
    exact hquiet.quiet hsound hhushed
  · have hworking : (s.working id).Sound := hsound.apart rfl
    exact heeds_of_hushed depth hworking ⟨hhushed.listeners, hhushed.jobs⟩ ht
  · obtain ⟨l, hl, hcalled⟩ := settled_performEngine hsound he hset hstore hname htold
    refine ⟨l, hl, fun t ht e' he' => ⟨fun hfree => ?_, fun hheld => ?_⟩⟩
    all_goals
      have hsettled := hcalled.onward ht
      unfold expectedMarks at hsettled
    · rw [if_pos hfree] at hsettled
      exact hsettled.agreement he'
    · rw [if_neg hheld] at hsettled
      exact hsettled.deferral he'

-- An engine with preferences, where a script that hears of changes writes a preference of its own.
-- The engine has been told to go to another locale while somebody else wrote to the page.
def visited : List Step :=
  let setup : EngineSetup :=
    { surroundings := none, store := some "preferences", settings := .standard, sources := some [] }
  [.store (.create "preferences" (.memory [("theme", "dark")])), .createEngine "engine" setup,
    .observe "$root" "visitor" (some [.store (.set "preferences" "seen" "yes")]),
    .engine "engine" .start, .hold true [.engine "engine" (.setLocale "zh")]]

-- A paragraph comes in, and the theme changes. Somebody holds the page during a frame.
def afterwards : List Step :=
  [.edit (.create "p" (some "paragraph")), .edit (.append "$body" "paragraph"),
    .store (.set "preferences" "theme" "light"),
    .requestFrame "callback" [.store (.set "preferences" "seen" "twice")],
    .hold true [.runFrame], .runFrame]

theorem agreement_after_visit :
    let s := (Session.play 3 visited initial).2
    let t := (Session.play 3 afterwards
      (s.performEngine (Session.play 3) "engine" (.setLocale "zh-TW")).2).2
    (s.engine? 0).map s.localeOf = some .en ∧ (t.storeAt 0).get "seen" = .ok (some "twice") ∧
      ∃ e, t.engine? 0 = some e ∧ t.Agreement e .zh := by
  intro s t
  have hplay : Quietly True True 0 0 (Session.play 3) := quietly_play (fun h => h) 0 0 3
  have hs : Onward (fun _ => True) .initial s :=
    (hplay visited (fun _ => trivial) .initial).onward sound_initial
  obtain ⟨-, hquiet, hcall⟩ := agreement_until_next_setting hs 3
  have hhushed : s.Hushed False := by decide +kernel
  have hengine : (s.engine? 0).map (fun e => (e.settings, e.store)) = some (.standard, 0) := by
    decide +kernel
  obtain ⟨e, he, hmade⟩ := Option.map_eq_some_iff.mp hengine
  obtain ⟨hset, hid⟩ := Prod.mk.inj hmade
  have hstore : (s.storeOf e).Dependable := by
    have hkept : s.storeAt 0 = .memory
        [("dashboard-locale", "zh"), ("seen", "yes"), ("theme", "dark")] := by decide +kernel
    unfold storeOf
    rw [hid, hkept]
    exact Store.dependable_memory _
  let called := (s.performEngine (Session.play 3) "engine" (.setLocale "zh-TW")).2
  have hname : s.names.engines.lookup "engine" = some 0 := by decide +kernel
  have htold := (hquiet hhushed 0 e.store).2 (.setLocale "zh-TW")
  obtain ⟨l, -, hagree⟩ := hcall "engine" 0 e "zh-TW" hname he hset hstore htold
  have hcalled : Onward (fun _ => True) .initial called := by
    have hproceeds : Proceeds True True 0 0 s called :=
      (strides_proceeds (fun h => h) hplay).performEngine "engine" (fun _ => trivial) s
    exact hs.trans (hproceeds.onward (Onward.sound hs sound_initial).1)
  have hhushed' : called.Hushed False := by decide +kernel
  have hafter : Onward (Place.Other 0 e.store) called t :=
    (((agreement_until_next_setting hcalled 3).2.1 hhushed' 0 e.store).1 afterwards rfl).2
  have hlive : (t.engine? 0).isSome := by decide +kernel
  obtain ⟨e', he'⟩ := Option.isSome_iff_exists.mp hlive
  have hagree := (hagree t hafter e' he').1 rfl
  have hlang : t.document.attribute? html "lang" = some "zh-CN" := by decide +kernel
  have hl : l = .zh := by
    have htag := hagree.lang.symm.trans hlang
    cases l <;> simp [Locale.languageTag] at htag ⊢
  exact ⟨by decide +kernel, by decide +kernel, e', he', hl ▸ hagree⟩

-- The page keeps the old locale after a call that found it in use, and is believed. Somebody else
-- can write the language of the page, a store that takes the locale may not give it back, and one
-- who is told of the writes of a call can have the engine go elsewhere meanwhile.
theorem disagreement :
    let create (store : Option String) : Step := .createEngine "engine"
      { surroundings := none, store, settings := .standard, sources := some [] }
    let call (tag : String) : Step := .engine "engine" (.setLocale tag)
    let paragraph : Step :=
      .edit (.build (some "$body") (.element "p" [("data-i18n-lang", "")] [] none))
    let run := fun steps => (Session.play 3 steps initial).2
    let begun := run [create none, call "en"]
    let busy := run [create none, call "en", .hold true [call "zh"]]
    let edited := run [create none, call "zh", .edit (.setAttribute "$html" "lang" "fr")]
    let unread := run [.store (.create "mute" (.failing [] true false)), create "mute", call "zh"]
    let swayed := run [create none, paragraph, .observe "$body" "observer" (some [call "zh"]),
      call "en"]
    (performEngine (Session.play 3) "engine" (.setLocale "zh")
        { begun with access := .exclusive }).1 = .locale .zh ∧
      (busy.engine? 0).map (fun e => (busy.localeOf e, busy.detectFor e)) = some (.en, .zh) ∧
      busy.marks = [some "en", some "en"] ∧ edited.marks = [some "zh", some "fr"] ∧
      (unread.engine? 0).map (fun e => (unread.localeOf e, unread.detectFor e)) =
        some (.zh, .en) ∧
      (swayed.engine? 0).map (fun e => (swayed.localeOf e, swayed.detectFor e)) =
        some (.en, .zh) :=
  ⟨rfl, by decide +kernel⟩

end Session
end PageLocalizer
