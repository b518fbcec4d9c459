import PageLocalizer.CommandLine
import PageLocalizer.Proofs.Catalog.Standard
import PageLocalizer.Proofs.Session.Upkept

-- Work on a session that succeeds, and what becomes of the page and the preferences meanwhile: from
-- the first element of the layout to the last frame.
namespace PageLocalizer.CommandLine

open Document Dashboard Edit Session

section Work

variable {α β : Type} {w : Work α} {f : α → Work β} {P R : Session → Prop}
  {Q : α → Session → Prop} {T : β → Session → Prop}

-- Work that is begun in a session with `P` succeeds, and leaves one with `Q`.
def Achieves (P : Session → Prop) (w : Work α) (Q : α → Session → Prop) : Prop :=
  ∀ s, P s → ∃ a s', w.run s = (.ok a, s') ∧ Q a s'

theorem achieves_pure {a : α} (h : ∀ s, P s → Q a s) : Achieves P (pure a) Q :=
  fun s hs => ⟨a, s, rfl, h s hs⟩

theorem Achieves.bind (h : Achieves P w Q) (hf : ∀ a, Achieves (Q a) (f a) T) :
    Achieves P (w >>= f) T := by
  intro s hs
  obtain ⟨a, s', hw, hq⟩ := h s hs
  obtain ⟨b, s'', hrest, ht⟩ := hf a s' hq
  refine ⟨b, s'', ?_, ht⟩
  show ExceptT.bindCont f (w.run s).1 (w.run s).2 = (.ok b, s'')
  rw [hw]
  exact hrest

theorem Achieves.mono (h : Achieves P w Q) (hp : ∀ s, R s → P s) : Achieves R w Q :=
  fun s hs => h s (hp s hs)

theorem achieves_act {f : Session → α × Session} (h : ∀ s, P s → Q (f s).1 (f s).2) :
    Achieves P (act f) Q := fun s hs => ⟨(f s).1, (f s).2, rfl, h s hs⟩

theorem achieves_change {f : Session → Session} (h : ∀ s, P s → R (f s)) :
    Achieves P (change f) fun _ => R := achieves_act h

theorem achieves_get : Achieves P get fun _ => P := fun s hs => ⟨s, s, rfl, hs⟩

end Work

section Steps

variable {α : Type} {page : Document → Prop} {store : StoreId} {kept kept' : Store → Prop}
  {lang : Option String} {way : List NodeId} {id : EngineId} {l : Locale} {n : NodeId}

theorem inert_silent : Inert silent := fun _ _ => rfl

theorem achieves_edit {e : Edit α} {page' : α → Document → Prop}
    (h : ∀ d, page d → ∃ a d', Gives e d a d' ∧ page' a d') :
    Achieves (Upkept page store kept) (edit e) fun a => Upkept (page' a) store kept := by
  intro s hs
  obtain ⟨a, d', ⟨hresult, rfl⟩, hpage⟩ := h s.document hs.page
  have hwrite : s.write silent e = (.ok a, (s.write silent e).2) := Prod.ext hresult rfl
  refine ⟨a, (s.write silent e).2, ?_, hs.write inert_silent hpage⟩
  show edit e s = _
  unfold edit
  rw [hwrite]

-- An edit whose answer is known.
theorem Achieves.given {β : Type} {e : Edit α} {a : α} {d d' : Document} {f : α → Work β}
    {T : β → Session → Prop} (he : Gives e d a d')
    (hf : Achieves (Upkept (· = d') store kept) (f a) T) :
    Achieves (Upkept (· = d) store kept) (edit e >>= f) T := by
  have hedit : Achieves (Upkept (· = d) store kept) (edit e) fun b =>
      Upkept (fun d'' => b = a ∧ d'' = d') store kept := by
    refine achieves_edit ?_
    rintro _ rfl
    exact ⟨a, d', he, rfl, rfl⟩
  refine hedit.bind fun b s hs => ?_
  obtain rfl : b = a := hs.page.1
  exact hf s ⟨hs.free, hs.page.2, hs.kept⟩

-- The catalog is there. `hire` is opened as a function, because with its arguments the check of the
-- proof would read the whole catalog.
private theorem hire_eq : ∃ catalog, hire = fun surroundings settings store =>
    act (Session.addEngine (.create catalog surroundings settings store)) := by
  obtain ⟨catalog, hload⟩ : ∃ catalog, Catalog.load none = .ok catalog := ⟨_, Catalog.standard_eq⟩
  refine ⟨catalog, ?_⟩
  delta hire
  rw [hload]

-- An engine takes up work with these settings.
def Hired (surroundings : Option String) (settings : EngineSettings) (store : StoreId)
    (id : EngineId) (s : Session) : Prop :=
  ∃ catalog, s.engine? id = some (.create catalog surroundings settings store)

theorem achieves_hire (surroundings : Option String) (settings : EngineSettings) :
    Achieves (Upkept page store kept) (hire surroundings settings store) fun id s =>
      Upkept page store kept s ∧ Hired surroundings settings store id s := by
  obtain ⟨catalog, hhire⟩ := hire_eq
  rw [hhire]
  refine achieves_act fun s hs => ⟨⟨hs.free, hs.page, hs.kept⟩, catalog, ?_⟩
  exact (engine?_addEngine _ s _).trans (if_pos rfl)

-- The locale to go to: the one that is forced, or the one to start with.
def destination (stored : Store) (surroundings : Option String) (key : String)
    (forced : Option String) : Locale :=
  match forced with
  | some tag => Locale.ofTag tag
  | none => Locale.detect stored surroundings key

theorem achieves_settle {surroundings : Option String} {settings : EngineSettings} {stored : Store}
    (forced : Option String) (hl : destination stored surroundings settings.storageKey forced = l)
    (hset : ∃ stored', stored.set settings.storageKey l.tag = .ok stored' ∧ kept' stored') :
    Achieves (fun s => Upkept (Upright lang way) store (· = stored) s ∧
        Hired surroundings settings store id s)
      (settle id settings forced) fun _ =>
        Upkept (Upright (some l.languageTag) way) store kept' := by
  have hswitch : ∀ s, Upkept (Upright lang way) store (· = stored) s →
      Hired surroundings settings store id s →
        Upkept (Upright (some l.languageTag) way) store kept' (s.switchTo silent id l) := by
    rintro s hs ⟨catalog, he⟩
    refine hs.switchTo inert_silent he rfl l ?_
    rintro _ rfl
    exact hset
  cases forced with
  | some tag =>
      have hforced : Locale.ofTag tag = l := hl
      subst hforced
      refine Achieves.bind (achieves_act (Q := fun _ => Upkept (Upright
        (some (Locale.ofTag tag).languageTag) way) store kept') fun s hs =>
          hswitch s hs.1 hs.2) fun _ => ?_
      split
      · exact achieves_change fun s hs => hs.watch id
      · exact achieves_pure fun _ hs => hs
  | none =>
      refine Achieves.bind (achieves_act fun s hs => ?_) fun _ => achieves_pure fun _ hs => hs
      have hlocale : s.setLocale silent id none = (l, s.switchTo silent id l) := by
        obtain ⟨catalog, he⟩ := hs.2
        have hdetect : s.detectFor (.create catalog surroundings settings store) = l := by
          rw [← hl, ← hs.1.kept]
          rfl
        simp [setLocale, he, hdetect]
      have hdone := hswitch s hs.1 hs.2
      unfold start
      rw [hlocale]
      dsimp only
      split
      · dsimp only
        split
        · exact hdone.watch id
        · exact hdone
      · exact hdone

theorem achieves_keepRelease (tag : String) (now : Instant)
    (hset : ∀ stored, kept stored → ∀ value,
      ∃ stored', stored.set UpdateCheck.standard.key value = .ok stored' ∧ kept stored') :
    Achieves (Upkept page store kept) (keepRelease store tag now) fun _ =>
      Upkept page store kept := by
  intro s hs
  let r : UpdateRecord := ⟨UpdateCheck.versionOf tag, now.seconds⟩
  obtain ⟨stored', hput, hkept⟩ := hset _ hs.kept r.text
  have hrecord : UpdateCheck.standard.recordRelease (s.storeAt store) tag now =
      .ok (r, stored') := by
    unfold UpdateCheck.recordRelease
    dsimp only
    rw [hput]
    rfl
  refine ⟨(), { s with stores := s.stores.set store stored' }, ?_, hs.free, hs.page, ?_⟩
  · show keepRelease store tag now s = _
    unfold keepRelease
    rw [hrecord]
  · show kept (((s.stores.set store stored').lookup store).getD _)
    rw [Table.lookup_set_self]
    exact hkept

-- An attribute that does not tell the language, and asks for no text on the way.
theorem achieves_setAttribute {name : String} (hname : name ≠ "lang")
    (hn : n ∈ way → ∀ D : Directive, D.target = .textContent → D.marker ≠ name) (value : String) :
    Achieves (Upkept (Upright lang way) store kept) (edit (Document.setAttribute n name value))
      fun _ => Upkept (Upright lang way) store kept := by
  refine achieves_edit fun d hd => ⟨(), _, ⟨Planted.setAttribute_result n name value d, rfl⟩, ?_⟩
  have hset : Upright _ way (Document.setAttribute n name value d).document :=
    hd.setAttribute hn value
  rwa [if_neg fun hboth => hname hboth.2] at hset

theorem achieves_announceRelease (hn : n ∉ way) (tag : String) (now : Instant)
    (hset : ∀ stored, kept stored → ∀ value,
      ∃ stored', stored.set UpdateCheck.standard.key value = .ok stored' ∧ kept stored') :
    Achieves (Upkept (Upright lang way) store kept) (announceRelease id store n tag now) fun _ =>
      Upkept (Upright lang way) store kept := by
  refine (achieves_keepRelease tag now hset).bind fun _ => achieves_get.bind fun s => ?_
  split
  · exact achieves_pure fun _ hs => hs
  · refine (achieves_setAttribute (by decide) (fun hm => absurd hm hn) _).bind fun _ => ?_
    refine (achieves_setAttribute (by decide) (fun hm => absurd hm hn) _).bind fun _ => ?_
    exact achieves_change fun s hs => hs.applyTo inert_silent id _ _

-- Rows are put in a table that is on the way.
private theorem gives_addRows {table : NodeId} (htable : table ∈ way) (ps : List ProcessInfo)
    {d : Document} (hd : Upright lang way d) :
    ∃ d', Gives (Edit.each ps (addRow table)) d () d' ∧ Upright lang way d' := by
  induction ps generalizing d with
  | nil => exact ⟨d, ⟨rfl, rfl⟩, hd⟩
  | cons p ps ih =>
      obtain ⟨d', hrow, hmore⟩ := gives_addRow hd.wellFormed (hd.element table htable) p
      have hroot : table ≠ root := fun he => hd.root_not_mem (he ▸ htable)
      obtain ⟨d'', hrest, hd''⟩ := ih (hd.extended hmore hroot)
      exact ⟨d'', hrow.bind hrest, hd''⟩

-- What is left to do when the notice has been dealt with.
def finish (id : EngineId) (t : ProcessTable) (ps : List ProcessInfo) : Work String := do
  edit (Edit.each ps (addRow t.table))
  edit (ProcessTable.setCount t.count ps.length)
  change (Session.applyTo silent id (some t.count) none)
  let _ ← act (Session.runFrame silent)
  return (← get).document.outerHtml root

theorem achieves_finish {t : ProcessTable} (ht : t.table ∈ way) (ps : List ProcessInfo) :
    Achieves (Upkept (Upright lang way) store kept) (finish id t ps) fun text s =>
      Upkept (Upright lang way) store kept s ∧ text = s.document.outerHtml root := by
  have hrows : Achieves (Upkept (Upright lang way) store kept)
      (edit (Edit.each ps (addRow t.table))) fun _ => Upkept (Upright lang way) store kept := by
    refine achieves_edit fun d hd => ?_
    obtain ⟨d', hgives, hd'⟩ := gives_addRows ht ps hd
    exact ⟨(), d', hgives, hd'⟩
  have hcount : Achieves (Upkept (Upright lang way) store kept)
      (edit (ProcessTable.setCount t.count ps.length))
      fun _ => Upkept (Upright lang way) store kept := by
    refine achieves_setAttribute (by decide) (fun _ D _ => ?_) _
    cases D <;> decide
  have htranslated : Achieves (Upkept (Upright lang way) store kept)
      (change (Session.applyTo silent id (some t.count) none))
      fun _ => Upkept (Upright lang way) store kept :=
    achieves_change fun s hs => hs.applyTo inert_silent id _ _
  have hframe : Achieves (Upkept (Upright lang way) store kept) (act (Session.runFrame silent))
      fun _ => Upkept (Upright lang way) store kept :=
    achieves_act fun s hs => hs.runFrame inert_silent
  refine hrows.bind fun _ => hcount.bind fun _ => htranslated.bind fun _ => hframe.bind fun _ => ?_
  exact fun s hs => ⟨_, s, rfl, hs, rfl⟩

end Steps

section Pages

variable {kept : Store → Prop}

-- From the table up to the body.
def wayUp (l : Layout) (t : ProcessTable) : List NodeId := [t.table, t.container, l.main, body]

-- The page before anything is translated, with room for the rows.
structure Furnished (l : Layout) (t : ProcessTable) (d : Document) : Prop where
  upright : Upright none (wayUp l t) d
  notice : l.updateNotice ∉ wayUp l t

def furnish : Edit (Layout × ProcessTable) :=
  Edit.bind (Layout.build layoutOptions) fun l =>
    Edit.bind (ProcessTable.build l.main) fun t => Edit.pure (l, t)

-- The layout and the table are built once and for all, so what is asked of them is looked up.
set_option maxRecDepth 100000 in
private theorem checked_furnish : (match (furnish empty).result with
    | .error _ => false
    | .ok (l, t) =>
      let d := (furnish empty).document
      decide (d.children root = [html] ∧ d.kind? html = some (.element ⟨"html", []⟩) ∧
        (∀ n ∈ wayUp l t, d.isElement n = true ∧
          (n = body ∨ ∃ p ∈ wayUp l t, d.parent? n = some p) ∧
          ∀ D ∈ Directive.all, D.target = .textContent → d.hasAttribute n D.marker = false) ∧
        title ∉ wayUp l t ∧ l.updateNotice ∉ wayUp l t)) = true := by
  decide +kernel

private theorem gives_furnish : ∃ l t d d', Gives (Layout.build layoutOptions) empty l d ∧
    Gives (ProcessTable.build l.main) d t d' ∧ Furnished l t d' := by
  obtain ⟨l, d, hlayout, hgrown⟩ := Layout.build_empty layoutOptions
  obtain ⟨t, d', htable, -, hgrown'⟩ := ProcessTable.grows_build (p := l.main) (by simp) d hgrown
  have hdone : Gives (Edit.pure (l, t)) d' (l, t) d' := ⟨rfl, rfl⟩
  obtain ⟨hresult, hdoc⟩ : Gives furnish empty (l, t) d' := hlayout.bind (htable.bind hdone)
  have hchecked := checked_furnish
  rw [hresult, hdoc] at hchecked
  obtain ⟨honly, hhtml, hway, htitle, hnotice⟩ := of_decide_eq_true hchecked
  refine ⟨l, t, d, d', hlayout, htable, ⟨hgrown'.sown.wellFormed, honly, ⟨[], hhtml, rfl⟩,
    fun n hn => (hway n hn).1, fun n hn => (hway n hn).2.1,
    fun n hn D => (hway n hn).2.2 D (Translation.mem_all D), htitle⟩, hnotice⟩

-- The page of a run, whatever it is called for.
theorem achieves_page (flags : Flags) (m : Surroundings) (settings : Settings) (store : StoreId)
    {stored : Store} {l : Locale} (hl : destination stored (SystemLocale.detect? m.environment)
      settings.engine.storageKey (flags.language.or settings.language) = l)
    (hset : ∃ stored', stored.set settings.engine.storageKey l.tag = .ok stored' ∧ kept stored')
    (hmore : ∀ stored, kept stored → ∀ value,
      ∃ stored', stored.set UpdateCheck.standard.key value = .ok stored' ∧ kept stored') :
    ∃ way, Achieves (Upkept (· = empty) store (· = stored)) (page flags m settings store)
      fun text s => Upkept (Upright (some l.languageTag) way) store kept s ∧
        text = s.document.outerHtml root := by
  obtain ⟨layout, table, d, d', hlayout, htable, hfurnished⟩ := gives_furnish
  refine ⟨wayUp layout table, Achieves.given hlayout (Achieves.given htable ?_)⟩
  refine (achieves_hire _ settings.engine).bind fun id => ?_
  have hsettle : Achieves (fun s => Upkept (· = d') store (· = stored) s ∧
        Hired (SystemLocale.detect? m.environment) settings.engine store id s)
      (settle id settings.engine (flags.language.or settings.language)) fun _ =>
        Upkept (Upright (some l.languageTag) (wayUp layout table)) store kept :=
    (achieves_settle _ hl hset).mono fun s hs =>
      ⟨⟨hs.1.free, hs.1.page ▸ hfurnished.upright, hs.1.kept⟩, hs.2⟩
  have hfinish : Achieves (Upkept (Upright (some l.languageTag) (wayUp layout table)) store kept)
      (finish id table sampleProcesses) _ := achieves_finish (by simp [wayUp]) sampleProcesses
  refine hsettle.bind fun _ => ?_
  cases flags.latest with
  | none => exact hfinish
  | some tag =>
      exact (achieves_announceRelease hfurnished.notice tag m.now hmore).bind fun _ => hfinish

end Pages

end PageLocalizer.CommandLine
