import Mathlib.Data.List.Induction
import PageLocalizer.Proofs.Document.Rendering
import PageLocalizer.Proofs.Translation.Outcome

-- Translations of a page one after the other, in whatever locales. Only the last one shows.
namespace PageLocalizer

namespace Catalog

-- Every locale has a text for the message, or none has.
def EvenMessage (c : Catalog) (key : String) : Prop :=
  (∀ l, c.lookupMessage l key none ≠ "") ∨
    ∀ l fallback, c.lookupMessage l key fallback = fallback.getD ""

-- Every locale has a text for the template with these parameters, or none has.
def EvenTemplate (c : Catalog) (key : String) (params : Params) : Prop :=
  (∀ l, c.lookupTemplate l key params ≠ "") ∨ ∀ l, c.lookupTemplate l key params = ""

-- A message with a text needs no fallback.
theorem lookupMessage_of_ne {c : Catalog} {l : Locale} {key : String}
    (h : c.lookupMessage l key none ≠ "") (fallback : Option String) :
    c.lookupMessage l key fallback = c.lookupMessage l key none := by
  unfold lookupMessage at h ⊢
  cases horder : orDefault l (c.message? · key) with
  | none => simp [horder] at h
  | some text => simp

end Catalog

namespace Translation

open Document Edit

-- All locales have texts for the same messages and templates among those that a page asks for.
structure Even (c : Catalog) (d : Document) (root : NodeId) : Prop where
  message : ∀ D ∈ [Directive.text, .title, .ariaLabel, .placeholder], ∀ x ∈ D.collect d root,
    ∀ key, D.key? d x = some key → c.EvenMessage key
  template : ∀ x ∈ Directive.template.collect d root,
    ∀ key, Directive.template.key? d x = some key → c.EvenTemplate key (d.templateParams x)
  name : root = Document.root ∨ root = Document.body → c.EvenMessage titleKey

variable {c : Catalog} {l k : Locale} {d d' : Document} {D E : Directive} {e x root : NodeId}
  {name v : String} {ds : List Directive}

section Settled

-- The directive asks for the same on both pages.
def Alike (d d' : Document) (D : Directive) (x : NodeId) : Prop :=
  D.key? d' x = D.key? d x ∧ d'.templateParams x = d.templateParams x

theorem Alike.refl (d : Document) (D : Directive) (x : NodeId) : Alike d d D x := ⟨rfl, rfl⟩

-- A directive has a text of its own in every locale, or nothing to say, or it repeats what is
-- there.
inductive Settled (c : Catalog) (d : Document) (D : Directive) (x : NodeId) : Prop where
  | own (text : Locale → String) : (∀ l, text l ≠ "") →
      (∀ l d', Alike d d' D x → resolve c l d' D x = some (text l)) → Settled c d D x
  | mute : (∀ l d', Alike d d' D x → resolve c l d' D x = none) → Settled c d D x
  | echo : (∀ l d', Alike d d' D x →
      resolve c l d' D x = some ((current? d' x D.target).getD "")) → Settled c d D x

theorem resolve_of_message (hD : D ∈ [Directive.text, .title, .ariaLabel, .placeholder]) :
    resolve c l d D x = (D.key? d x).map fun key =>
      c.lookupMessage l key (current? d x D.target) := by
  cases D <;> first
    | rfl
    | simp at hD

theorem settled_of_message (hD : D ∈ [Directive.text, .title, .ariaLabel, .placeholder])
    (h : ∀ key, D.key? d x = some key → c.EvenMessage key) : Settled c d D x := by
  cases hk : D.key? d x with
  | none =>
      refine .mute fun l d' ha => ?_
      rw [resolve_of_message hD, ha.1, hk, Option.map_none]
  | some key =>
      have hres : ∀ l d', Alike d d' D x → resolve c l d' D x =
          some (c.lookupMessage l key (current? d' x D.target)) := by
        intro l d' ha
        rw [resolve_of_message hD, ha.1, hk, Option.map_some]
      rcases h key hk with hown | hecho
      · refine .own (fun l => c.lookupMessage l key none) hown fun l d' ha => ?_
        rw [hres l d' ha, Catalog.lookupMessage_of_ne (hown l)]
      · refine .echo fun l d' ha => ?_
        rw [hres l d' ha, hecho]

theorem settled_of_template
    (h : ∀ key, Directive.template.key? d x = some key →
      c.EvenTemplate key (d.templateParams x)) : Settled c d .template x := by
  have hres : ∀ l d', Alike d d' .template x → resolve c l d' .template x =
      ((Directive.template.key? d x).map fun key =>
        c.lookupTemplate l key (d.templateParams x)).filter (· ≠ "") := by
    intro l d' ha
    rw [← ha.1, ← ha.2]
    rfl
  cases hk : Directive.template.key? d x with
  | none =>
      refine .mute fun l d' ha => ?_
      rw [hres l d' ha, hk]
      rfl
  | some key =>
      rcases h key hk with hown | hmute
      · refine .own (fun l => c.lookupTemplate l key (d.templateParams x)) hown fun l d' ha => ?_
        rw [hres l d' ha, hk]
        simp [Option.filter, hown l]
      · refine .mute fun l d' ha => ?_
        rw [hres l d' ha, hk]
        simp [Option.filter, hmute l]

theorem Even.settled (he : Even c d root) (hx : x ∈ D.collect d root) : Settled c d D x := by
  cases D with
  | languageIndicator =>
      refine .own Locale.indicator (fun l => ?_) fun l d' _ => rfl
      cases l <;> decide
  | template => exact settled_of_template (he.template x hx)
  | text => exact settled_of_message (by simp) (he.message .text (by simp) x hx)
  | title => exact settled_of_message (by simp) (he.message .title (by simp) x hx)
  | ariaLabel => exact settled_of_message (by simp) (he.message .ariaLabel (by simp) x hx)
  | placeholder => exact settled_of_message (by simp) (he.message .placeholder (by simp) x hx)

-- Whether a directive sets an attribute does not depend on the locale.
theorem Settled.stroke?_name (h : Settled c d D x) (l k : Locale) :
    (stroke? c l d x D).map Prod.fst = (stroke? c k d x D).map Prod.fst := by
  have ha := Alike.refl d D x
  rcases hD : D.target with _ | name
  · rw [stroke?_of_text hD, stroke?_of_text hD]
  · cases h with
    | own text hne hres => simp [stroke?, hD, hres l d ha, hres k d ha, hne]
    | mute hres => simp [stroke?, hD, hres l d ha, hres k d ha]
    | echo hres => simp [stroke?, hD, hres l d ha, hres k d ha]

-- What an attribute holds after a pass: what its directive set, or what it held before.
theorem lookup_style_of_mem (hnd : ds.Nodup) (hD : D ∈ ds) (ht : D.target = .attribute name) :
    (style c l d ds x).lookup name =
      ((stroke? c l d x D).map Prod.snd).or (d.attribute? x name) := by
  cases hs : stroke? c l d x D with
  | some s =>
      have hname : s.1 = name := by
        have hsame := (target_of_stroke? hs).symm.trans ht
        exact Target.attribute.inj hsame
      have hmem : (name, s.2) ∈ strokes c l d ds x :=
        List.mem_filterMap.mpr ⟨D, hD, by rw [hs, ← hname]⟩
      exact lookup_redraw_of_mem (strokes_nodup hnd) hmem
  | none =>
      refine lookup_redraw_of_not_mem fun hm => ?_
      obtain ⟨s, hmem, hname⟩ := List.mem_map.mp hm
      obtain ⟨E, -, hE⟩ := List.mem_filterMap.mp hmem
      have hsame : E = D := target_attribute_inj (target_of_stroke? hE) (hname ▸ ht)
      rw [hsame, hs] at hE
      simp at hE

end Settled

-- The page after a pass in one locale, before a pass in another.
section Again

variable (hw : d.WellFormed) (hc : ConflictFree d root) (he : Even c d root)
  (h : Redrawn d (styling c k root d) (wording c k root d) d')

include h in
theorem alike_of_redrawn (hel : d.isElement x = true) (D : Directive) : Alike d d' D x :=
  ⟨key?_congr (marker_of_style h hel D), templateParams_of_style h hel⟩

include hw h in
theorem bound_of_redrawn (ds : List Directive) (x : NodeId) :
    bound d' root ds x = bound d root ds x := by
  unfold bound
  congr 1
  funext D
  rw [decide_eq_decide]
  exact mem_collect_of_style h hw

include he h

-- A directive sets the same entry as if there had been no pass before.
private theorem stroke?_of_redrawn (hx : x ∈ D.collect d root) :
    stroke? c l d' x D = stroke? c l d x D := by
  have hel := isElement_of_mem_collect hx
  have ha := alike_of_redrawn h hel D
  have hr := Alike.refl d D x
  rcases hD : D.target with _ | name
  · rw [stroke?_of_text hD, stroke?_of_text hD]
  · cases he.settled hx with
    | own text hne hres => simp [stroke?, hD, hres l d' ha, hres l d hr, hne]
    | mute hres => simp [stroke?, hD, hres l d' ha, hres l d hr]
    | echo hres =>
        have hnd : (bound d root Directive.all x).Nodup := List.Nodup.filter _ (by decide)
        have hheld : d'.attribute? x name = d.attribute? x name := by
          rw [Document.attribute?, h.attributes hel]
          refine (lookup_style_of_mem hnd (mem_bound hx) hD).trans ?_
          cases hheld : d.attribute? x name <;>
            simp [stroke?, hD, hres k d hr, current?, hheld]
        simp [stroke?, hD, hres l d' ha, hres l d hr, current?, hheld]

include hw

private theorem styling_of_redrawn (hel : d.isElement x = true) :
    styling c l root d' x = styling c l root d x := by
  have hset : ∀ D ∈ bound d root Directive.all x, x ∈ D.collect d root := fun D hD =>
    of_decide_eq_true (List.mem_filter.mp hD).2
  have hsame : strokes c l d' (bound d root Directive.all x) x =
      strokes c l d (bound d root Directive.all x) x :=
    List.filterMap_congr fun D hD => stroke?_of_redrawn he h (hset D hD)
  have hnames : (strokes c k d (bound d root Directive.all x) x).map Prod.fst =
      (strokes c l d (bound d root Directive.all x) x).map Prod.fst := by
    unfold strokes
    rw [List.map_filterMap, List.map_filterMap]
    exact List.filterMap_congr fun D hD => (he.settled (hset D hD)).stroke?_name k l
  have hnd : (bound d root Directive.all x).Nodup := List.Nodup.filter _ (by decide)
  unfold styling style
  rw [bound_of_redrawn hw h, hsame, h.attributes hel]
  exact redraw_redraw hnames (strokes_nodup hnd)

include hc

-- The same for the text of an element.
private theorem word?_of_redrawn (hel : d.isElement x = true)
    (hx : ¬(x = title ∧ (root = Document.root ∨ root = Document.body))) :
    word? c l d' (bound d root Directive.all x) x =
      word? c l d (bound d root Directive.all x) x := by
  unfold word?
  cases hf : (bound d root Directive.all x).find? fun D => D.target = .textContent with
  | none => rfl
  | some D =>
      have hD : D.target = .textContent := by simpa using List.find?_some hf
      have hcol : x ∈ D.collect d root :=
        of_decide_eq_true (List.mem_filter.mp (List.mem_of_find?_eq_some hf)).2
      have hdue : Due d (bound d root [] x) D x := hc.due hw hcol (by simp)
      have hshown : d'.textContent x = (resolve c k d D x).getD (d.textContent x) := by
        have ht := (h.text hw (isContainer_of_isElement hel) (hdue.text hD).1).2
        simpa [wording, hx, word?, hf] using ht
      have ha := alike_of_redrawn h hel D
      have hr := Alike.refl d D x
      simp only [Option.map_some, Option.some.injEq]
      cases he.settled hcol with
      | own text hne hres => rw [hres l d' ha, hres l d hr]; rfl
      | mute hres => rw [hres l d' ha, hres l d hr, hshown, hres k d hr]; rfl
      | echo hres =>
          rw [hres l d' ha, hres l d hr, hD]
          simpa [current?, hres k d hr, hD] using hshown

theorem wording_of_redrawn (hcon : d.isContainer x = true) :
    wording c l root d' x = wording c l root d x := by
  by_cases hx : x = title ∧ (root = Document.root ∨ root = Document.body)
  · have htext : d.HoldsText title := (holdsText_iff hw).mpr (hc.title hx.2).2
    have hname : d'.titleText = c.lookupMessage k titleKey (some d.titleText) := by
      have ht := (h.text hw (hx.1 ▸ hcon) htext).2
      rwa [wording, if_pos ⟨rfl, hx.2⟩] at ht
    simp only [wording, if_pos hx, hname]
    rcases he.name hx.2 with hown | hecho
    · simp only [Catalog.lookupMessage_of_ne (hown _)]
    · simp only [hecho, Option.getD_some]
  · simp only [wording, if_neg hx, bound_of_redrawn hw h]
    by_cases hel : d.isElement x = true
    · exact word?_of_redrawn hw hc he h hel hx
    · have hnil : bound d root Directive.all x = [] := by
        refine List.filter_eq_nil_iff.mpr fun D _ hm => hel ?_
        exact isElement_of_mem_collect (of_decide_eq_true hm)
      simp [hnil, word?]

-- Another pass leaves nothing of the one before.
theorem redrawn_again (l : Locale) :
    Redrawn d (styling c l root d) (wording c l root d) (pass c l root d').document := by
  have hnext := redrawn_pass h.wellFormed (hc.redrawn hw h) c l
  refine (h.trans hnext hw fun x hx hn => ?_).congr (fun x hel => ?_) fun x hx => ?_
  · rw [wording_of_redrawn hw hc he h hx] at hn
    unfold wording at hn ⊢
    split at hn
    · simp at hn
    · rename_i hroot
      rw [if_neg hroot]
      simpa [word?] using hn
  · exact (styling_of_redrawn hw he h hel).symm
  · exact (wording_of_redrawn hw hc he h hx).symm

end Again

theorem redrawn_foldl (hw : d.WellFormed) (hc : ConflictFree d root) (he : Even c d root)
    (ls : List Locale) (l : Locale) :
    Redrawn d (styling c l root d) (wording c l root d)
      ((ls ++ [l]).foldl (fun d l => (pass c l root d).document) d) := by
  induction ls using List.reverseRecOn generalizing l with
  | nil => exact redrawn_pass hw hc c l
  | append_singleton ls k ih =>
      rw [List.foldl_append]
      exact redrawn_again hw hc he (ih k) l

-- Switching locales has no memory: after any passes in other locales, the page is written as after
-- the last pass alone.
theorem outerHtml_foldl_pass {h : Chronicle} (hr : Chronicle.Recorded h) {c : Catalog}
    {root : NodeId} (hc : ConflictFree h.document root) (he : Even c h.document root)
    (ls : List Locale) (l : Locale) :
    ((ls ++ [l]).foldl (fun d l => (pass c l root d).document) h.document).outerHtml Document.root =
      (pass c l root h.document).document.outerHtml Document.root := by
  have hw := (Chronicle.sound_of_recorded hr).wellFormed
  have hroot : h.document.isContainer Document.root = true := by
    simp [isContainer, hw.root_kind, NodeKind.isContainer]
  exact (redrawn_foldl hw hc he ls l).outerHtml_eq (redrawn_pass hw hc c l) hw hroot

-- A paragraph whose text and tool tip are the same message.
def greeting : Chronicle :=
  [Operation.createElement "p", .appendChild body ⟨5, 0⟩,
    .setAttribute ⟨5, 0⟩ Directive.text.marker "greeting",
    .setAttribute ⟨5, 0⟩ Directive.title.marker "greeting"].foldl Chronicle.after Chronicle.start

theorem recorded_greeting : Chronicle.Recorded greeting := .foldl .start (by decide +kernel)

theorem conflictFree_greeting : ConflictFree greeting.document Document.root := by decide +kernel

def greetings : Catalog :=
  let entries (l : Locale) (text : String) : LocaleCatalog :=
    { messages := ⟨l, [.message ⟨"greeting", some [.text text], []⟩]⟩, templates := ⟨l, []⟩ }
  { en := some (entries .en "Hello"), zh := some (entries .zh "你好") }

theorem even_greetings : Even greetings greeting.document Document.root where
  message D hD x hx key hk := by
    have hkeys : ∀ D ∈ [Directive.text, .title, .ariaLabel, .placeholder],
        ∀ x ∈ D.collect greeting.document Document.root,
          D.key? greeting.document x = some "greeting" := by decide +kernel
    have hkey : "greeting" = key := Option.some.inj ((hkeys D hD x hx).symm.trans hk)
    subst hkey
    left
    intro l
    cases l <;> decide +kernel
  template x hx := by
    have hnone : Directive.template.collect greeting.document Document.root = [] := by
      decide +kernel
    simp [hnone] at hx
  name _ := by
    right
    intro l fallback
    have hmissing : Catalog.orDefault l (greetings.message? · titleKey) = none := by
      cases l <;> decide +kernel
    simp [Catalog.lookupMessage, hmissing]

theorem outerHtml_foldl_pass_greeting : Chronicle.Recorded greeting ∧
    ConflictFree greeting.document Document.root ∧
    Even greetings greeting.document Document.root ∧
    (([Locale.zh, Locale.en] ++ [Locale.zh]).foldl
      (fun d l => (pass greetings l Document.root d).document)
      greeting.document).outerHtml Document.root =
      (pass greetings .zh Document.root greeting.document).document.outerHtml Document.root := by
  have hr := recorded_greeting
  have hc := conflictFree_greeting
  exact ⟨hr, hc, even_greetings, outerHtml_foldl_pass hr hc even_greetings [.zh, .en] .zh⟩

end Translation
end PageLocalizer
