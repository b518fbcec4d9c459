import PageLocalizer.Proofs.Document.Skeleton
import PageLocalizer.Proofs.Translation.Patching

-- What engines write to the document element: the two attributes that show a locale, and in a pass
-- none of them.
namespace PageLocalizer

namespace Edit

variable {id : NodeId} {touched : String → Prop}

theorem keeping_pure (a : α) : Keeping id touched (Edit.pure a) := fun _ h => .refl h

theorem keeping_bind {x : Edit α} {f : α → Edit β} (hx : Keeping id touched x)
    (hf : ∀ a, Keeping id touched (f a)) : Keeping id touched (Edit.bind x f) := by
  intro d h
  have hd := hx d h
  unfold Edit.bind
  cases he : x d with
  | mk result document changes =>
      rw [he] at hd
      cases result with
      | error e => exact hd
      | ok a => exact hd.trans (hf a document hd.anchored)

theorem keeping_each {f : β → Edit Unit} (hf : ∀ b, Keeping id touched (f b)) (bs : List β) :
    Keeping id touched (Edit.each bs f) := by
  induction bs with
  | nil => exact keeping_pure ()
  | cons b bs ih => exact keeping_bind (hf b) fun _ => ih

end Edit

namespace Translation

open Document

variable {id : NodeId}

-- The attributes that directives write.
def targets : List String := ["title", "aria-label", "placeholder"]

theorem keeping_write (hid : id ∈ skeleton) (x : NodeId) (D : Directive) (v : String) :
    Edit.Keeping id (· ∈ targets) (write x D.target v) := by
  have hset : ∀ name ∈ targets, Edit.Keeping id (· ∈ targets) (setAttribute x name v) :=
    fun name hname => keeping_setAttribute (fun _ => hname) v
  intro d h
  unfold write
  split
  · split
    · exact .refl h
    · exact keeping_setText hid x v d h
  · rename_i name hname
    have hmem : name ∈ targets := by
      cases D <;> simp [Directive.target] at hname <;> simp [targets, ← hname]
    split
    · split
      · exact .refl h
      · exact hset name hmem d h
    · split
      · exact .refl h
      · exact hset name hmem d h

theorem keeping_applyTo (hid : id ∈ skeleton) (c : Catalog) (l : Locale) (D : Directive)
    (x : NodeId) : Edit.Keeping id (· ∈ targets) (applyTo c l D x) := by
  intro d h
  unfold applyTo
  split
  · exact keeping_write hid x D _ d h
  · exact .refl h

theorem keeping_retitle (hid : id ∈ skeleton) (c : Catalog) (l : Locale) :
    Edit.Keeping id (· ∈ targets) (retitle c l) := by
  intro d h
  unfold retitle
  dsimp only
  split
  · exact .refl h
  · exact keeping_setText hid title _ d h

-- Whatever a pass translates, an element of the skeleton keeps all other attributes.
theorem keeping_pass (hid : id ∈ skeleton) (c : Catalog) (l : Locale) (x : NodeId) :
    Edit.Keeping id (· ∈ targets) (pass c l x) := by
  refine Edit.keeping_bind (Edit.keeping_each (fun D d h => ?_) _) fun _ => ?_
  · exact Edit.keeping_each (keeping_applyTo hid c l D) (D.collect d x) d h
  · split
    · exact keeping_retitle hid c l
    · exact Edit.keeping_pure ()

end Translation

namespace Engine

open Document

-- Where the document element shows a locale.
def shown : List String := [EngineSettings.standard.localeAttribute, "lang"]

variable {d : Document} {id : NodeId} {touched : String → Prop}

theorem keeping_ensureAttribute {name : String} (ht : touched name) (x : NodeId)
    (value : String) : Edit.Keeping id touched (ensureAttribute x name value) := by
  intro d h
  unfold ensureAttribute
  split
  · exact .refl h
  · exact keeping_setAttribute (fun _ => ht) value d h

theorem attribute?_ensureAttribute (hel : d.isElement id) (name value n : String) :
    (ensureAttribute id name value d).document.attribute? id n =
      if n = name then some value else d.attribute? id n := by
  unfold ensureAttribute
  split
  · rename_i hsame
    by_cases hn : n = name <;> simp [hn, hsame, Edit.pure]
  · exact attribute?_setAttribute hel name value n

theorem keeping_mark (e : Engine) (l : Locale) : Edit.Keeping id (fun _ => True) (e.mark l) :=
  Edit.keeping_bind (keeping_ensureAttribute trivial _ _) fun _ =>
    keeping_ensureAttribute trivial _ _

-- The document element shows the locale in both of its ways.
theorem attribute?_mark {e : Engine} (he : e.settings = .standard) (ha : d.Anchored html)
    (hel : d.isElement html) (l : Locale) :
    (e.mark l d).document.attribute? html EngineSettings.standard.localeAttribute = some l.tag ∧
      (e.mark l d).document.attribute? html "lang" = some l.languageTag := by
  let first := (ensureAttribute html EngineSettings.standard.localeAttribute l.tag d).document
  have hdoc : (e.mark l d).document =
      (ensureAttribute html "lang" l.languageTag first).document := by
    rw [← Edit.bind_document (Translation.succeeds_ensureAttribute _ _ _), ← he]
    rfl
  have hkeep : Keeps html (fun _ => True) d first := keeping_ensureAttribute trivial _ _ d ha
  have hel' : first.isElement html := hkeep.isElement.trans hel
  rw [hdoc]
  constructor
  · rw [attribute?_ensureAttribute hel', if_neg (by decide), attribute?_ensureAttribute hel,
      if_pos rfl]
  · rw [attribute?_ensureAttribute hel', if_pos rfl]

end Engine
end PageLocalizer
