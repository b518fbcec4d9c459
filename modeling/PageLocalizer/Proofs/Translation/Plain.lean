import PageLocalizer.Engine
import PageLocalizer.Proofs.Document.Edits

-- What engines write brings no elements into a page. Whoever watches for elements has nothing to
-- take up from it.
namespace PageLocalizer

-- A change that reports no element as inserted.
def Change.Plain (c : Change) : Prop := ∀ id ∈ c.record.added, c.seen.isElement id = false

-- An edit that inserts no elements, whatever the page.
def Edit.Plain (edit : Edit α) : Prop := ∀ d, ∀ c ∈ (edit d).changes, c.Plain

namespace Edit

theorem plain_pure (a : α) : Plain (Edit.pure a) := fun _ _ h => by simp [Edit.pure] at h

theorem plain_bind {x : Edit α} {f : α → Edit β} (hx : Plain x) (hf : ∀ a, Plain (f a)) :
    Plain (Edit.bind x f) := by
  intro d c hc
  unfold Edit.bind at hc
  have hd := hx d
  cases he : x d with
  | mk result document changes =>
      rw [he] at hc hd
      cases result with
      | error e => exact hd c hc
      | ok a =>
          rcases List.mem_append.mp hc with hc | hc
          · exact hd c hc
          · exact hf a document c hc

theorem plain_each {f : β → Edit Unit} (hf : ∀ b, Plain (f b)) (bs : List β) :
    Plain (Edit.each bs f) := by
  induction bs with
  | nil => exact plain_pure ()
  | cons b bs ih => exact plain_bind (hf b) fun _ => ih

end Edit

namespace Document

variable {d : Document}

-- Even of a page whose books are in disorder, a new text node is no element.
private theorem isElement_create_text (d : Document) (text : String) :
    (create (.text text) d).document.isElement d.nextId = false := by
  cases hf : d.free with
  | nil =>
      have hn : d.nextId = ⟨d.slots.size, 0⟩ := by simp [nextId, hf, generationAt]
      rw [create_of_full hf, hn]
      simp [isElement, kind?, node?, Option.filter, NodeKind.isElement]
  | cons i rest =>
      have hi : d.nextId.index = i := by simp [nextId, hf]
      have hm : (d.modifySlot i ({ · with kind := .text text })).node? d.nextId =
          if d.nextId.index = i then (d.node? d.nextId).map ({ · with kind := .text text })
          else d.node? d.nextId := node?_modifySlot (fun _ => by rfl) d.nextId
      rw [if_pos hi] at hm
      have hk : (create (.text text) d).document.kind? d.nextId =
          (d.modifySlot i ({ · with kind := .text text })).kind? d.nextId := by
        rw [create_of_vacancy hf]
        rfl
      unfold isElement
      rw [hk, kind?, hm]
      cases d.node? d.nextId <;> simp [NodeKind.isElement]

private theorem isElement_fill (d : Document) (id : NodeId) (text : String) :
    ∀ x ∈ (d.fill id text).2, (d.fill id text).1.isElement x = false := by
  intro x hx
  by_cases htext : text = ""
  · simp [fill, htext] at hx
  · rw [fill_eq d id htext] at hx ⊢
    rw [List.mem_singleton.mp hx]
    have h := isElement_create_text d text
    unfold isElement at h ⊢
    rwa [kind?_link]

theorem plain_setText (id : NodeId) (text : String) : Edit.Plain (setText id text) := by
  intro d c hc
  unfold setText at hc
  split at hc
  · simp at hc
  · split at hc
    · rw [List.mem_singleton.mp hc]
      exact fun x hx => by simp [Record.added] at hx
    · unfold replaceChildren at hc
      dsimp only at hc
      split at hc
      · simp at hc
      · rw [List.mem_singleton.mp hc]
        exact isElement_fill _ id text

theorem plain_setAttribute (id : NodeId) (name value : String) :
    Edit.Plain (setAttribute id name value) := by
  intro d c hc
  unfold setAttribute at hc
  split at hc
  · simp at hc
  · rw [List.mem_singleton.mp hc]
    exact fun x hx => by simp [Record.added] at hx

end Document

namespace Translation

theorem plain_write (e : NodeId) (target : Target) (v : String) :
    Edit.Plain (write e target v) := by
  intro d
  unfold write
  split
  · split
    · exact Edit.plain_pure () d
    · exact Document.plain_setText e v d
  · split
    · split
      · exact Edit.plain_pure () d
      · exact Document.plain_setAttribute e _ v d
    · split
      · exact Edit.plain_pure () d
      · exact Document.plain_setAttribute e _ v d

theorem plain_applyTo (c : Catalog) (l : Locale) (D : Directive) (e : NodeId) :
    Edit.Plain (applyTo c l D e) := by
  intro d
  unfold applyTo
  split
  · exact plain_write e D.target _ d
  · exact Edit.plain_pure () d

theorem plain_retitle (c : Catalog) (l : Locale) : Edit.Plain (retitle c l) := by
  intro d
  unfold retitle
  dsimp only
  split
  · exact Edit.plain_pure () d
  · exact Document.plain_setText Document.title _ d

theorem plain_pass (c : Catalog) (l : Locale) (root : NodeId) : Edit.Plain (pass c l root) := by
  refine Edit.plain_bind (Edit.plain_each (fun D d => ?_) _) fun _ => ?_
  · exact Edit.plain_each (plain_applyTo c l D) (D.collect d root) d
  · split
    · exact plain_retitle c l
    · exact Edit.plain_pure ()

end Translation

namespace Engine

theorem plain_mark (e : Engine) (locale : Locale) : Edit.Plain (e.mark locale) := by
  have hensure : ∀ id name value, Edit.Plain (ensureAttribute id name value) := by
    intro id name value d
    unfold ensureAttribute
    split
    · exact Edit.plain_pure () d
    · exact Document.plain_setAttribute id name value d
  exact Edit.plain_bind (hensure _ _ _) fun _ => hensure _ _ _

theorem plain_translate (e : Engine) (locale : Locale) (root : NodeId) :
    Edit.Plain (e.translate locale root) := Translation.plain_pass e.catalog locale root

end Engine
end PageLocalizer
