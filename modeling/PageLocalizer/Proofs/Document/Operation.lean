import PageLocalizer.Proofs.Document.Edits

-- What can be done to a page from outside, and the one lemma that holds of all of it.
namespace PageLocalizer

namespace Document

-- What can be done to a page from outside.
inductive Operation where
  | createElement (tag : String)
  | createText (data : String)
  | appendChild (parent child : NodeId)
  | removeChild (parent child : NodeId)
  | remove (id : NodeId)
  | release (id : NodeId)
  | setAttribute (id : NodeId) (name value : String)
  | removeAttribute (id : NodeId) (name : String)
  | setText (id : NodeId) (text : String)
  | setTitle (text : String)
  | observe (target : NodeId)
  | disconnect (observer : ObserverId)
  deriving Repr, DecidableEq

end Document

-- The same edit, which answers with node ids.
def Edit.giving (edit : Edit α) (ids : α → List NodeId) : Edit (List NodeId) := fun d =>
  let edited := edit d
  ⟨edited.result.map ids, edited.document, edited.changes⟩

-- The ids that reach the outside: those answered, and those reported as inserted.
def Edited.handedOut (edited : Edited (List NodeId)) : List NodeId :=
  (match edited.result with
    | .ok ids => ids
    | .error _ => []) ++ edited.changes.flatMap (·.record.added)

private theorem handedOut_giving_nil (edit : Edit α) (d : Document) :
    ((edit.giving fun _ => []) d).handedOut = (edit d).changes.flatMap (·.record.added) := by
  cases h : (edit d).result <;> simp [Edited.handedOut, Edit.giving, h, Except.map]

namespace Document.Operation

-- The nodes an operation is called with.
def mentions : Operation → List NodeId
  | .appendChild parent child | .removeChild parent child => [parent, child]
  | .remove id | .release id | .setAttribute id _ _ | .removeAttribute id _ | .setText id _ => [id]
  | .observe target => [target]
  | .createElement _ | .createText _ | .setTitle _ | .disconnect _ => []

def edit : Operation → Edit (List NodeId)
  | .createElement tag => (Document.createElement tag).giving ([·])
  | .createText data => (Document.createText data).giving ([·])
  | .appendChild parent child => (Document.appendChild parent child).giving fun _ => []
  | .removeChild parent child => (Document.removeChild parent child).giving fun _ => []
  | .remove id => (Document.remove id).giving fun _ => []
  | .release id => (Document.release id).giving fun _ => []
  | .setAttribute id name value =>
    (Document.setAttribute id name value).giving fun _ => []
  | .removeAttribute id name => (Document.removeAttribute id name).giving fun _ => []
  | .setText id text => (Document.setText id text).giving fun _ => []
  | .setTitle text => (Document.setTitle text).giving fun _ => []
  | .observe target => (Document.observe target).giving fun _ => []
  | .disconnect observer => (Document.disconnect observer).giving fun _ => []

-- The nodes an operation releases: the subtree it is called for, or those of the children that
-- a new text replaces.
def releases (d : Document) : Operation → List NodeId
  | .remove id => d.leaving id
  | .release id => if (d.parent? id).isSome then [] else d.leaving id
  | .setText id text => (d.replaced id text).flatMap d.leaving
  | .setTitle text => (d.replaced title text).flatMap d.leaving
  | _ => []

-- What an operation does to a well-formed page whose vacant slots nobody asks for.
structure Effect (d : Document) (op : Operation) : Prop where
  wellFormed : (op.edit d).document.WellFormed
  turnover : ∃ joined, d.Turnover joined (op.releases d) (op.edit d).document ∧
    joined ⊆ (op.edit d).handedOut ∧ (op.edit d).handedOut ⊆ joined ++ op.mentions

section Effect

variable {d : Document} {op : Operation}

-- An operation that answers with no ids hands out what it reports as inserted.
theorem effect_of_turnover {edit : Edit Unit} {joined : List NodeId}
    (he : op.edit = edit.giving fun _ => []) (hw : (edit d).document.WellFormed)
    (hturn : d.Turnover joined (op.releases d) (edit d).document)
    (hj : joined ⊆ (edit d).changes.flatMap (·.record.added))
    (ha : (edit d).changes.flatMap (·.record.added) ⊆ joined ++ op.mentions) : op.Effect d := by
  have hout := handedOut_giving_nil edit d
  refine ⟨by rw [he]; exact hw, joined, by rw [he]; exact hturn, ?_, ?_⟩
  · rw [he, hout]
    exact hj
  · rw [he, hout]
    exact ha

theorem effect_of_sameTenants {edit : Edit Unit} (he : op.edit = edit.giving fun _ => [])
    (h : (edit d).document.WellFormed ∧ d.SameTenants (edit d).document)
    (hr : op.releases d = [])
    (ha : (edit d).changes.flatMap (·.record.added) ⊆ op.mentions) : op.Effect d :=
  effect_of_turnover he h.1 (hr ▸ .of_sameTenants h.2) (List.nil_subset _) (by simpa using ha)

theorem effect_create (hw : d.WellFormed) {kind : NodeKind} (hk : kind ≠ .document)
    (hn : kind.names.Nodup) (he : op.edit d = (create kind).giving ([·]) d)
    (hr : op.releases d = []) : op.Effect d := by
  have hout : (op.edit d).handedOut = [d.nextId] := by
    obtain ⟨hresult, hchanges⟩ := create_result kind d
    simp [he, Edited.handedOut, Edit.giving, hresult, hchanges, Except.map]
  refine ⟨by rw [he]; exact hw.create hk hn, [d.nextId], ?_, by simp [hout], by simp [hout]⟩
  rw [he, hr]
  exact Turnover.create hw.vacancies kind

theorem effect_setText (hw : d.WellFormed) {id : NodeId} {text : String}
    (he : op.edit = (Document.setText id text).giving fun _ => [])
    (hr : op.releases d = (d.replaced id text).flatMap d.leaving) : op.Effect d := by
  obtain ⟨hw', hturn⟩ := hw.setText id text
  exact effect_of_turnover he hw' (hr ▸ hturn) (List.Subset.refl _) (List.subset_append_left _ _)

theorem added_appendChild (parent child : NodeId) (d : Document) :
    (Document.appendChild parent child d).changes.flatMap (·.record.added) ⊆ [child] := by
  unfold Document.appendChild
  split
  · split_ifs
    · simp [Edit.fail]
    · simp [Edit.fail]
    · simp [Edit.fail]
    · split <;> simp [Record.added]
  · simp [Edit.fail]

theorem added_removeChild (parent child : NodeId) (d : Document) :
    (Document.removeChild parent child d).changes.flatMap (·.record.added) = [] := by
  unfold Document.removeChild
  split <;> simp [Record.added, Edit.fail]

theorem added_remove (id : NodeId) (d : Document) :
    (Document.remove id d).changes.flatMap (·.record.added) = [] := by
  unfold Document.remove
  split
  · rfl
  · split
    · exact added_removeChild _ id d
    · rfl

theorem added_release (id : NodeId) (d : Document) :
    (Document.release id d).changes.flatMap (·.record.added) = [] := by
  unfold Document.release
  split
  · rfl
  · split_ifs <;> rfl

theorem added_setAttribute (id : NodeId) (name value : String) (d : Document) :
    (Document.setAttribute id name value d).changes.flatMap (·.record.added) = [] := by
  unfold Document.setAttribute
  split <;> simp [Record.added]

theorem added_removeAttribute (id : NodeId) (name : String) (d : Document) :
    (Document.removeAttribute id name d).changes.flatMap (·.record.added) = [] := by
  unfold Document.removeAttribute
  split
  · rfl
  · split <;> simp [Record.added]

theorem wellFormed_of_observers (hw : d.WellFormed) {d' : Document} (hs : d'.slots = d.slots)
    (hf : d'.free = d.free) : d'.WellFormed ∧ d.SameTenants d' := by
  have hn : d'.node? = d.node? := by
    funext x
    simp [node?, hs]
  have hl : d'.links = d.links := by
    simp only [links, Links.mk.injEq]
    constructor
    · funext x
      simp [parent?, hn]
    · funext x
      simp [children, hn]
  have hsame : d.SameTenants d' :=
    ⟨fun x => by rw [hn], hf, fun i => by simp [generationAt, hs], by simp [allocated, hs]⟩
  have hv : d'.Vacancies := by
    refine ⟨hf ▸ hw.vacancies.nodup, fun i hi => ?_⟩
    rw [hs]
    exact hw.vacancies.vacant i (hf ▸ hi)
  refine ⟨hw.relink hsame (fun x => by simp [kind?, hn]) (hl ▸ hw.forest) hv ?_ ?_, hsame⟩
  · intro id ha ht
    have hc : d'.children id = d.children id := by simp [children, hn]
    exact hc.trans (hw.leaf id ha ht)
  · have hp : d'.parent? root = d.parent? root := by simp [parent?, hn]
    exact hp.trans hw.root_parent

-- The one lemma about an operation: it keeps the page well formed, and its tenants change by
-- those that it hands out and those that it releases.
theorem effect (op : Operation) (hw : d.WellFormed)
    (hm : ∀ x ∈ op.mentions, (d.node? x).isSome → d.Alive x) : op.Effect d := by
  cases op with
  | createElement tag =>
      exact effect_create hw (by simp [bareElement]) (by simp [bareElement, NodeKind.names]) rfl rfl
  | createText data => exact effect_create hw (by simp) (by simp [NodeKind.names]) rfl rfl
  | appendChild parent child =>
      have h := hw.appendChild (hm parent (by simp [mentions])) (hm child (by simp [mentions]))
      have ha := added_appendChild parent child d
      exact effect_of_sameTenants rfl h rfl (List.Subset.trans ha (by simp [mentions]))
  | removeChild parent child =>
      exact effect_of_sameTenants rfl (hw.removeChild parent child) rfl
        (by simp [added_removeChild])
  | remove id =>
      obtain ⟨hw', hturn⟩ := hw.remove (hm id (by simp [mentions]))
      exact effect_of_turnover rfl hw' hturn (List.nil_subset _) (by simp [added_remove])
  | release id =>
      obtain ⟨hw', hturn⟩ := hw.release (hm id (by simp [mentions]))
      exact effect_of_turnover rfl hw' hturn (List.nil_subset _) (by simp [added_release])
  | setAttribute id name value =>
      exact effect_of_sameTenants rfl (hw.setAttribute id name value) rfl
        (by simp [added_setAttribute])
  | removeAttribute id name =>
      exact effect_of_sameTenants rfl (hw.removeAttribute id name) rfl
        (by simp [added_removeAttribute])
  | setText id text => exact effect_setText hw rfl rfl
  | setTitle text => exact effect_setText hw rfl rfl
  | observe target =>
      have h : (Document.observe target d).document.WellFormed ∧
          d.SameTenants (Document.observe target d).document := wellFormed_of_observers hw rfl rfl
      refine ⟨h.1, [], .of_sameTenants h.2, by simp, ?_⟩
      simp [edit, Edited.handedOut, Edit.giving, Document.observe, Except.map]
  | disconnect observer =>
      have h : (Document.disconnect observer d).document.WellFormed ∧
          d.SameTenants (Document.disconnect observer d).document :=
        wellFormed_of_observers hw rfl rfl
      exact effect_of_sameTenants rfl h rfl (by simp [Document.disconnect])

end Effect

end Document.Operation
end PageLocalizer
