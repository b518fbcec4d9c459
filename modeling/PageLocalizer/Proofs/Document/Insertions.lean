import PageLocalizer.Proofs.Batch
import PageLocalizer.Proofs.Document.Notices
import PageLocalizer.Proofs.Translation.Plain

-- Which element an operation brings to the body, and what is told of it there.
namespace PageLocalizer.Document

-- The element that an operation appends to a node of the body, if it does.
def Operation.brings (d : Document) : Operation → List NodeId
  | .appendChild parent child =>
    let appended := Document.appendChild parent child d
    match appended.result with
    | .ok _ =>
      if appended.document.contains body parent ∧ appended.document.isElement child then [child]
      else []
    | .error _ => []
  | _ => []

-- What those hear who watch the body.
def heardAtBody (changes : List Change) : List NodeId :=
  changes.flatMap fun c => if c.seen.contains body c.record.target then c.arrivals else []

variable {d : Document} {op : Operation} {parent child : NodeId}

private theorem arrivals_of_plain {c : Change} (h : c.Plain) : c.arrivals = [] :=
  List.filter_eq_nil_iff.mpr fun x hx => by simp [h x hx]

theorem plain_of_added {changes : List Change} (h : changes.flatMap (·.record.added) = []) :
    ∀ c ∈ changes, c.Plain := by
  intro c hc x hx
  rw [List.flatMap_eq_nil_iff] at h
  rw [h c hc] at hx
  simp at hx

theorem Operation.plain_edit (h : ∀ parent child, op ≠ .appendChild parent child) :
    Edit.Plain op.edit := by
  intro d
  cases op with
  | appendChild parent child => exact absurd rfl (h parent child)
  | createElement tag =>
      have hnil : (Document.createElement tag d).changes = [] := (create_result _ d).2
      exact plain_of_added (by simp [Operation.edit, Edit.giving, hnil])
  | createText data =>
      have hnil : (Document.createText data d).changes = [] := (create_result _ d).2
      exact plain_of_added (by simp [Operation.edit, Edit.giving, hnil])
  | removeChild parent child => exact plain_of_added (added_removeChild parent child d)
  | remove id => exact plain_of_added (added_remove id d)
  | release id => exact plain_of_added (added_release id d)
  | setAttribute id name value => exact plain_setAttribute id name value d
  | removeAttribute id name => exact plain_of_added (added_removeAttribute id name d)
  | setText id text => exact plain_setText id text d
  | setTitle text => exact plain_setText title text d
  | observe target => exact plain_of_added rfl
  | disconnect observer => exact plain_of_added rfl

theorem heardAtBody_of_plain {changes : List Change} (h : ∀ c ∈ changes, c.Plain) :
    heardAtBody changes = [] :=
  List.flatMap_eq_nil_iff.mpr fun c hc => by simp [arrivals_of_plain (h c hc)]

theorem heardAtBody_appendChild (parent child : NodeId) (d : Document) :
    heardAtBody (appendChild parent child d).changes =
      (Operation.appendChild parent child).brings d := by
  have hleft : ∀ old seen, heardAtBody [⟨⟨old, .children [] [child]⟩, seen⟩] = [] :=
    fun old seen => heardAtBody_of_plain (plain_of_added rfl)
  have hjoin : ∀ seen : Document, heardAtBody [⟨⟨parent, .children [child] []⟩, seen⟩] =
      if seen.contains body parent ∧ seen.isElement child then [child] else [] := by
    intro seen
    by_cases hc : seen.contains body parent = true <;>
      by_cases he : seen.isElement child = true <;>
      simp [heardAtBody, Change.arrivals, Record.added, hc, he]
  have happend : ∀ cs cs', heardAtBody (cs ++ cs') = heardAtBody cs ++ heardAtBody cs' :=
    fun cs cs' => List.flatMap_append
  cases h : d.admits parent child with
  | false =>
      obtain ⟨e, he⟩ := appendChild_of_not_admits h
      simp only [Operation.brings, he]
      rfl
  | true =>
      have he := appendChild_of_admits h
      cases hold : d.parent? child with
      | none =>
          rw [hold] at he
          simp only [Operation.brings, he]
          exact hjoin _
      | some old =>
          rw [hold] at he
          simp only [Operation.brings, he]
          exact (happend [_] [_]).trans (by rw [hleft, hjoin, List.nil_append])

theorem heardAtBody_edit (op : Operation) (d : Document) :
    heardAtBody (op.edit d).changes = op.brings d := by
  by_cases h : ∃ parent child, op = .appendChild parent child
  · obtain ⟨parent, child, rfl⟩ := h
    exact heardAtBody_appendChild parent child d
  · have hne : ∀ parent child, op ≠ .appendChild parent child := fun parent child he =>
      h ⟨parent, child, he⟩
    rw [heardAtBody_of_plain (Operation.plain_edit hne d)]
    cases op with
    | appendChild parent child => exact absurd rfl (hne parent child)
    | _ => rfl

theorem brings_of_admits (hw : d.WellFormed) (hadm : d.admits parent child = true)
    (hm : ∀ x ∈ [parent, child], (d.node? x).isSome → d.Alive x)
    (hbody : d.links.Under parent body) (hel : d.isElement child = true) :
    (Operation.appendChild parent child).brings d = [child] := by
  obtain ⟨-, -, hafter⟩ := accounted_appendChild hw (hm parent (by simp)) (hm child (by simp))
  have hwf := (hw.appendChild (hm parent (by simp)) (hm child (by simp))).1
  have halive : ∀ {e : Document}, e.WellFormed → e.Alive body := fun he =>
    he.skeleton_alive body (by simp [skeleton])
  have he := appendChild_of_admits hadm
  have hunder : (Document.appendChild parent child d).document.links.Under parent body := by
    refine (hafter ⟨⟨parent, .children [child] []⟩,
      (Document.appendChild parent child d).document⟩ ?_ body (halive hw) (halive hwf)).mpr hbody
    rw [he]
    cases d.parent? child <;> simp
  have hkind : (Document.appendChild parent child d).document.kind? child = d.kind? child := by
    rw [he]
    cases d.parent? child <;> simp [kind?_link, kind?_unlink]
  have hcontains := (contains_iff hwf.forest body parent).mpr hunder
  have helem : (Document.appendChild parent child d).document.isElement child = true := by
    simpa [isElement, hkind] using hel
  have hok : (Document.appendChild parent child d).result = .ok () := by
    rw [he]
    cases d.parent? child <;> rfl
  simp [Operation.brings, hok, hcontains, helem]

end PageLocalizer.Document
