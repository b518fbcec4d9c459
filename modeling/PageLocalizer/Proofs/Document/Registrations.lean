import PageLocalizer.Proofs.Document.Operation
import PageLocalizer.Proofs.Translation.Plain

-- Who is registered to hear of changes. Apart from the calls that are for it, no edit registers
-- anybody or strikes anybody off, not even for a while.
namespace PageLocalizer

namespace Document

-- The registrations, and the id that the next one gets.
def registry (d : Document) : List Observer × ObserverId := (d.observers, d.nextObserver)

variable {d : Document} {id p c : NodeId} {ids : List NodeId}

theorem observers_of_registry {d' : Document} (h : d'.registry = d.registry) :
    d'.observers = d.observers := congrArg Prod.fst h

theorem nextObserver_of_registry {d' : Document} (h : d'.registry = d.registry) :
    d'.nextObserver = d.nextObserver := congrArg Prod.snd h

@[simp] theorem registry_modifySlot (index : Nat) (f : Slot → Slot) :
    (d.modifySlot index f).registry = d.registry := rfl

@[simp] theorem registry_link : (d.link p c).registry = d.registry := rfl

@[simp] theorem registry_unlink : (d.unlink p c).registry = d.registry := rfl

@[simp] theorem registry_withAttributes (e : Element) (entries : List (String × String)) :
    (d.withAttributes id e entries).registry = d.registry := rfl

@[simp] theorem registry_create (kind : NodeKind) :
    (create kind d).document.registry = d.registry := by
  cases hf : d.free with
  | nil => rw [create_of_full hf]; rfl
  | cons i rest => rw [create_of_vacancy hf]; rfl

@[simp] theorem registry_orphan : (d.orphan ids).registry = d.registry := by
  induction ids generalizing d with
  | nil => rfl
  | cons c rest ih => rw [orphan_cons, ih, registry_modifySlot]

@[simp] theorem registry_strip : (d.strip id ids).registry = d.registry := by
  unfold strip
  rw [registry_orphan, registry_modifySlot]

@[simp] theorem registry_fill (text : String) : (d.fill id text).1.registry = d.registry := by
  by_cases h : text = ""
  · simp [fill, h]
  · rw [fill_eq d id h, registry_link, registry_create]

@[simp] theorem registry_vacateAll : (d.vacateAll ids).registry = d.registry := by
  induction ids generalizing d with
  | nil => rfl
  | cons id rest ih => rw [vacateAll_cons, ih]; rfl

@[simp] theorem registry_releaseEach : (d.releaseEach ids).registry = d.registry := by
  induction ids generalizing d with
  | nil => rfl
  | cons id rest ih =>
      rw [WellFormed.releaseEach_cons, ih]
      unfold releaseEach
      simp only [List.foldl]
      split <;> simp

end Document

-- An edit that leaves the registrations alone. Whoever is told of one of its changes finds them
-- the same.
def Edit.Tacit (edit : Edit α) : Prop := ∀ d,
  (edit d).document.registry = d.registry ∧ ∀ c ∈ (edit d).changes, c.seen.registry = d.registry

namespace Edit

theorem tacit_pure (a : α) : Tacit (Edit.pure a) := fun _ => ⟨rfl, by simp [Edit.pure]⟩

theorem tacit_bind {x : Edit α} {f : α → Edit β} (hx : Tacit x) (hf : ∀ a, Tacit (f a)) :
    Tacit (Edit.bind x f) := by
  intro d
  have hd := hx d
  unfold Edit.bind
  cases he : x d with
  | mk result document changes =>
      rw [he] at hd
      cases result with
      | error e => exact hd
      | ok a =>
          obtain ⟨hdoc, hseen⟩ := hf a document
          refine ⟨hdoc.trans hd.1, fun c hc => ?_⟩
          rcases List.mem_append.mp hc with hc | hc
          · exact hd.2 c hc
          · exact (hseen c hc).trans hd.1

theorem tacit_each {f : β → Edit Unit} (hf : ∀ b, Tacit (f b)) (bs : List β) :
    Tacit (Edit.each bs f) := by
  induction bs with
  | nil => exact tacit_pure ()
  | cons b bs ih => exact tacit_bind (hf b) fun _ => ih

theorem Tacit.giving {edit : Edit α} (h : Tacit edit) (ids : α → List NodeId) :
    Tacit (edit.giving ids) := h

end Edit

namespace Document

open Edit

theorem tacit_create (kind : NodeKind) : Tacit (create kind) := fun d =>
  ⟨registry_create kind, by simp [(create_result kind d).2]⟩

theorem tacit_appendChild (parent child : NodeId) : Tacit (appendChild parent child) := by
  intro d
  unfold appendChild
  split
  · split_ifs
    · simp [Edit.fail]
    · simp [Edit.fail]
    · simp [Edit.fail]
    · split <;> simp
  · simp [Edit.fail]

theorem tacit_removeChild (parent child : NodeId) : Tacit (removeChild parent child) := by
  intro d
  unfold removeChild
  split <;> simp [Edit.fail]

theorem tacit_remove (id : NodeId) : Tacit (remove id) := by
  intro d
  unfold remove
  split
  · simp [Edit.fail]
  · split
    · rename_i parent _
      obtain ⟨hdoc, hseen⟩ := tacit_removeChild parent id d
      exact ⟨registry_vacateAll.trans hdoc, hseen⟩
    · simp

theorem tacit_release (id : NodeId) : Tacit (release id) := by
  intro d
  unfold release
  split
  · simp [Edit.fail]
  · split_ifs <;> simp [Edit.fail]

theorem tacit_setAttribute (id : NodeId) (name value : String) :
    Tacit (setAttribute id name value) := by
  intro d
  unfold setAttribute
  split <;> simp

theorem tacit_removeAttribute (id : NodeId) (name : String) :
    Tacit (removeAttribute id name) := by
  intro d
  unfold removeAttribute
  split
  · simp
  · split <;> simp

theorem tacit_setText (id : NodeId) (text : String) : Tacit (setText id text) := by
  intro d
  unfold setText
  split
  · simp
  · split
    · simp
    · unfold replaceChildren
      dsimp only
      split <;> simp

namespace Operation

-- Whether an operation is about the registrations.
def registers : Operation → Bool
  | .observe _ | .disconnect _ => true
  | _ => false

theorem tacit_edit {op : Operation} (h : op.registers = false) : Tacit op.edit := by
  cases op with
  | createElement tag => exact (tacit_create _).giving _
  | createText data => exact (tacit_create _).giving _
  | appendChild parent child => exact (tacit_appendChild parent child).giving _
  | removeChild parent child => exact (tacit_removeChild parent child).giving _
  | remove id => exact (tacit_remove id).giving _
  | release id => exact (tacit_release id).giving _
  | setAttribute id name value => exact (tacit_setAttribute id name value).giving _
  | removeAttribute id name => exact (tacit_removeAttribute id name).giving _
  | setText id text => exact (tacit_setText id text).giving _
  | setTitle text => exact (tacit_setText title text).giving _
  | observe target => simp [registers] at h
  | disconnect observer => simp [registers] at h

end Operation

-- The registrations stand in the order of their ids, which are never given twice.
structure Numbered (d : Document) : Prop where
  increasing : (d.observers.map (·.id)).Pairwise (· < ·)
  bounded : ∀ o ∈ d.observers, o.id < d.nextObserver

theorem numbered_empty : empty.Numbered := ⟨by simp [empty], by simp [empty]⟩

theorem Numbered.of_registry {d d' : Document} (hn : d.Numbered) (h : d'.registry = d.registry) :
    d'.Numbered where
  increasing := by
    rw [observers_of_registry h]
    exact hn.increasing
  bounded := by
    rw [observers_of_registry h, nextObserver_of_registry h]
    exact hn.bounded

theorem Numbered.observe {d : Document} (hn : d.Numbered) (target : NodeId) :
    (Document.observe target d).document.Numbered where
  increasing := by
    have hlt : ∀ i ∈ d.observers.map (·.id), i < d.nextObserver := by
      simpa using hn.bounded
    simpa [Document.observe, List.pairwise_append, hn.increasing] using hlt
  bounded o ho := by
    rcases List.mem_append.mp ho with ho | ho
    · exact Nat.lt_succ_of_lt (hn.bounded o ho)
    · rw [List.mem_singleton.mp ho]
      exact Nat.lt_succ_self _

theorem Numbered.disconnect {d : Document} (hn : d.Numbered) (id : ObserverId) :
    (Document.disconnect id d).document.Numbered where
  increasing :=
    hn.increasing.sublist (List.filter_sublist.map _)
  bounded o ho := hn.bounded o (List.mem_filter.mp ho).1

theorem Numbered.edit {d : Document} (hn : d.Numbered) (op : Operation) :
    (op.edit d).document.Numbered := by
  by_cases h : op.registers = true
  · cases op with
    | observe target => exact hn.observe target
    | disconnect observer => exact hn.disconnect observer
    | _ => simp [Operation.registers] at h
  · exact hn.of_registry (Operation.tacit_edit (by simpa using h) d).1

end Document

namespace Translation

open Document Edit

theorem tacit_write (e : NodeId) (target : Target) (v : String) : Tacit (write e target v) := by
  intro d
  unfold write
  split
  · split
    · exact tacit_pure () d
    · exact tacit_setText e v d
  · split
    · split
      · exact tacit_pure () d
      · exact tacit_setAttribute e _ v d
    · split
      · exact tacit_pure () d
      · exact tacit_setAttribute e _ v d

theorem tacit_applyTo (c : Catalog) (l : Locale) (D : Directive) (e : NodeId) :
    Tacit (applyTo c l D e) := by
  intro d
  unfold applyTo
  split
  · exact tacit_write e D.target _ d
  · exact tacit_pure () d

theorem tacit_pass (c : Catalog) (l : Locale) (root : NodeId) : Tacit (pass c l root) := by
  refine tacit_bind (tacit_each (fun D d => ?_) _) fun _ d => ?_
  · exact tacit_each (tacit_applyTo c l D) (D.collect d root) d
  · split
    · unfold retitle
      dsimp only
      split
      · exact tacit_pure () d
      · exact tacit_setText title _ d
    · exact tacit_pure () d

end Translation

namespace Engine

open Edit

theorem tacit_mark (e : Engine) (locale : Locale) : Tacit (e.mark locale) := by
  have hensure : ∀ id name value, Tacit (ensureAttribute id name value) := by
    intro id name value d
    unfold ensureAttribute
    split
    · exact tacit_pure () d
    · exact Document.tacit_setAttribute id name value d
  exact tacit_bind (hensure _ _ _) fun _ => hensure _ _ _

theorem tacit_translate (e : Engine) (locale : Locale) (root : NodeId) :
    Tacit (e.translate locale root) := Translation.tacit_pass e.catalog locale root

end Engine
end PageLocalizer
