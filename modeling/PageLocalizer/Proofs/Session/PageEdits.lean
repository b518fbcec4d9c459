import PageLocalizer.Proofs.Document.Registrations
import PageLocalizer.Proofs.Translation.Marking
import PageLocalizer.Session.Page

-- Whatever a step builds or changes on the page comes down to single operations. They leave the
-- registrations alone, and where a locale is shown they write only what the step names.
namespace PageLocalizer

open Document

-- A page becomes another one by operations, one after the other, and these are the changes told.
inductive Document.Turns (ok : Operation → Prop) : Document → List Change → Document → Prop where
  | nil (d : Document) : Turns ok d [] d
  | cons {d d' : Document} {op : Operation} {cs : List Change} : ok op →
      Turns ok (op.edit d).document cs d' → Turns ok d ((op.edit d).changes ++ cs) d'

-- An operation that leaves the registrations alone and writes such attributes only.
structure Document.Operation.Tame (written : String → Prop) (op : Operation) : Prop where
  registers : op.registers = false
  writes : ∀ id name, op.Writes id name → written name

-- An edit that comes down to operations of this kind.
def Edit.Stepwise (written : String → Prop) (x : Edit α) : Prop :=
  ∀ d, Turns (Operation.Tame written) d (x d).changes (x d).document

section Turns

variable {ok ok' : Operation → Prop} {d d' d'' : Document} {cs cs' : List Change}

theorem Document.Turns.trans (h : Turns ok d cs d') (h' : Turns ok d' cs' d'') :
    Turns ok d (cs ++ cs') d'' := by
  induction h with
  | nil d => exact h'
  | cons hop _ ih =>
      rw [List.append_assoc]
      exact .cons hop (ih h')

theorem Document.Turns.mono (h : Turns ok d cs d') (hok : ∀ op, ok op → ok' op) :
    Turns ok' d cs d' := by
  induction h with
  | nil d => exact .nil d
  | cons hop _ ih => exact .cons (hok _ hop) ih

end Turns

namespace Edit

variable {written more : String → Prop} {x : Edit α} {f : α → Outcome}

theorem Stepwise.mono (h : Stepwise written x) (hw : ∀ name, written name → more name) :
    Stepwise more x := fun d =>
  (h d).mono fun _ hop => ⟨hop.registers, fun id name hn => hw name (hop.writes id name hn)⟩

-- No operation strikes anybody off the registrations, not even for a while.
theorem Stepwise.tacit (h : Stepwise written x) : Tacit x := by
  intro d
  have hd := h d
  generalize (x d).changes = cs at hd
  generalize (x d).document = d' at hd
  induction hd with
  | nil d => exact ⟨rfl, nofun⟩
  | cons hop _ ih =>
      obtain ⟨hdoc, hseen⟩ := Operation.tacit_edit hop.registers _
      refine ⟨ih.1.trans hdoc, fun c hc => ?_⟩
      rcases List.mem_append.mp hc with hc | hc
      · exact hseen c hc
      · exact (ih.2 c hc).trans hdoc

theorem stepwise_pure (a : α) : Stepwise written (Edit.pure a) := fun d => .nil d

theorem stepwise_read (f : Document → α) : Stepwise written (Edit.read f) := fun d => .nil d

theorem stepwise_bind {f : α → Edit β} (hx : Stepwise written x)
    (hf : ∀ a, Stepwise written (f a)) : Stepwise written (Edit.bind x f) := by
  intro d
  have hd := hx d
  unfold Edit.bind
  cases he : x d with
  | mk result document changes =>
      rw [he] at hd
      cases result with
      | error e => exact hd
      | ok a => exact hd.trans (hf a document)

theorem stepwise_each {f : β → Edit Unit} {bs : List β}
    (hf : ∀ b ∈ bs, Stepwise written (f b)) : Stepwise written (Edit.each bs f) := by
  induction bs with
  | nil => exact stepwise_pure ()
  | cons b bs ih =>
      exact stepwise_bind (hf b List.mem_cons_self) fun _ =>
        ih fun b hb => hf b (List.mem_cons_of_mem _ hb)

theorem Stepwise.attempt (h : Stepwise written x) : Stepwise written x.attempt := h

theorem Stepwise.answering (h : Stepwise written x) : Stepwise written (x.answering f) := h

-- A single operation, whatever it answers with.
theorem stepwise_edit (op : Operation) (hop : op.Tame written)
    (hd : ∀ d, (x d).document = (op.edit d).document)
    (hc : ∀ d, (x d).changes = (op.edit d).changes) : Stepwise written x := by
  intro d
  have hsingle : Turns (Operation.Tame written) d ((op.edit d).changes ++ [])
      (op.edit d).document := .cons hop (.nil _)
  rw [hd, hc]
  simpa using hsingle

end Edit

open Edit

variable {written : String → Prop}

namespace Document

theorem stepwise_createElement (tag : String) : Stepwise written (createElement tag) :=
  stepwise_edit (.createElement tag) ⟨rfl, nofun⟩ (fun _ => rfl) fun _ => rfl

theorem stepwise_createText (data : String) : Stepwise written (createText data) :=
  stepwise_edit (.createText data) ⟨rfl, nofun⟩ (fun _ => rfl) fun _ => rfl

theorem stepwise_appendChild (parent child : NodeId) :
    Stepwise written (appendChild parent child) :=
  stepwise_edit (.appendChild parent child) ⟨rfl, nofun⟩ (fun _ => rfl) fun _ => rfl

theorem stepwise_removeChild (parent child : NodeId) :
    Stepwise written (removeChild parent child) :=
  stepwise_edit (.removeChild parent child) ⟨rfl, nofun⟩ (fun _ => rfl) fun _ => rfl

theorem stepwise_remove (id : NodeId) : Stepwise written (remove id) :=
  stepwise_edit (.remove id) ⟨rfl, nofun⟩ (fun _ => rfl) fun _ => rfl

theorem stepwise_release (id : NodeId) : Stepwise written (release id) :=
  stepwise_edit (.release id) ⟨rfl, nofun⟩ (fun _ => rfl) fun _ => rfl

theorem stepwise_setText (id : NodeId) (text : String) : Stepwise written (setText id text) :=
  stepwise_edit (.setText id text) ⟨rfl, nofun⟩ (fun _ => rfl) fun _ => rfl

theorem stepwise_setAttribute {name : String} (hname : written name) (id : NodeId)
    (value : String) : Stepwise written (setAttribute id name value) :=
  stepwise_edit (.setAttribute id name value) ⟨rfl, fun _ _ h => h.2 ▸ hname⟩ (fun _ => rfl)
    fun _ => rfl

theorem stepwise_removeAttribute {name : String} (hname : written name) (id : NodeId) :
    Stepwise written (removeAttribute id name) :=
  stepwise_edit (.removeAttribute id name) ⟨rfl, fun _ _ h => h.2 ▸ hname⟩ (fun _ => rfl)
    fun _ => rfl

theorem stepwise_setAttributes {attributes : List (String × String)}
    (h : ∀ entry ∈ attributes, written entry.1) (id : NodeId) :
    Stepwise written (setAttributes id attributes) :=
  stepwise_each fun entry he => stepwise_setAttribute (h entry he) id entry.2

theorem stepwise_element {attributes : List (String × String)}
    (h : ∀ entry ∈ attributes, written entry.1) (parent : NodeId) (tag : String) :
    Stepwise written (element parent tag attributes) :=
  stepwise_bind (stepwise_createElement tag) fun id =>
    stepwise_bind (stepwise_setAttributes h id) fun _ =>
      stepwise_bind (stepwise_appendChild parent id) fun _ => stepwise_pure id

theorem stepwise_textElement {attributes : List (String × String)}
    (h : ∀ entry ∈ attributes, written entry.1) (parent : NodeId) (tag text : String) :
    Stepwise written (textElement parent tag attributes text) :=
  stepwise_bind (stepwise_element h parent tag) fun id =>
    stepwise_bind (stepwise_setText id text) fun _ => stepwise_pure id

theorem stepwise_chain (tag : String) (count : Nat) (last : NodeId) :
    Stepwise written (chain tag count last) := by
  induction count generalizing last with
  | zero => exact stepwise_pure last
  | succ count ih =>
      exact stepwise_bind (stepwise_createElement tag) fun id =>
        stepwise_bind (stepwise_appendChild last id) fun _ => ih id

theorem stepwise_appendTo (parent : Option NodeId) (child : NodeId) :
    Stepwise written (appendTo parent child) := by
  cases parent with
  | none => exact stepwise_pure ()
  | some parent => exact stepwise_appendChild parent child

end Document

namespace Sketch

open Document

mutual

-- The names of the attributes that a subtree is built with.
def attributeNames : Sketch → List String
  | .text _ => []
  | .element _ attributes children _ => attributes.map Prod.fst ++ allAttributeNames children

def allAttributeNames : List Sketch → List String
  | [] => []
  | first :: rest => first.attributeNames ++ allAttributeNames rest

end

mutual

theorem stepwise_build : ∀ (parent : Option NodeId) (sketch : Sketch),
    (∀ name ∈ sketch.attributeNames, written name) → Stepwise written (sketch.build parent)
  | parent, .text data, _ => by
      unfold build
      refine stepwise_bind (stepwise_createText data) fun id =>
        stepwise_bind (stepwise_appendTo parent id).attempt fun appended => ?_
      cases appended <;> exact stepwise_pure _
  | parent, .element tag attributes children name, h => by
      unfold build
      have hown : ∀ entry ∈ attributes, written entry.1 := fun entry he =>
        h entry.1 (List.mem_append_left _ (List.mem_map_of_mem he))
      refine stepwise_bind (stepwise_createElement tag) fun id =>
        stepwise_bind (stepwise_setAttributes hown id) fun _ => ?_
      refine stepwise_bind (stepwise_appendTo parent id).attempt fun appended => ?_
      cases appended with
      | error e => exact stepwise_pure _
      | ok _ =>
          have hbelow : ∀ name ∈ allAttributeNames children, written name := fun name hn =>
            h name (List.mem_append_right _ hn)
          refine stepwise_bind (stepwise_buildAll id children hbelow) fun below => ?_
          split <;> exact stepwise_pure _

theorem stepwise_buildAll : ∀ (parent : NodeId) (sketches : List Sketch),
    (∀ name ∈ allAttributeNames sketches, written name) →
      Stepwise written (buildAll parent sketches)
  | _, [], _ => by
      unfold buildAll
      exact stepwise_pure _
  | parent, first :: rest, h => by
      unfold buildAll
      have hfirst : ∀ name ∈ first.attributeNames, written name := fun name hn =>
        h name (List.mem_append_left _ hn)
      have hrest : ∀ name ∈ allAttributeNames rest, written name := fun name hn =>
        h name (List.mem_append_right _ hn)
      refine stepwise_bind (stepwise_build (some parent) first hfirst) fun built => ?_
      split
      · exact stepwise_pure _
      · exact stepwise_bind (stepwise_buildAll parent rest hrest) fun _ => stepwise_pure _

end

end Sketch

namespace Dashboard

open Document Engine

-- Nothing in the dashboard is built with an attribute that shows a locale.
@[simp] theorem not_mem_shown (name : String) :
    name ∉ shown ↔ name ≠ "data-locale" ∧ name ≠ "lang" := by
  simp [shown, EngineSettings.standard]

theorem stepwise_icon (parent : NodeId) (name : String) (size : Nat) :
    Stepwise (· ∉ shown) (icon parent name size) :=
  stepwise_bind (stepwise_element (by simp) _ _) fun _ =>
    stepwise_bind (stepwise_element (by simp) _ _) fun _ => stepwise_pure ()

namespace Layout

theorem stepwise_backendOption (select : NodeId) (selected : Option String) (b : Backend) :
    Stepwise (· ∉ shown) (backendOption select selected b) := by
  refine stepwise_bind (stepwise_element (by simp) _ _) fun option => ?_
  split
  · exact stepwise_bind (stepwise_setAttribute (by simp) _ _) fun _ => stepwise_setText _ _
  · exact stepwise_bind (stepwise_pure ()) fun _ => stepwise_setText _ _

theorem stepwise_buildHeader (parent : NodeId) (options : LayoutOptions) :
    Stepwise (· ∉ shown) (buildHeader parent options) := by
  refine stepwise_bind (stepwise_element (by simp) _ _) fun header => ?_
  refine stepwise_bind (stepwise_element (by simp) _ _) fun toggle => ?_
  refine stepwise_bind (stepwise_icon _ _ _) fun _ => ?_
  refine stepwise_bind (stepwise_element (by simp) _ _) fun switch => ?_
  refine stepwise_bind (stepwise_textElement (by simp) _ _ _) fun _ => ?_
  refine stepwise_bind (stepwise_element (by simp) _ _) fun select => ?_
  refine stepwise_bind (stepwise_each fun b _ => stepwise_backendOption select _ b) fun _ => ?_
  refine stepwise_bind (stepwise_element (by simp) _ _) fun messages => ?_
  refine stepwise_bind (stepwise_icon _ _ _) fun _ => ?_
  refine stepwise_bind (stepwise_element (by simp) _ _) fun language => ?_
  refine stepwise_bind (stepwise_textElement (by simp) _ _ _) fun _ => ?_
  refine stepwise_bind (stepwise_element (by simp) _ _) fun theme => ?_
  refine stepwise_bind (stepwise_element (by simp) _ _) fun themeButton => ?_
  exact stepwise_bind (stepwise_icon _ _ _) fun _ => stepwise_pure header

theorem stepwise_buildMessages (parent : NodeId) (options : LayoutOptions) :
    Stepwise (· ∉ shown) (buildMessages parent options) := by
  refine stepwise_bind (stepwise_element (by simp) _ _) fun container => ?_
  refine stepwise_bind (stepwise_element (by simp) _ _) fun list => ?_
  refine stepwise_bind (stepwise_element (by simp) _ _) fun notice => ?_
  split
  · exact stepwise_bind (stepwise_textElement (by simp) _ _ _) fun _ => stepwise_pure _
  · exact stepwise_pure _

theorem stepwise_navLink (nav : NodeId) (current screen : Screen) :
    Stepwise (· ∉ shown) (navLink nav current screen) := by
  refine stepwise_bind (stepwise_element (by simp) _ _) fun link => ?_
  refine stepwise_bind (stepwise_icon _ _ _) fun _ => ?_
  exact stepwise_bind (stepwise_textElement (by simp) _ _ _) fun _ => stepwise_pure ()

theorem stepwise_buildNav (parent : NodeId) (current : Screen) :
    Stepwise (· ∉ shown) (buildNav parent current) :=
  stepwise_bind (stepwise_element (by simp) _ _) fun nav =>
    stepwise_bind (stepwise_each fun screen _ => stepwise_navLink nav current screen) fun _ =>
      stepwise_pure nav

theorem stepwise_buildFooter (parent : NodeId) (version : String) :
    Stepwise (· ∉ shown) (buildFooter parent version) := by
  refine stepwise_bind (stepwise_element (by simp) _ _) fun footer => ?_
  refine stepwise_bind (stepwise_textElement (by simp) _ _ _) fun _ => ?_
  refine stepwise_bind (stepwise_element (by simp) _ _) fun link => ?_
  exact stepwise_bind (stepwise_icon _ _ _) fun _ => stepwise_pure footer

theorem stepwise_build (options : LayoutOptions) : Stepwise (· ∉ shown) (build options) := by
  refine stepwise_bind (stepwise_setText _ _) fun _ => ?_
  refine stepwise_bind (stepwise_textElement (by simp) _ _ _) fun heading => ?_
  refine stepwise_bind (stepwise_buildHeader _ _) fun header => ?_
  refine stepwise_bind (stepwise_buildMessages _ _) fun messages => ?_
  refine stepwise_bind (stepwise_buildNav _ _) fun nav => ?_
  refine stepwise_bind (stepwise_element (by simp) _ _) fun _ => ?_
  refine stepwise_bind (stepwise_element (by simp) _ _) fun main => ?_
  exact stepwise_bind (stepwise_buildFooter _ _) fun footer => stepwise_pure _

end Layout

namespace ProcessTable

theorem stepwise_build (parent : NodeId) : Stepwise (· ∉ shown) (build parent) := by
  refine stepwise_bind (stepwise_element (by simp) _ _) fun container => ?_
  refine stepwise_bind (stepwise_textElement (by simp) _ _ _) fun _ => ?_
  refine stepwise_bind (stepwise_element (by simp) _ _) fun _ => ?_
  refine stepwise_bind (stepwise_element (by simp) _ _) fun table => ?_
  refine stepwise_bind (stepwise_element (by simp) _ _) fun head => ?_
  have hcell : ∀ column ∈ columns, Stepwise (· ∉ shown) (headCell head column) := fun _ _ =>
    stepwise_bind (stepwise_textElement (by simp) _ _ _) fun _ => stepwise_pure ()
  refine stepwise_bind (stepwise_each hcell) fun _ => ?_
  refine stepwise_bind (stepwise_textElement (by simp) _ _ _) fun count => ?_
  exact stepwise_bind (stepwise_textElement (by simp) _ _ _) fun pager => stepwise_pure _

theorem stepwise_clearRows (table : NodeId) : Stepwise (· ∉ shown) (clearRows table) :=
  stepwise_bind (stepwise_read _) fun _ =>
    stepwise_bind (stepwise_each fun id _ => stepwise_remove id) fun _ => stepwise_pure _

theorem stepwise_setPage (pager : NodeId) (page total : Nat) :
    Stepwise (· ∉ shown) (setPage pager page total) :=
  stepwise_bind (stepwise_setAttribute (by simp) _ _) fun _ => stepwise_setAttribute (by simp) _ _

theorem stepwise_setCount (count : NodeId) (processes : Nat) :
    Stepwise (· ∉ shown) (setCount count processes) := stepwise_setAttribute (by simp) _ _

end ProcessTable

theorem ProcessInfo.stepwise_row (p : ProcessInfo) : Stepwise (· ∉ shown) p.row := by
  refine stepwise_bind (stepwise_createElement _) fun row => ?_
  refine stepwise_bind (stepwise_textElement (by simp) _ _ _) fun _ => ?_
  refine stepwise_bind (stepwise_textElement (by simp) _ _ _) fun _ => ?_
  refine stepwise_bind (stepwise_element (by simp) _ _) fun status => ?_
  refine stepwise_bind (stepwise_textElement (by simp) _ _ _) fun _ => ?_
  refine stepwise_bind (stepwise_textElement (by simp) _ _ _) fun _ => ?_
  refine stepwise_bind (stepwise_textElement (by simp) _ _ _) fun _ => ?_
  refine stepwise_bind (stepwise_element (by simp) _ _) fun cell => ?_
  refine stepwise_bind (stepwise_element (by simp) _ _) fun actions => ?_
  have hbutton : ∀ s ∈ Signal.offered p.status, Stepwise (· ∉ shown) (signalButton actions s) :=
    fun _ _ => stepwise_bind (stepwise_element (by simp) _ _) fun _ => stepwise_icon _ _ _
  exact stepwise_bind (stepwise_each hbutton) fun _ => stepwise_pure row

end Dashboard

open Document Dashboard

namespace PageEdit

-- The names of attributes that a step brings along.
def attributeNames : PageEdit → List String
  | .setAttribute _ attr _ | .removeAttribute _ attr => [attr]
  | .build _ sketch => sketch.attributeNames
  | _ => []

variable {edit : Edit Outcome}

theorem stepwise_of_some {x : Edit α} {f : α → Outcome} (hx : Stepwise written x)
    (h : some (x.answering f) = some edit) : Stepwise written edit :=
  Option.some.inj h ▸ hx.answering

theorem stepwise_of_bind {named : Option NodeId} {f : NodeId → Option (Edit Outcome)}
    (hf : ∀ id, f id = some edit → Stepwise written edit) (h : named.bind f = some edit) :
    Stepwise written edit := by
  obtain ⟨id, -, h⟩ := Option.bind_eq_some_iff.mp h
  exact hf id h

-- Where a locale is shown, a step writes only what it brings along.
theorem stepwise_plan {nodes : Table String NodeId} {e : PageEdit} (h : e.plan nodes = some edit)
    (hown : ∀ name ∈ e.attributeNames, written name)
    (hbuilt : ∀ name, name ∉ Engine.shown → written name) : Stepwise written edit := by
  cases e with
  | create tag name => exact stepwise_of_some (stepwise_createElement tag) h
  | createText data name => exact stepwise_of_some (stepwise_createText data) h
  | append parent child =>
      exact stepwise_of_bind (fun p => stepwise_of_bind fun c =>
        stepwise_of_some (stepwise_appendChild p c)) h
  | removeChild parent child =>
      exact stepwise_of_bind (fun p => stepwise_of_bind fun c =>
        stepwise_of_some (stepwise_removeChild p c)) h
  | remove node => exact stepwise_of_bind (fun id => stepwise_of_some (stepwise_remove id)) h
  | release node => exact stepwise_of_bind (fun id => stepwise_of_some (stepwise_release id)) h
  | setAttribute node attr value =>
      have hattr : written attr := hown attr List.mem_cons_self
      exact stepwise_of_bind (fun id => stepwise_of_some (stepwise_setAttribute hattr id value)) h
  | removeAttribute node attr =>
      have hattr : written attr := hown attr List.mem_cons_self
      exact stepwise_of_bind (fun id => stepwise_of_some (stepwise_removeAttribute hattr id)) h
  | setText node text =>
      exact stepwise_of_bind (fun id => stepwise_of_some (stepwise_setText id text)) h
  | setTitle text => exact stepwise_of_some (stepwise_setText title text) h
  | build parent sketch =>
      have hbuild := fun parent => sketch.stepwise_build parent hown
      cases parent with
      | none => exact stepwise_of_some (hbuild none) h
      | some _ => exact stepwise_of_bind (fun id => stepwise_of_some (hbuild (some id))) h
  | nest parent count tag name =>
      exact stepwise_of_bind (fun id => stepwise_of_some (stepwise_chain tag count id)) h
  | layout options => exact stepwise_of_some ((Layout.stepwise_build options).mono hbuilt) h
  | processTable parent =>
      exact stepwise_of_bind (fun id =>
        stepwise_of_some ((ProcessTable.stepwise_build id).mono hbuilt)) h
  | processRow process name => exact stepwise_of_some (process.stepwise_row.mono hbuilt) h
  | clearRows table =>
      exact stepwise_of_bind (fun id =>
        stepwise_of_some ((ProcessTable.stepwise_clearRows id).mono hbuilt)) h
  | setPage pager page total =>
      exact stepwise_of_bind (fun id =>
        stepwise_of_some ((ProcessTable.stepwise_setPage id page total).mono hbuilt)) h
  | setCount count processes =>
      exact stepwise_of_bind (fun id =>
        stepwise_of_some ((ProcessTable.stepwise_setCount id processes).mono hbuilt)) h

end PageEdit
end PageLocalizer
