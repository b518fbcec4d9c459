import PageLocalizer.Proofs.Document.Rendering

-- The subtree of a node as a tree of its own, and how much of it the markup shows.
namespace PageLocalizer

namespace Markup

-- The characters of proper names.
def isNameChar (c : Char) : Bool := c.isAlphanum || c == '-' || c == '_'

def IsName (s : String) : Prop := s ≠ "" ∧ ∀ c ∈ s.toList, isNameChar c = true

-- Only the characters of the text are looked at, not all that there are.
instance (s : String) : Decidable (IsName s) :=
  @instDecidableAnd _ _ inferInstance (List.decidableBAll (p := (isNameChar · = true)) s.toList)

end Markup

inductive Outline where
  | document (children : List Outline)
  | element (tag : String) (attributes : List (String × String)) (children : List Outline)
  | text (data : String)

namespace Outline

open Markup

-- Puts a tree in front of others. Empty text is dropped, and text joins the text that follows it.
def join : Outline → List Outline → List Outline
  | .text data, rest =>
    if data = "" then rest
    else match rest with
      | .text more :: others => .text (data ++ more) :: others
      | _ => .text data :: rest
  | first, rest => first :: rest

mutual

-- The tree without the children of void elements and without empty texts, texts side by side put
-- together.
def normal : Outline → Outline
  | .document children => .document (normalAll children)
  | .element tag attributes children =>
    .element tag attributes (if tag ∈ voidTags then [] else normalAll children)
  | .text data => .text data
termination_by structural o => o

def normalAll : List Outline → List Outline
  | [] => []
  | first :: rest => first.normal.join (normalAll rest)
termination_by structural os => os

end

mutual

def markup : Outline → List Char
  | .document children => doctype ++ markupAll children
  | .element tag attributes children =>
    if tag ∈ voidTags then openTag ⟨tag, attributes⟩
    else openTag ⟨tag, attributes⟩ ++ markupAll children ++ closeTag ⟨tag, attributes⟩
  | .text data => escape false data
termination_by structural o => o

def markupAll : List Outline → List Char
  | [] => []
  | first :: rest => first.markup ++ markupAll rest
termination_by structural os => os

end

mutual

-- Elements and texts in which tags and attributes have proper names.
def Named : Outline → Prop
  | .document _ => False
  | .element tag attributes children =>
    IsName tag ∧ (∀ a ∈ attributes, IsName a.1) ∧ NamedAll children
  | .text _ => True
termination_by structural o => o

def NamedAll : List Outline → Prop
  | [] => True
  | first :: rest => first.Named ∧ NamedAll rest
termination_by structural os => os

end

-- The document itself may stand at the top.
def WellNamed : Outline → Prop
  | .document children => NamedAll children
  | o => o.Named

theorem join_text_nil (os : List Outline) : join (.text "") os = os := by simp [join]

theorem join_text_join (a b : String) (os : List Outline) :
    join (.text a) (join (.text b) os) = join (.text (a ++ b)) os := by
  by_cases ha : a = ""
  · simp [ha, join_text_nil]
  · by_cases hb : b = ""
    · simp [hb, join_text_nil]
    · have hab : a ++ b ≠ "" := by simp [ha]
      cases os with
      | nil => simp [join, ha, hb]
      | cons next rest => cases next <;> simp [join, ha, hb, String.append_assoc]

-- A single tree can be told from its place among no others.
theorem normal_eq_of_normalAll {o o' : Outline} (h : normalAll [o] = normalAll [o']) :
    o.normal = o'.normal := by
  cases o <;> cases o' <;> simp_all [normalAll, normal, join] <;> grind

theorem namedAll_iff {os : List Outline} : NamedAll os ↔ ∀ o ∈ os, o.Named := by
  induction os with
  | nil => simp [NamedAll]
  | cons first rest ih => simp [NamedAll, ih]

private theorem markupAll_eq_flatMap (os : List Outline) : markupAll os = os.flatMap markup := by
  induction os with
  | nil => rfl
  | cons first rest ih => rw [markupAll, ih, List.flatMap_cons]

end Outline

namespace Document

variable {d : Document} {x : NodeId} {e : Element} {n : Nat}

-- The subtree of a node up to `levels - 1` levels below it. A node that is not there shows nothing.
def outlineTo (d : Document) : Nat → NodeId → Outline
  | 0, _ => .text ""
  | levels + 1, id =>
    match d.kind? id with
    | some .document => .document ((d.children id).map (d.outlineTo levels))
    | some (.element e) => .element e.tag e.attributes ((d.children id).map (d.outlineTo levels))
    | some (.text data) => .text data
    | none => .text ""

def outline (d : Document) (id : NodeId) : Outline := d.outlineTo (d.allocated + 1) id

theorem markup_outlineTo (n : Nat) (x : NodeId) : (d.outlineTo n x).markup = d.markup n x := by
  induction n generalizing x with
  | zero => simp [outlineTo, Outline.markup, markup, Markup.escape]
  | succ n ih =>
      have hchildren : Outline.markupAll ((d.children x).map (d.outlineTo n)) =
          (d.children x).flatMap (d.markup n) := by
        rw [Outline.markupAll_eq_flatMap, List.flatMap_map]
        exact List.flatMap_congr fun c _ => ih c
      unfold outlineTo markup
      cases d.kind? x with
      | none => simp [Outline.markup, Markup.escape]
      | some kind => cases kind <;> simp only [Outline.markup, hchildren]

private theorem outlineTo_succ_eq (hf : d.links.Forest) (h : d.allocated ≤ d.depth x + n) :
    d.outlineTo (n + 2) x = d.outlineTo (n + 1) x := by
  refine level_succ_eq hf (fun n m y hchild => ?_) h
  unfold outlineTo
  rw [List.map_congr_left hchild]

-- The levels never run out: below a node are the subtrees of its children.
private theorem outline_eq (hf : d.links.Forest) (x : NodeId) : d.outline x =
    match d.kind? x with
    | some .document => .document ((d.children x).map d.outline)
    | some (.element e) => .element e.tag e.attributes ((d.children x).map d.outline)
    | some (.text data) => .text data
    | none => .text "" := by
  have hchild : (d.children x).map (d.outlineTo d.allocated) = (d.children x).map d.outline := by
    refine List.map_congr_left fun c hc => ?_
    have hp := hf.parent_of_mem hc
    have hle := depth_le hf hp
    have heq := depth_of_parent hf hp
    obtain ⟨n, hn⟩ : ∃ n, d.allocated = n + 1 := Nat.exists_eq_succ_of_ne_zero (by omega)
    have hmore : d.allocated ≤ d.depth c + n := by omega
    rw [outline, hn]
    exact (outlineTo_succ_eq hf hmore).symm
  rw [← hchild]
  rfl

-- All tags and attributes at and below a node have proper names.
def WellNamed (d : Document) (x : NodeId) : Prop :=
  ∀ y ∈ d.subtree x, ∀ e, d.element? y = some e →
    Markup.IsName e.tag ∧ ∀ a ∈ e.attributes, Markup.IsName a.1

instance (d : Document) (x : NodeId) : Decidable (d.WellNamed x) :=
  decidable_of_iff (∀ y ∈ d.subtree x, ∀ e ∈ d.element? y,
    Markup.IsName e.tag ∧ ∀ a ∈ e.attributes, Markup.IsName a.1) Iff.rfl

theorem WellFormed.kind?_ne_document {c p : NodeId} (hw : d.WellFormed)
    (hp : d.parent? c = some p) : d.kind? c ≠ some .document := by
  intro hk
  rw [hw.document_eq c (hw.alive_of_parent? hp).1 hk, hw.root_parent] at hp
  simp at hp

theorem named_outlineTo (hw : d.WellFormed) (hn : d.WellNamed x) (n : Nat) {y : NodeId}
    (hy : d.links.Under y x) (hk : d.kind? y ≠ some .document) : (d.outlineTo n y).Named := by
  induction n generalizing y with
  | zero => simp [outlineTo, Outline.Named]
  | succ n ih =>
      unfold outlineTo
      cases hkind : d.kind? y with
      | none => trivial
      | some kind =>
          cases kind with
          | document => exact absurd hkind hk
          | text data => trivial
          | element e =>
              have hsub := (mem_subtree_iff hw.forest).mpr hy
              obtain ⟨htag, hattr⟩ := hn y hsub e (element?_of_kind? hkind)
              refine ⟨htag, hattr, Outline.namedAll_iff.mpr fun o ho => ?_⟩
              obtain ⟨c, hc, rfl⟩ := List.mem_map.mp ho
              have hp := hw.forest.parent_of_mem hc
              exact ih ((Links.under_of_parent hp).trans hy) (hw.kind?_ne_document hp)

theorem wellNamed_outline (hw : d.WellFormed) (hn : d.WellNamed x) : (d.outline x).WellNamed := by
  by_cases hk : d.kind? x = some .document
  · rw [outline_eq hw.forest, hk]
    refine Outline.namedAll_iff.mpr fun o ho => ?_
    obtain ⟨c, hc, rfl⟩ := List.mem_map.mp ho
    have hp := hw.forest.parent_of_mem hc
    exact named_outlineTo hw hn _ (Links.under_of_parent hp) (hw.kind?_ne_document hp)
  · have hnamed := named_outlineTo hw hn (d.allocated + 1) (.refl _ x) hk
    rw [outline]
    cases ho : d.outlineTo (d.allocated + 1) x with
    | document children => simp [ho, Outline.Named] at hnamed
    | element tag attributes children =>
        rw [ho] at hnamed
        exact hnamed
    | text data => trivial

end Document
end PageLocalizer
