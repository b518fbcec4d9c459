import PageLocalizer.Document.Sketch
import PageLocalizer.Proofs.Edit
import PageLocalizer.Proofs.Document.Redrawing

-- How a page grows: elements are made, given their attributes, put in their place and given a text,
-- and nothing else happens.
namespace PageLocalizer.Document

variable {d d' : Document} {p x y : NodeId} {place : Option NodeId} {e : Element}
  {before as : List (String × String)} {tag name value text : String}

-- The texts of an element that has a text, or of one that has none.
def HoldsOnly (d : Document) (x : NodeId) (text : String) : Prop :=
  (text = "" ∧ d.children x = []) ∨
    (text ≠ "" ∧ ∃ t, d.children x = [t] ∧ d.kind? t = some (.text text))

theorem HoldsOnly.holdsText (h : d.HoldsOnly x text) : d.HoldsText x := by
  intro t ht
  obtain ⟨-, hnil⟩ | ⟨-, s, hs, hk⟩ := h
  · simp [hnil] at ht
  · obtain rfl : t = s := by simpa [hs] using ht
    exact isText_iff.mpr ⟨text, hk⟩

theorem HoldsOnly.children_nil (h : d.HoldsOnly x "") : d.children x = [] := by
  obtain ⟨-, hnil⟩ | ⟨hne, -⟩ := h
  · exact hnil
  · exact absurd rfl hne

theorem HoldsOnly.ownText (h : d.HoldsOnly x text) : d.ownText x = text := by
  obtain ⟨rfl, hnil⟩ | ⟨-, s, hs, hk⟩ := h
  · simp [Document.ownText, hnil]
  · simp [Document.ownText, hs, textData?, hk]

theorem HoldsOnly.congr (h : d.HoldsOnly x text) (hc : d'.children x = d.children x)
    (hk : ∀ t ∈ d.children x, d'.kind? t = d.kind? t) : d'.HoldsOnly x text := by
  obtain ⟨ht, hnil⟩ | ⟨ht, s, hs, hks⟩ := h
  · exact .inl ⟨ht, hc.trans hnil⟩
  · exact .inr ⟨ht, s, hc.trans hs, (hk s (by simp [hs])).trans hks⟩

section Joining

variable (hp : d.Alive p) (hx : d.Alive x)

include hp hx

theorem children_link (y : NodeId) :
    (d.link p x).children y = if y = p then d.children p ++ [x] else d.children y :=
  children_of_links (links_link hp.1 hx.1) y

theorem parent?_link (y : NodeId) :
    (d.link p x).parent? y = if y = x then some p else d.parent? y :=
  parent?_of_links (links_link hp.1 hx.1) y

-- What stands apart is below nothing, so its new place moves nobody else.
theorem under_link (hnone : d.parent? x = none) (hu : d.links.Under y z) :
    (d.link p x).links.Under y z := by
  refine hu.mono fun c q hq => ?_
  have hne : c ≠ x := by
    rintro rfl
    simp [links, hnone] at hq
  calc (d.link p x).parent? c
    _ = if c = x then some p else d.parent? c := parent?_link hp hx c
    _ = d.parent? c := if_neg hne
    _ = some q := hq

-- An element that stands apart is put in its place.
theorem gives_appendChild (hw : d.WellFormed) (ht : d.isText p = false)
    (hk : d.kind? x = some (.element e)) (hnone : d.parent? x = none)
    (hunder : ¬d.links.Under p x) :
    Edit.Gives (appendChild p x) d () (d.link p x) ∧ (d.link p x).WellFormed := by
  obtain ⟨parent, hpn⟩ := Option.isSome_iff_exists.mp hp.1
  obtain ⟨child, hxn⟩ := Option.isSome_iff_exists.mp hx.1
  have hcontains : d.contains x p = false := by
    rw [Bool.eq_false_iff]
    exact fun hc => hunder ((contains_iff hw.forest _ _).mp hc)
  have hpk : parent.kind.isText = false := by
    rw [← WellFormed.isText_of_kind? (kind?_of_node? hpn)]
    exact ht
  have hxk : child.kind = .element e := Option.some.inj ((kind?_of_node? hxn).symm.trans hk)
  have hxp : child.parent = none := (parent?_of_node? hxn).symm.trans hnone
  have hedit : appendChild p x d = ⟨.ok (), d.link p x,
      [⟨⟨p, .children [x] []⟩, d.link p x⟩]⟩ := by
    simp [appendChild, hpn, hxn, hpk, hxk, hcontains, hxp]
  have hroot : x ≠ root := by
    rintro rfl
    rw [hw.root_kind] at hk
    simp at hk
  exact ⟨by simp [Edit.Gives, hedit], hw.link hp hx ht hroot hnone hunder⟩

end Joining

-- A new element with a text has joined the page. Nobody else is new but that text, and all others
-- are as they were, except that the parent has one more child.
structure Planted (d : Document) (place : Option NodeId) (e : Element) (text : String)
    (d' : Document) : Prop where
  wellFormed : d'.WellFormed
  alive : ∀ y, d.Alive y → d'.Alive y
  kind? : ∀ y, d.Alive y → d'.kind? y = d.kind? y
  parent? : ∀ y, d.Alive y → d'.parent? y = d.parent? y
  children : ∀ y, d.Alive y → d'.children y =
    if place = some y then d.children y ++ [d.nextId] else d.children y
  joined : ∀ y, d'.Alive y → d.Alive y ∨ y = d.nextId ∨ y ∈ d'.children d.nextId
  self : d'.kind? d.nextId = some (.element e)
  place : d'.parent? d.nextId = place
  text : d'.HoldsOnly d.nextId text

theorem planted_createElement (hw : d.WellFormed) (tag : String) :
    d.Planted none ⟨tag.toLower, []⟩ "" (createElement tag d).document := by
  have hv := hw.vacancies
  have hkind : ∀ y, (createElement tag d).document.kind? y =
      if y = d.nextId then some (bareElement tag) else d.kind? y := kind?_create hv
  have hlinks : (createElement tag d).document.links = d.links := links_create hv
  have hne : ∀ y, d.Alive y → y ≠ d.nextId := by
    rintro y ha rfl
    exact d.not_alive_nextId ha
  constructor
  · exact hw.create (by simp [bareElement]) (by simp [bareElement, NodeKind.names])
  · exact fun y ha => (alive_create hv y).mpr (.inl ha)
  · exact fun y ha => (hkind y).trans (if_neg (hne y ha))
  · exact fun y _ => parent?_of_links hlinks y
  · exact fun y _ => children_of_links hlinks y
  · exact fun y hy => ((alive_create hv y).mp hy).imp_right .inl
  · exact (hkind d.nextId).trans (if_pos rfl)
  · exact (parent?_of_links hlinks _).trans (unlinked_nextId hv).1
  · exact .inl ⟨rfl, (children_of_links hlinks _).trans (unlinked_nextId hv).2⟩

theorem createElement_result (tag : String) (d : Document) :
    (createElement tag d).result = .ok d.nextId := (create_result _ d).1

namespace Planted

theorem ne_nextId (ha : d.Alive y) : y ≠ d.nextId := by
  rintro rfl
  exact d.not_alive_nextId ha

theorem alive_self (h : d.Planted place e text d') : d'.Alive d.nextId :=
  h.wellFormed.alive_of_kind? h.self rfl

-- No other element is new.
theorem only (h : d.Planted place e text d') (y : NodeId) (hy : d'.isElement y = true) :
    d.Alive y ∨ y = d.nextId := by
  have ha := h.wellFormed.alive_of_isContainer (isContainer_of_isElement hy)
  refine (h.joined y ha).imp_right fun hself => hself.resolve_right fun hc => ?_
  have htext := h.text.holdsText y hc
  simp [isText_of_isContainer (isContainer_of_isElement hy)] at htext

theorem setAttribute (h : d.Planted place e text d') (name value : String) :
    d.Planted place ⟨e.tag, setEntry name value e.attributes⟩ text
      (setAttribute d.nextId name value d').document := by
  have hel : d'.element? d.nextId = some e := element?_of_kind? h.self
  have hdoc : (Document.setAttribute d.nextId name value d').document =
      d'.withAttributes d.nextId e (setEntry name value e.attributes) := by
    simp [Document.setAttribute, hel]
  obtain ⟨hw, hsame⟩ := h.wellFormed.setAttribute d.nextId name value
  rw [hdoc] at hw hsame ⊢
  have hkind : ∀ y, (d'.withAttributes d.nextId e (setEntry name value e.attributes)).kind? y =
      if y = d.nextId then some (.element ⟨e.tag, setEntry name value e.attributes⟩)
      else d'.kind? y := kind?_modifyKind h.alive_self.1 _
  have hlinks : (d'.withAttributes d.nextId e (setEntry name value e.attributes)).links =
      d'.links := links_modifyKind _
  have hothers : ∀ y, d.Alive y →
      (d'.withAttributes d.nextId e (setEntry name value e.attributes)).kind? y = d.kind? y := by
    intro y ha
    calc (d'.withAttributes d.nextId e (setEntry name value e.attributes)).kind? y
      _ = if y = d.nextId then some (.element ⟨e.tag, setEntry name value e.attributes⟩)
          else d'.kind? y := hkind y
      _ = d'.kind? y := if_neg (ne_nextId ha)
      _ = d.kind? y := h.kind? y ha
  constructor
  · exact hw
  · exact fun y ha => (hsame.alive_iff y).mpr (h.alive y ha)
  · exact hothers
  · exact fun y ha => (parent?_of_links hlinks y).trans (h.parent? y ha)
  · exact fun y ha => (children_of_links hlinks y).trans (h.children y ha)
  · intro y hy
    rw [children_of_links hlinks]
    exact h.joined y ((hsame.alive_iff y).mp hy)
  · exact (hkind d.nextId).trans (if_pos rfl)
  · exact (parent?_of_links hlinks _).trans h.place
  · refine h.text.congr (children_of_links hlinks _) fun t ht => ?_
    refine (hkind t).trans (if_neg ?_)
    rintro rfl
    have htext := h.text.holdsText _ ht
    simp [isText, h.self, NodeKind.isText] at htext

theorem setAttribute_result (id : NodeId) (name value : String) (d : Document) :
    (Document.setAttribute id name value d).result = .ok () := by
  unfold Document.setAttribute
  split <;> rfl

private theorem setEntry_of_not_mem (h : name ∉ before.map Prod.fst) :
    setEntry name value before = before ++ [(name, value)] := by
  induction before with
  | nil => rfl
  | cons first rest ih =>
      obtain ⟨n, v⟩ := first
      simp only [List.map_cons, List.mem_cons, not_or] at h
      rw [setEntry, if_neg (Ne.symm h.1), ih h.2, List.cons_append]

-- Attributes with names of their own stand in the order in which they are set.
theorem setAttributes (h : d.Planted place ⟨tag, before⟩ text d')
    (hn : ((before ++ as).map Prod.fst).Nodup) :
    ∃ d'', Edit.Gives (Document.setAttributes d.nextId as) d' () d'' ∧
      d.Planted place ⟨tag, before ++ as⟩ text d'' := by
  induction as generalizing before d' with
  | nil => exact ⟨d', ⟨rfl, rfl⟩, by rwa [List.append_nil]⟩
  | cons first rest ih =>
      obtain ⟨name, value⟩ := first
      have hnew : name ∉ before.map Prod.fst := by
        simp only [List.map_append, List.map_cons, List.nodup_append] at hn
        exact fun hm => hn.2.2 name hm name (by simp) rfl
      have hstep := h.setAttribute name value
      rw [setEntry_of_not_mem hnew] at hstep
      obtain ⟨d'', hrest, hplanted⟩ := ih hstep (by simpa using hn)
      have hset : Edit.Gives (Document.setAttribute d.nextId name value) d' () _ :=
        ⟨setAttribute_result d.nextId name value d', rfl⟩
      exact ⟨d'', hset.bind hrest, by simpa using hplanted⟩

-- An element without texts is put in its place.
theorem appendChild (h : d.Planted none e "" d') (hp : d.Alive p) (ht : d.isText p = false) :
    ∃ d'', Edit.Gives (Document.appendChild p d.nextId) d' () d'' ∧
      d.Planted (some p) e "" d'' := by
  have hpa := h.alive p hp
  have hself := h.alive_self
  have htext : d'.isText p = false := (isText_congr (h.kind? p hp)).trans ht
  have hnil : d'.children d.nextId = [] := h.text.children_nil
  have hunder : ¬d'.links.Under p d.nextId := fun hu =>
    ne_nextId hp (h.wellFormed.forest.eq_of_children_nil hu hnil)
  obtain ⟨hgives, hw⟩ := gives_appendChild hpa hself h.wellFormed htext h.self h.place hunder
  refine ⟨d'.link p d.nextId, hgives, ?_⟩
  constructor
  · exact hw
  · exact fun y ha => (sameTenants_link.alive_iff y).mpr (h.alive y ha)
  · exact fun y ha => (kind?_link y).trans (h.kind? y ha)
  · intro y ha
    rw [parent?_link hpa hself, if_neg (ne_nextId ha), h.parent? y ha]
  · intro y ha
    have hold : ∀ y, d.Alive y → d'.children y = d.children y := fun y ha => by
      simpa using h.children y ha
    rw [children_link hpa hself]
    by_cases hy : y = p
    · simp [hy, hold p hp]
    · simp [hy, Ne.symm hy, hold y ha]
  · intro y hy
    rw [children_link hpa hself, if_neg (Ne.symm (ne_nextId hp))]
    exact h.joined y ((sameTenants_link.alive_iff y).mp hy)
  · exact (kind?_link _).trans h.self
  · rw [parent?_link hpa hself, if_pos rfl]
  · refine .inl ⟨rfl, ?_⟩
    rw [children_link hpa hself, if_neg (Ne.symm (ne_nextId hp)), hnil]

-- An element without texts is given one.
theorem setText (h : d.Planted place e "" d') (text : String) :
    ∃ d'', Edit.Gives (Document.setText d.nextId text) d' () d'' ∧
      d.Planted place e text d'' := by
  have hel : d'.isElement d.nextId = true := isElement_iff.mpr ⟨e, h.self⟩
  have hnil : d'.children d.nextId = [] := h.text.children_nil
  have hgone : d'.goneBelow d.nextId = [] := by simp [goneBelow, hnil]
  have hnew : ∀ y, d.Alive y → y ∉ d'.arrivals text := fun y ha =>
    WellFormed.not_mem_arrivals (h.alive y ha) text
  have hself : d.nextId ∉ d'.arrivals text := WellFormed.not_mem_arrivals h.alive_self text
  rcases h.wellFormed.setText_cases d.nextId text with ⟨hn, -⟩ | ⟨node, target, hn, ht, -, -⟩ |
    ⟨-, -, -, hr, he⟩
  · exact absurd (isSome_of_kind? h.self) (by simp [hn])
  · have hk : node.kind = .element e := Option.some.inj ((kind?_of_node? hn).symm.trans h.self)
    have hc : node.children = [] := (children_of_node? hn).symm.trans hnil
    simp [textTarget?, hk, hc] at ht
  · refine ⟨_, ⟨?_, rfl⟩, ?_⟩
    · rw [he, WellFormed.replaceChildren_eq]
    · have hkind : ∀ y, (Document.setText d.nextId text d').document.Alive y →
          (Document.setText d.nextId text d').document.kind? y =
            if y ∈ d'.arrivals text then some (.text text) else d'.kind? y := hr.kind?
      have halive : ∀ y, d.Alive y → (Document.setText d.nextId text d').document.Alive y :=
        fun y ha => (hr.turnover.alive_iff y).mpr ⟨.inl (h.alive y ha), by simp [hgone]⟩
      have haself : (Document.setText d.nextId text d').document.Alive d.nextId :=
        (hr.turnover.alive_iff _).mpr ⟨.inl h.alive_self, by simp [hgone]⟩
      have hothers : ∀ y, d.Alive y →
          (Document.setText d.nextId text d').document.kind? y = d.kind? y := by
        intro y ha
        calc (Document.setText d.nextId text d').document.kind? y
          _ = if y ∈ d'.arrivals text then some (.text text) else d'.kind? y :=
              hkind y (halive y ha)
          _ = d'.kind? y := if_neg (hnew y ha)
          _ = d.kind? y := h.kind? y ha
      constructor
      · exact hr.wellFormed
      · exact halive
      · exact hothers
      · intro y ha
        have hy : y ∉ d'.children d.nextId ∧ y ∉ d'.goneBelow d.nextId := by simp [hnil, hgone]
        rw [hr.parent? y, if_neg (hnew y ha), if_neg (by simp [hy]), h.parent? y ha]
      · intro y ha
        rw [hr.children y, if_neg (ne_nextId ha), if_neg (by simp [hgone]), h.children y ha]
      · intro y hy
        rw [hr.children d.nextId, if_pos rfl]
        rcases ((hr.turnover.alive_iff y).mp hy).1 with hold | hnew
        · have hjoined := h.joined y hold
          rw [hnil] at hjoined
          exact hjoined.imp_right fun hself => .inl (hself.resolve_right (by simp))
        · exact .inr (.inr hnew)
      · exact (hkind _ haself).trans ((if_neg hself).trans h.self)
      · rw [hr.parent? d.nextId, if_neg hself, if_neg (by simp [hnil, hgone]), h.place]
      · have hchildren := hr.children d.nextId
        rw [if_pos rfl] at hchildren
        by_cases ht : text = ""
        · exact .inl ⟨ht, hchildren.trans (if_pos ht)⟩
        · have harr : d'.arrivals text = [d'.nextId] := if_neg ht
          have hat : (Document.setText d.nextId text d').document.Alive d'.nextId :=
            (hr.turnover.alive_iff _).mpr ⟨.inr (by simp [harr]), by simp [hgone]⟩
          exact .inr ⟨ht, d'.nextId, hchildren.trans harr,
            (hkind _ hat).trans (if_pos (by simp [harr]))⟩

end Planted

section Elements

variable (hw : d.WellFormed) (hp : d.Alive p) (ht : d.isText p = false)

include hw hp ht

-- An element that is made in its place. Its tag has no capitals.
theorem planted_element (htag : tag.toLower = tag) (hn : (as.map Prod.fst).Nodup) :
    ∃ d', Edit.Gives (element p tag as) d d.nextId d' ∧
      d.Planted (some p) ⟨tag, as⟩ "" d' := by
  have hcreate : Edit.Gives (createElement tag) d d.nextId _ := ⟨createElement_result tag d, rfl⟩
  have hbare := planted_createElement hw tag
  rw [htag] at hbare
  obtain ⟨dressed, hset, hattributes⟩ := hbare.setAttributes (by simpa using hn)
  obtain ⟨placed, hjoin, hplace⟩ := hattributes.appendChild hp ht
  exact ⟨placed, hcreate.bind (hset.bind (hjoin.bind ⟨rfl, rfl⟩)), hplace⟩

theorem planted_textElement (htag : tag.toLower = tag) (hn : (as.map Prod.fst).Nodup)
    (text : String) : ∃ d', Edit.Gives (textElement p tag as text) d d.nextId d' ∧
      d.Planted (some p) ⟨tag, as⟩ text d' := by
  obtain ⟨placed, helement, hplaced⟩ := planted_element hw hp ht htag hn
  obtain ⟨filled, htext, hfilled⟩ := hplaced.setText text
  exact ⟨filled, helement.bind (htext.bind ⟨rfl, rfl⟩), hfilled⟩

end Elements
end PageLocalizer.Document
