import PageLocalizer.Directive
import PageLocalizer.Proofs.Document.Consistency
import PageLocalizer.Proofs.Document.Rendering

-- Three ways to go over a page: the walk down with its stack, the way up along the parents, and
-- the recursion that writes markup. They meet the same nodes, and those who meet them in order do
-- so in the order of the document.
namespace PageLocalizer.Document

-- What a walk gives from a point on until it ends.
inductive Yields (d : Document) : Descent → List NodeId → Prop where
  | done {walk : Descent} : walk.next? d = none → Yields d walk []
  | step {walk walk' : Descent} {id : NodeId} {ids : List NodeId} :
      walk.next? d = some (id, walk') → Yields d walk' ids → Yields d walk (id :: ids)

-- Whether `x` stands before `y`: a node before what lies below it, and a child with all that lies
-- below it before the later children.
def Precedes (d : Document) (x y : NodeId) : Prop :=
  (d.contains x y = true ∧ y ≠ x) ∨
    ∃ p a b, [a, b].Sublist (d.children p) ∧ d.contains a x = true ∧ d.contains b y = true

-- What the writer of markup does with a node.
inductive Visit where
  | enter (id : NodeId)
  | leave (id : NodeId)

def Visit.entered? : Visit → Option NodeId
  | .enter id => some id
  | .leave _ => none

-- The way of the writer down to `levels - 1` levels below a node.
def tourTo (d : Document) : Nat → NodeId → List Visit
  | 0, _ => []
  | levels + 1, id =>
    match d.kind? id with
    | some .document => .enter id :: (d.children id).flatMap (d.tourTo levels)
    | some (.element e) =>
      if e.tag ∈ Markup.voidTags then [.enter id]
      else .enter id :: (d.children id).flatMap (d.tourTo levels) ++ [.leave id]
    | _ => [.enter id]

def tour (d : Document) (id : NodeId) : List Visit := d.tourTo (d.allocated + 1) id

-- What the writer writes at a visit.
def written (d : Document) : Visit → List Char
  | .enter id =>
    match d.kind? id with
    | some .document => Markup.doctype
    | some (.element e) => Markup.openTag e
    | some (.text data) => Markup.escape false data
    | none => []
  | .leave id => ((d.element? id).map Markup.closeTag).getD []

def isVoid (d : Document) (id : NodeId) : Bool :=
  (d.element? id).any fun e => decide (e.tag ∈ Markup.voidTags)

-- Whether `x` lies below a void element of the subtree of `root`.
def Hidden (d : Document) (root x : NodeId) : Prop :=
  ∃ v ∈ d.subtree root, d.isVoid v = true ∧ d.contains v x = true ∧ x ≠ v

instance (d : Document) (root x : NodeId) : Decidable (d.Hidden root x) :=
  inferInstanceAs (Decidable (∃ v ∈ d.subtree root, _ ∧ _ ∧ _))

-- `ids` is what lies below `root`, and all that goes over the page goes by it.
structure Traversed (d : Document) (root : NodeId) (ids : List NodeId) : Prop where
  -- The walk comes to an end, and there is one way only for it to go.
  yields_iff : ∀ given, d.Yields (d.descent root) given ↔ given = ids
  mem_iff : ∀ x, x ∈ ids ↔ d.contains root x = true ∧ x ≠ root
  nodup : ids.Nodup
  sublist_iff : ∀ x y, [x, y].Sublist ids ↔ x ∈ ids ∧ y ∈ ids ∧ d.Precedes x y
  collect : ∀ D : Directive, D.collect d root =
    (root :: ids).filter fun x => d.hasAttribute x D.marker
  collect_nodup : ∀ D : Directive, (D.collect d root).Nodup
  textContent : d.textContent root = String.join ((root :: ids).filterMap d.textData?)
  outerHtml : d.outerHtml root = String.ofList ((d.tour root).flatMap d.written)
  entered : (d.tour root).filterMap Visit.entered? =
    (root :: ids).filter fun x => ¬d.Hidden root x

variable {d : Document} {x y a b c p : NodeId} {ids given : List NodeId} {walk : Descent}
  {n : Nat} {h : Chronicle}

section Iterator

-- The walk has its future on the stack: each pending node with all that lies below it.
theorem Descent.flatMap_of_next? (hf : d.links.Forest) {walk' : Descent}
    (hnext : walk.next? d = some (x, walk')) :
    walk.pending.flatMap d.subtree = x :: walk'.pending.flatMap d.subtree := by
  obtain ⟨pending⟩ := walk
  cases pending with
  | nil => simp [Descent.next?] at hnext
  | cons first rest =>
      simp only [Descent.next?, Option.some.injEq, Prod.mk.injEq] at hnext
      obtain ⟨rfl, rfl⟩ := hnext
      simp [subtree, descendants_eq hf]

private theorem yields_flatMap (hf : d.links.Forest) (walk : Descent) :
    d.Yields walk (walk.pending.flatMap d.subtree) := by
  generalize hlen : (walk.pending.flatMap d.subtree).length = n
  induction n generalizing walk with
  | zero =>
      have hnil : walk.pending = [] := by
        cases hp : walk.pending with
        | nil => rfl
        | cons first rest => simp [hp, subtree] at hlen
      rw [hnil]
      exact .done (by simp [Descent.next?, hnil])
  | succ n ih =>
      cases hnext : walk.next? d with
      | none =>
          have hnil : walk.pending = [] := by
            unfold Descent.next? at hnext
            split at hnext <;> simp_all
          simp [hnil] at hlen
      | some step =>
          obtain ⟨id, walk'⟩ := step
          have hfuture := Descent.flatMap_of_next? hf hnext
          rw [hfuture] at hlen ⊢
          exact .step hnext (ih walk' (by simpa using hlen))

theorem Yields.unique (hy : d.Yields walk ids) (hg : d.Yields walk given) : given = ids := by
  induction hy generalizing given with
  | done hnone =>
      cases hg with
      | done => rfl
      | step hnext => simp [hnone] at hnext
  | step hnext _ ih =>
      cases hg with
      | done hnone => simp [hnone] at hnext
      | step hnext' hg' =>
          obtain ⟨rfl, rfl⟩ : _ ∧ _ := by simpa [hnext] using hnext'
          rw [ih hg']

private theorem yields_descent (hf : d.links.Forest) (root : NodeId) :
    d.Yields (d.descent root) (d.descendants root) := by
  rw [descendants_eq hf]
  exact yields_flatMap hf (d.descent root)

end Iterator

section Fork

-- The ways up from two nodes meet in `p`, and `x` comes up by the earlier child.
def Forks (d : Document) (p x y : NodeId) : Prop :=
  ∃ a b, [a, b].Sublist (d.children p) ∧ d.links.Under x a ∧ d.links.Under y b

variable (hf : d.links.Forest)

include hf

theorem parent_of_sublist (hab : [a, b].Sublist (d.children p)) :
    d.parent? a = some p ∧ d.parent? b = some p :=
  ⟨hf.parent_of_mem (hab.subset (by simp)), hf.parent_of_mem (hab.subset (by simp))⟩

-- No node lies below two children of one parent.
theorem not_under_both (hab : [a, b].Sublist (d.children p)) (hxa : d.links.Under x a) :
    ¬d.links.Under x b := by
  intro hxb
  obtain ⟨ha, hb⟩ := parent_of_sublist hf hab
  have hnd := hab.nodup (hf.nodup p)
  simp [hf.sibling_eq ha hb hxa hxb] at hnd

theorem Forks.under_left (h : d.Forks p x y) : d.links.Under x p := by
  obtain ⟨a, b, hab, hxa, -⟩ := h
  exact hxa.trans (Links.under_of_parent (parent_of_sublist hf hab).1)

theorem Forks.under_right (h : d.Forks p x y) : d.links.Under y p := by
  obtain ⟨a, b, hab, -, hyb⟩ := h
  exact hyb.trans (Links.under_of_parent (parent_of_sublist hf hab).2)

-- Whatever has both nodes below it has their fork below it.
theorem Forks.under (h : d.Forks p x y) (hx : d.links.Under x c) (hy : d.links.Under y c) :
    d.links.Under p c := by
  rcases (h.under_left hf).total hx with hpc | hcp
  · exact hpc
  · by_cases hne : c = p
    · exact hne ▸ .refl _ c
    · obtain ⟨a, b, hab, hxa, hyb⟩ := h
      obtain ⟨e, he, hce⟩ := hcp.child_of_ne hne
      obtain rfl := hf.sibling_eq he (parent_of_sublist hf hab).1 (hx.trans hce) hxa
      exact absurd hyb (not_under_both hf hab (hy.trans hce))

theorem Forks.not_under (h : d.Forks p x y) : ¬d.links.Under x y ∧ ¬d.links.Under y x := by
  obtain ⟨a, b, hab, hxa, hyb⟩ := h
  constructor
  · exact fun hu => not_under_both hf hab hxa (hu.trans hyb)
  · exact fun hu => not_under_both hf hab (hu.trans hxa) hyb

omit hf in
theorem not_sublist_swap (hnd : ids.Nodup) (hab : [a, b].Sublist ids) : ¬[b, a].Sublist ids := by
  intro hba
  induction ids with
  | nil => simp at hab
  | cons first rest ih =>
      obtain ⟨hfirst, hrest⟩ := List.nodup_cons.mp hnd
      cases hab with
      | cons _ hab =>
          cases hba with
          | cons _ hba => exact ih hrest hab hba
          | cons_cons _ => exact hfirst (hab.subset (by simp))
      | cons_cons _ hb =>
          cases hba with
          | cons _ hba => exact hfirst (hba.subset (by simp))
          | cons_cons _ => exact hfirst (hb.subset (by simp))

theorem Forks.asymm (h : d.Forks p x y) : ¬d.Forks p y x := by
  rintro ⟨b', a', hab', hyb', hxa'⟩
  obtain ⟨a, b, hab, hxa, hyb⟩ := h
  obtain ⟨ha, hb⟩ := parent_of_sublist hf hab
  obtain ⟨hb', ha'⟩ := parent_of_sublist hf hab'
  obtain rfl := hf.sibling_eq ha ha' hxa hxa'
  obtain rfl := hf.sibling_eq hb hb' hyb hyb'
  exact not_sublist_swap (hf.nodup p) hab hab'

end Fork

section Order

theorem precedes_iff (hf : d.links.Forest) :
    d.Precedes x y ↔ (d.links.Under y x ∧ y ≠ x) ∨ ∃ p, d.Forks p x y := by
  simp only [Precedes, Forks, contains_iff hf]

theorem Precedes.asymm (hf : d.links.Forest) (hxy : d.Precedes x y) : ¬d.Precedes y x := by
  intro hyx
  rw [precedes_iff hf] at hxy hyx
  rcases hxy with ⟨hu, hne⟩ | ⟨p, hp⟩
  · rcases hyx with ⟨hu', -⟩ | ⟨q, hq⟩
    · exact hne (hf.under_antisymm hu hu')
    · exact (hq.not_under hf).1 hu
  · rcases hyx with ⟨hu', -⟩ | ⟨q, hq⟩
    · exact (hp.not_under hf).1 hu'
    -- Each fork has both nodes below it, so it has the other fork below it as well.
    · have hpq := hp.under hf (hq.under_right hf) (hq.under_left hf)
      have hqp := hq.under hf (hp.under_right hf) (hp.under_left hf)
      obtain rfl := hf.under_antisymm hpq hqp
      exact hp.asymm hf hq

private theorem sublist_or_sublist (hx : x ∈ ids) (hy : y ∈ ids) (hne : x ≠ y) :
    [x, y].Sublist ids ∨ [y, x].Sublist ids := by
  obtain ⟨before, after, rfl⟩ := List.append_of_mem hx
  rcases List.mem_append.mp hy with hy | hy
  · exact Or.inr ((List.singleton_sublist.mpr hy).append (List.singleton_sublist.mpr (by simp)))
  · have hy' : y ∈ after := (List.mem_cons.mp hy).resolve_left (Ne.symm hne)
    have htail := (List.singleton_sublist.mpr hy').cons_cons x
    exact Or.inl (htail.trans (List.sublist_append_right _ _))

private theorem pairwise_subtree (hf : d.links.Forest) (a : NodeId) :
    (d.subtree a).Pairwise d.Precedes := by
  induction a using (children_wellFounded hf).induction with
  | _ a ih =>
    refine List.pairwise_cons.mpr ⟨fun y hy => ?_, ?_⟩
    · exact (precedes_iff hf).mpr (Or.inl ((mem_descendants_iff hf).mp hy))
    · rw [descendants_eq hf, List.pairwise_flatMap]
      refine ⟨fun c hc => ih c hc, List.pairwise_iff_forall_sublist.mpr ?_⟩
      intro c e hce x hx y hy
      exact (precedes_iff hf).mpr
        (Or.inr ⟨a, c, e, hce, (mem_subtree_iff hf).mp hx, (mem_subtree_iff hf).mp hy⟩)

-- The walk gives one node before another exactly when it stands before it.
theorem sublist_descendants_iff (hf : d.links.Forest) : [x, y].Sublist (d.descendants a) ↔
    x ∈ d.descendants a ∧ y ∈ d.descendants a ∧ d.Precedes x y := by
  have hpairs : ∀ {x y}, [x, y].Sublist (d.descendants a) → d.Precedes x y :=
    List.pairwise_iff_forall_sublist.mp (pairwise_subtree hf a).of_cons
  constructor
  · intro hs
    exact ⟨hs.subset (by simp), hs.subset (by simp), hpairs hs⟩
  · rintro ⟨hx, hy, hxy⟩
    have hne : x ≠ y := by
      rintro rfl
      exact hxy.asymm hf hxy
    rcases sublist_or_sublist hx hy hne with hs | hs
    · exact hs
    · exact absurd (hpairs hs) (hxy.asymm hf)

end Order

section Tour

private theorem markup_eq_tourTo (n : Nat) (x : NodeId) :
    d.markup n x = (d.tourTo n x).flatMap d.written := by
  induction n generalizing x with
  | zero => rfl
  | succ n ih =>
      have hchildren : (d.children x).flatMap (d.markup n) =
          ((d.children x).flatMap (d.tourTo n)).flatMap d.written := by
        rw [List.flatMap_assoc]
        exact List.flatMap_congr fun c _ => ih c
      unfold markup tourTo
      cases hk : d.kind? x with
      | none => simp [written, hk]
      | some kind =>
          cases kind with
          | document => simp [written, hk, hchildren]
          | text data => simp [written, hk]
          | element e => by_cases hv : e.tag ∈ Markup.voidTags <;>
              simp [written, hk, hv, hchildren, element?_of_kind? hk]

theorem not_hidden_self (hf : d.links.Forest) (x : NodeId) : ¬d.Hidden x x := by
  rintro ⟨v, hv, -, hx, hne⟩
  exact hne (hf.under_antisymm ((contains_iff hf v x).mp hx) ((mem_subtree_iff hf).mp hv))

-- What hides a node below a child is in the subtree of that child, or it is the parent itself.
theorem hidden_iff_of_parent (hf : d.links.Forest) (hc : d.parent? c = some x)
    (hy : d.links.Under y c) : d.Hidden x y ↔ d.isVoid x = true ∨ d.Hidden c y := by
  constructor
  · rintro ⟨v, hv, hvoid, hyv, hne⟩
    by_cases hvx : v = x
    · exact Or.inl (hvx ▸ hvoid)
    · obtain ⟨e, he, hve⟩ := ((mem_subtree_iff hf).mp hv).child_of_ne hvx
      obtain rfl := hf.sibling_eq hc he hy (((contains_iff hf v y).mp hyv).trans hve)
      exact Or.inr ⟨v, (mem_subtree_iff hf).mpr hve, hvoid, hyv, hne⟩
  · rintro (hvoid | ⟨v, hv, hvoid, hyv, hne⟩)
    · refine ⟨x, List.mem_cons_self, hvoid, ?_, ?_⟩
      · exact (contains_iff hf x y).mpr (hy.trans (Links.under_of_parent hc))
      · rintro rfl
        exact hf.not_under_of_parent hc hy
    · have hvx := ((mem_subtree_iff hf).mp hv).trans (Links.under_of_parent hc)
      exact ⟨v, (mem_subtree_iff hf).mpr hvx, hvoid, hyv, hne⟩

theorem entered_tourTo_succ (n : Nat) (x : NodeId) :
    (d.tourTo (n + 1) x).filterMap Visit.entered? =
      x :: if d.isContainer x = true ∧ d.isVoid x = false then
        (d.children x).flatMap fun c => (d.tourTo n c).filterMap Visit.entered? else [] := by
  rw [tourTo]
  unfold isContainer isVoid
  cases hk : d.kind? x with
  | none => simp [Visit.entered?]
  | some kind =>
      cases kind with
      | text data => simp [Visit.entered?, NodeKind.isContainer]
      | document =>
          have he : d.element? x = none := by simp [element?, hk]
          simp [Visit.entered?, NodeKind.isContainer, he, List.filterMap_flatMap]
      | element e => by_cases hv : e.tag ∈ Markup.voidTags <;>
          simp [Visit.entered?, NodeKind.isContainer, element?_of_kind? hk, hv,
            List.filterMap_flatMap, List.filterMap_append]

-- The writer goes by the walk down, and it leaves out what void elements hide.
private theorem entered_tourTo (hw : d.WellFormed) (n : Nat) (x : NodeId) :
    (d.tourTo (n + 1) x).filterMap Visit.entered? =
      (x :: d.below n x).filter fun y => ¬d.Hidden x y := by
  have hf := hw.forest
  induction n generalizing x with
  | zero =>
      rw [entered_tourTo_succ]
      simp [tourTo, below, not_hidden_self hf x]
  | succ n ih =>
      have hbelow : (d.below (n + 1) x).filter (fun y => ¬d.Hidden x y) =
          (d.children x).flatMap fun c =>
            (c :: d.below n c).filter fun y => ¬(d.isVoid x = true ∨ d.Hidden c y) := by
        rw [below, List.filter_flatMap]
        refine List.flatMap_congr fun c hc => List.filter_congr fun y hy => ?_
        simp only [hidden_iff_of_parent hf (hf.parent_of_mem hc) (under_of_mem_cons_below hf hy)]
      rw [entered_tourTo_succ, List.filter_cons_of_pos (by simp [not_hidden_self hf x]), hbelow]
      congr 1
      by_cases hcon : d.isContainer x = true
      · cases hvoid : d.isVoid x with
        | true => simp
        | false => simp [hcon, ih]
      · simp [hw.children_of_not_isContainer hcon]

end Tour

section Queries

variable (hw : d.WellFormed)

include hw

theorem descendants_of_not_isContainer (hcon : ¬d.isContainer x = true) :
    d.descendants x = [] := by
  rw [descendants_eq hw.forest, hw.children_of_not_isContainer hcon, List.flatMap_nil]

theorem collect_eq_filter (D : Directive) (x : NodeId) :
    D.collect d x = (d.subtree x).filter fun y => d.hasAttribute y D.marker := by
  unfold Directive.collect
  split
  · rfl
  · rename_i hcon
    have hattr : ¬d.hasAttribute x D.marker = true := by
      intro hattr
      obtain ⟨value, hvalue⟩ := Option.isSome_iff_exists.mp hattr
      exact hcon (isContainer_of_isElement (isElement_of_attribute? hvalue))
    simp [subtree, descendants_of_not_isContainer hw hcon, hattr]

private theorem textContent_eq_join (x : NodeId) :
    d.textContent x = String.join ((d.subtree x).filterMap d.textData?) := by
  by_cases hcon : d.isContainer x = true
  · obtain ⟨k, hk, ht⟩ := isContainer_iff.mp hcon
    have hdata : d.textData? x = none := by
      cases k <;> simp_all [textData?, NodeKind.isText]
    cases k <;> simp_all [textContent, subtree, NodeKind.isText]
  · rw [subtree, descendants_of_not_isContainer hw hcon]
    unfold textContent
    cases hk : d.kind? x with
    | none => simp [textData?, hk]
    | some k =>
        cases k with
        | text data => simp [textData?, hk, String.join]
        | _ => simp [isContainer, hk, NodeKind.isContainer] at hcon

end Queries

theorem WellFormed.traversed (hw : d.WellFormed) (root : NodeId) :
    d.Traversed root (d.descendants root) := by
  have hf := hw.forest
  have hyields := yields_descent hf root
  constructor
  · exact fun given => ⟨hyields.unique, fun he => he ▸ hyields⟩
  · exact fun x => (mem_descendants_iff hf).trans (by rw [contains_iff hf])
  · exact below_nodup hf
  · exact fun x y => sublist_descendants_iff hf
  · exact fun D => collect_eq_filter hw D root
  · intro D
    rw [collect_eq_filter hw]
    exact (subtree_nodup hf root).filter _
  · exact textContent_eq_join hw root
  · rw [outerHtml, markup_eq_tourTo, tour]
  · exact entered_tourTo hw d.allocated root

-- On every page that a run can lead to, all go the same way.
theorem traversed_of_recorded (hr : Chronicle.Recorded h) (root : NodeId) :
    h.document.Traversed root (h.document.descendants root) :=
  (Chronicle.sound_of_recorded hr).wellFormed.traversed root

-- A text below a void element, which may have children like any other element.
def Chronicle.veiled : Chronicle :=
  [Operation.createElement "br", .createText "x", .appendChild body ⟨5, 0⟩,
    .appendChild ⟨5, 0⟩ ⟨6, 0⟩].foldl after start

theorem Chronicle.recorded_veiled : Recorded veiled := .foldl .start (by decide +kernel)

-- The text of the page shows it, and the markup does not.
theorem traversed_veiled : Chronicle.Recorded Chronicle.veiled ∧
    Chronicle.veiled.document.Traversed root [html, head, title, body, ⟨5, 0⟩, ⟨6, 0⟩] ∧
    Chronicle.veiled.document.Hidden root ⟨6, 0⟩ ∧
    Chronicle.veiled.document.textContent root = "x" ∧
    Chronicle.veiled.document.outerHtml body = "<body><br></body>" := by
  have hids : Chronicle.veiled.document.descendants root =
      [html, head, title, body, ⟨5, 0⟩, ⟨6, 0⟩] := by decide
  refine ⟨Chronicle.recorded_veiled, ?_, by decide +kernel, by decide, by decide +kernel⟩
  rw [← hids]
  exact traversed_of_recorded Chronicle.recorded_veiled root

end PageLocalizer.Document
