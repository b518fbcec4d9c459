import Mathlib.Data.List.Perm.Subperm
import PageLocalizer.Proofs.Document.Views

-- The walks of a page carry a number of steps. In a forest it is never what ends them.
namespace PageLocalizer.Document

variable {d : Document} {x a c p : NodeId} {n : Nat}

-- Different nodes live in different slots.
theorem length_le_allocated {ids : List NodeId} (hnd : ids.Nodup)
    (hs : ∀ x ∈ ids, (d.node? x).isSome) : ids.length ≤ d.allocated := by
  have hi : (ids.map (·.index)).Nodup :=
    List.Nodup.map_on (fun x hx y hy hi => eq_of_index (hs y hy) (hs x hx) hi) hnd
  have hlt : ids.map (·.index) ⊆ List.range d.allocated := by
    intro i hm
    obtain ⟨x, hx, rfl⟩ := List.mem_map.mp hm
    obtain ⟨node, hn⟩ := Option.isSome_iff_exists.mp (hs x hx)
    exact List.mem_range.mpr (lt_allocated_of_node? hn)
  simpa using (List.subperm_of_subset hi hlt).length_le

section Up

theorem lineage_of_parent (hp : d.parent? x = some p) :
    d.lineage (n + 1) x = x :: d.lineage n p := by simp [lineage, hp]

theorem lineage_of_none (hp : d.parent? x = none) : d.lineage (n + 1) x = [x] := by
  simp [lineage, hp]

private theorem self_mem_lineage (d : Document) (n : Nat) (x : NodeId) :
    x ∈ d.lineage (n + 1) x := by
  simp [lineage]

theorem lineage_subset_succ : d.lineage n x ⊆ d.lineage (n + 1) x := by
  induction n generalizing x with
  | zero => simp [lineage]
  | succ n ih =>
      cases hp : d.parent? x with
      | none => simp [lineage_of_none hp]
      | some p =>
          rw [lineage_of_parent hp, lineage_of_parent hp]
          exact List.cons_subset_cons x ih

theorem lineage_subset {m : Nat} (h : n ≤ m) : d.lineage n x ⊆ d.lineage m x := by
  induction h with
  | refl => exact fun _ => id
  | step _ ih => exact fun _ hm => lineage_subset_succ (ih hm)

theorem under_of_mem_lineage (h : a ∈ d.lineage n x) : d.links.Under x a := by
  induction n generalizing x with
  | zero => simp [lineage] at h
  | succ n ih =>
      cases hp : d.parent? x with
      | none =>
          have ha : a = x := by simpa [lineage_of_none hp] using h
          exact ha ▸ Links.Under.refl _ _
      | some p =>
          rw [lineage_of_parent hp, List.mem_cons] at h
          cases h with
          | inl ha => exact ha ▸ Links.Under.refl _ _
          | inr hm => exact (Links.under_of_parent hp).trans (ih hm)

theorem mem_lineage_of_under (h : d.links.Under x a) : ∃ n, a ∈ d.lineage n x := by
  induction h using Relation.ReflTransGen.head_induction_on with
  | refl => exact ⟨1, self_mem_lineage d 0 a⟩
  | @head c p hp _ ih =>
      obtain ⟨n, hn⟩ := ih
      exact ⟨n + 1, by rw [lineage_of_parent hp]; exact List.mem_cons_of_mem c hn⟩

theorem lineage_nodup (hf : d.links.Forest) : (d.lineage n x).Nodup := by
  induction n generalizing x with
  | zero => simp [lineage]
  | succ n ih =>
      cases hp : d.parent? x with
      | none => simp [lineage_of_none hp]
      | some p =>
          rw [lineage_of_parent hp, List.nodup_cons]
          exact ⟨fun hm => hf.not_under_of_parent hp (under_of_mem_lineage hm), ih⟩

-- A node that has a parent has a slot, and so have all its ancestors.
private theorem isSome_of_mem_lineage (hf : d.links.Forest) (hp : d.parent? x = some p)
    (h : a ∈ d.lineage n x) : (d.node? a).isSome := by
  induction n generalizing x p with
  | zero => simp [lineage] at h
  | succ n ih =>
      rw [lineage_of_parent hp, List.mem_cons] at h
      cases h with
      | inl ha => exact ha ▸ isSome_of_parent? hp
      | inr hm =>
          cases hq : d.parent? p with
          | none =>
              have hap : d.links.Under p a := under_of_mem_lineage hm
              rw [← hap.eq_of_parent_none hq]
              exact isSome_of_mem_children (hf.mem_of_parent hp)
          | some q => exact ih hq hm

theorem length_lineage_le (hf : d.links.Forest) (hp : d.parent? x = some p) :
    (d.lineage n x).length ≤ d.allocated :=
  length_le_allocated (lineage_nodup hf) fun _ => isSome_of_mem_lineage hf hp

-- A walk that ended before its last step ends there with one more step too.
theorem lineage_succ_eq (h : (d.lineage n x).length < n) :
    d.lineage (n + 1) x = d.lineage n x := by
  induction n generalizing x with
  | zero => simp at h
  | succ n ih =>
      cases hp : d.parent? x with
      | none => simp [lineage_of_none hp]
      | some p =>
          rw [lineage_of_parent hp, List.length_cons, Nat.add_lt_add_iff_right] at h
          rw [lineage_of_parent hp, lineage_of_parent hp, ih h]

theorem lineage_stable (hf : d.links.Forest) (x : NodeId) (more : Nat) :
    d.lineage (d.allocated + 1 + more) x = d.lineage (d.allocated + 1) x := by
  cases hp : d.parent? x with
  | none =>
      rw [Nat.add_right_comm]
      simp [lineage_of_none hp]
  | some p =>
      induction more with
      | zero => rfl
      | succ more ih =>
          have hlen : (d.lineage (d.allocated + 1 + more) x).length ≤ d.allocated :=
            length_lineage_le hf hp
          rw [← ih, ← Nat.add_assoc]
          exact lineage_succ_eq (by omega)

theorem mem_lineage_iff (hf : d.links.Forest) :
    a ∈ d.lineage (d.allocated + 1) x ↔ d.links.Under x a := by
  refine ⟨under_of_mem_lineage, fun h => ?_⟩
  obtain ⟨n, hn⟩ := mem_lineage_of_under h
  rw [← lineage_stable hf x n]
  exact lineage_subset (by omega) hn

theorem contains_iff (hf : d.links.Forest) (a x : NodeId) :
    d.contains a x = true ↔ d.links.Under x a := by
  simp [contains, mem_lineage_iff hf]

end Up

section Down

theorem mem_below_succ :
    x ∈ d.below (n + 1) a ↔ ∃ c ∈ d.children a, x = c ∨ x ∈ d.below n c := by
  simp [below]

theorem under_of_mem_below (hf : d.links.Forest) (h : x ∈ d.below n a) :
    ∃ c, d.parent? c = some a ∧ d.links.Under x c := by
  induction n generalizing a with
  | zero => simp [below] at h
  | succ n ih =>
      obtain ⟨c, hc, hx⟩ := mem_below_succ.mp h
      refine ⟨c, hf.parent_of_mem hc, ?_⟩
      cases hx with
      | inl he => exact he ▸ Links.Under.refl _ _
      | inr hm =>
          obtain ⟨q, hq, hxq⟩ := ih hm
          exact hxq.trans (Links.under_of_parent hq)

theorem under_of_mem_cons_below (hf : d.links.Forest) (h : x ∈ a :: d.below n a) :
    d.links.Under x a := by
  rcases List.mem_cons.mp h with rfl | h
  · exact .refl _ x
  · obtain ⟨c, hc, hxc⟩ := under_of_mem_below hf h
    exact hxc.trans (Links.under_of_parent hc)

theorem below_nodup (hf : d.links.Forest) : (d.below n a).Nodup := by
  induction n generalizing a with
  | zero => simp [below]
  | succ n ih =>
      refine List.nodup_flatMap.mpr ⟨fun c hc => ?_, ?_⟩
      · refine List.nodup_cons.mpr ⟨fun hm => ?_, ih⟩
        obtain ⟨q, hq, hcq⟩ := under_of_mem_below hf hm
        exact hf.not_under_of_parent hq hcq
      · refine List.Nodup.pairwise_of_forall_ne (hf.nodup a) fun c hc e he hne => ?_
        intro x hxc hxe
        exact hne (hf.sibling_eq (hf.parent_of_mem hc) (hf.parent_of_mem he)
          (under_of_mem_cons_below hf hxc) (under_of_mem_cons_below hf hxe))

-- The number of levels above a node, itself counted.
def depth (d : Document) (x : NodeId) : Nat := (d.lineage (d.allocated + 1) x).length

theorem depth_of_parent (hf : d.links.Forest) (hp : d.parent? x = some p) :
    d.depth x = d.depth p + 1 := by
  unfold depth
  rw [← lineage_stable hf x 1, lineage_of_parent hp, List.length_cons]

theorem depth_le (hf : d.links.Forest) (hp : d.parent? x = some p) : d.depth x ≤ d.allocated :=
  length_lineage_le hf hp

theorem children_of_depth (hf : d.links.Forest) (h : d.allocated ≤ d.depth a) :
    d.children a = [] := by
  rw [List.eq_nil_iff_forall_not_mem]
  intro c hc
  have hp := hf.parent_of_mem hc
  have hle := depth_le hf hp
  have heq := depth_of_parent hf hp
  omega

-- Whatever is told level by level from the children of a node comes to an end: the levels above a
-- node and those below it share the slots of the page.
theorem level_succ_eq {β : Type} {tell : Nat → NodeId → β} (hf : d.links.Forest)
    (hstep : ∀ n m x, (∀ c ∈ d.children x, tell n c = tell m c) → tell (n + 1) x = tell (m + 1) x)
    (h : d.allocated ≤ d.depth a + n) : tell (n + 2) a = tell (n + 1) a := by
  induction n generalizing a with
  | zero => exact hstep 1 0 a (by simp [children_of_depth hf h])
  | succ n ih =>
      refine hstep (n + 2) (n + 1) a fun c hc => ih ?_
      have heq := depth_of_parent hf (hf.parent_of_mem hc)
      omega

theorem below_succ_eq (hf : d.links.Forest) (h : d.allocated ≤ d.depth a + n) :
    d.below (n + 1) a = d.below n a := by
  induction n generalizing a with
  | zero => simp [below, children_of_depth hf h]
  | succ n ih =>
      have hchild : ∀ c ∈ d.children a, d.below (n + 1) c = d.below n c := by
        intro c hc
        have heq := depth_of_parent hf (hf.parent_of_mem hc)
        exact ih (by omega)
      simp only [below] at hchild ⊢
      exact List.flatMap_congr fun c hc => by rw [hchild c hc]

theorem below_stable (hf : d.links.Forest) (a : NodeId) (more : Nat) :
    d.below (d.allocated + more) a = d.below d.allocated a := by
  induction more with
  | zero => rfl
  | succ more ih =>
      rw [← ih, ← Nat.add_assoc]
      exact below_succ_eq hf (by omega)

-- The walk down is the recursion without a number of steps.
theorem descendants_eq (hf : d.links.Forest) (a : NodeId) :
    d.descendants a = (d.children a).flatMap d.subtree := by
  unfold descendants
  rw [← below_stable hf a 1]
  rfl

theorem mem_descendants_of_parent (hf : d.links.Forest) (hp : d.parent? c = some a)
    (hx : x = c ∨ x ∈ d.descendants c) : x ∈ d.descendants a := by
  rw [descendants_eq hf a]
  refine List.mem_flatMap.mpr ⟨c, hf.mem_of_parent hp, ?_⟩
  simpa [subtree] using hx

theorem mem_subtree_iff (hf : d.links.Forest) : x ∈ d.subtree a ↔ d.links.Under x a := by
  refine ⟨under_of_mem_cons_below hf, fun h => ?_⟩
  induction h with
  | refl => exact List.mem_cons_self
  | tail _ hp ih =>
      exact List.mem_cons_of_mem _ (mem_descendants_of_parent hf hp (List.mem_cons.mp ih))

theorem mem_descendants_iff (hf : d.links.Forest) :
    x ∈ d.descendants a ↔ d.links.Under x a ∧ x ≠ a := by
  rw [← mem_subtree_iff hf, subtree, List.mem_cons]
  constructor
  · intro h
    refine ⟨Or.inr h, ?_⟩
    rintro rfl
    obtain ⟨c, hc, hxc⟩ := under_of_mem_below hf h
    exact hf.not_under_of_parent hc hxc
  · rintro ⟨h, hne⟩
    exact h.resolve_left hne

theorem subtree_nodup (hf : d.links.Forest) (a : NodeId) : (d.subtree a).Nodup := by
  refine List.nodup_cons.mpr ⟨fun hm => ?_, below_nodup hf⟩
  exact ((mem_descendants_iff hf).mp hm).2 rfl

-- Two pages that agree on the children of all nodes below `a` agree on what lies below it.
theorem below_congr {e : Document} (hf : d.links.Forest)
    (h : ∀ x, d.links.Under x a → e.children x = d.children x) : e.below n a = d.below n a := by
  induction n generalizing a with
  | zero => rfl
  | succ n ih =>
      simp only [below, h a (Links.Under.refl _ a)]
      refine List.flatMap_congr fun c hc => ?_
      have hca := Links.under_of_parent (hf.parent_of_mem hc)
      rw [ih fun x hx => h x (hx.trans hca)]

-- Then they also agree on its subtree, where the number of slots does not matter.
theorem subtree_congr {e : Document} (hf : d.links.Forest) (he : e.links.Forest)
    (h : ∀ x, d.links.Under x a → e.children x = d.children x) : e.subtree a = d.subtree a := by
  have hd := below_stable hf a e.allocated
  have hb := below_stable he a d.allocated
  rw [Nat.add_comm] at hb
  simp only [subtree, descendants, ← hd, ← hb, below_congr hf h]

end Down

end PageLocalizer.Document
