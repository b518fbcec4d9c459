import Mathlib.Data.List.Nodup
import Mathlib.Logic.Relation
import Mathlib.Order.Basic
import PageLocalizer.Document.Basic

namespace PageLocalizer

-- The links of a page apart from everything else: who is whose parent, and who whose children.
structure Links where
  parent : NodeId → Option NodeId
  children : NodeId → List NodeId

namespace Links

-- `x` is `a` or lies below it.
def Under (l : Links) (x a : NodeId) : Prop :=
  Relation.ReflTransGen (fun c p => l.parent c = some p) x a

-- Both kinds of link say the same, each child stands once, and no way up comes round: a parent
-- ranks before its children.
structure Forest (l : Links) : Prop where
  mem_children : ∀ p c, c ∈ l.children p ↔ l.parent c = some p
  nodup : ∀ p, (l.children p).Nodup
  ranked : ∃ rank : NodeId → Nat, ∀ c p, l.parent c = some p → rank p < rank c

-- A node without a parent becomes the last child of `p`.
def attach (l : Links) (p c : NodeId) : Links where
  parent x := if x = c then some p else l.parent x
  children x := if x = p then l.children p ++ [c] else l.children x

-- Some children of `p` leave it.
def detach (l : Links) (p : NodeId) (leaving : List NodeId) : Links where
  parent x := if x ∈ leaving then none else l.parent x
  children x := if x = p then (l.children p).filter (· ∉ leaving) else l.children x

-- Some nodes go with all their links.
def prune (l : Links) (gone : List NodeId) : Links where
  parent x := if x ∈ gone then none else l.parent x
  children x := if x ∈ gone then [] else l.children x

theorem prune_nil (l : Links) : l.prune [] = l := by simp [prune]

theorem prune_prune (l : Links) (gone more : List NodeId) :
    (l.prune gone).prune more = l.prune (gone ++ more) := by
  simp only [prune, Links.mk.injEq]
  constructor <;> funext x <;> by_cases hx : x ∈ gone <;> by_cases hm : x ∈ more <;> simp [hx, hm]

section Under

variable {l : Links} {x y a b p : NodeId}

theorem Under.refl (l : Links) (x : NodeId) : l.Under x x := Relation.ReflTransGen.refl

theorem Under.trans (hxa : l.Under x a) (hab : l.Under a b) : l.Under x b :=
  Relation.ReflTransGen.trans hxa hab

theorem under_of_parent (h : l.parent x = some p) : l.Under x p :=
  Relation.ReflTransGen.single h

-- The way up is unique, so one of two ancestors lies below the other.
theorem Under.total (hxa : l.Under x a) (hxb : l.Under x b) : l.Under a b ∨ l.Under b a := by
  apply Relation.ReflTransGen.total_of_right_unique _ hxa hxb
  intro c p q hp hq
  exact Option.some.inj (hp.symm.trans hq)

-- Whoever is strictly below `a` is below it through its parent.
theorem Under.parent_of_ne (h : l.Under x a) (hne : x ≠ a) :
    ∃ p, l.parent x = some p ∧ l.Under p a := by
  cases Relation.ReflTransGen.cases_head h with
  | inl he => exact absurd he hne
  | inr hs => exact hs

-- Whoever is strictly below `a` is below it through one of its children.
theorem Under.child_of_ne (h : l.Under x a) (hne : x ≠ a) :
    ∃ c, l.parent c = some a ∧ l.Under x c := by
  rcases Relation.ReflTransGen.cases_tail h with rfl | ⟨c, hxc, hc⟩
  · exact absurd rfl hne
  · exact ⟨c, hc, hxc⟩

-- A node without a parent lies below itself only.
theorem Under.eq_of_parent_none (h : l.Under x a) (hx : l.parent x = none) : x = a := by
  by_contra hne
  obtain ⟨p, hp, -⟩ := h.parent_of_ne hne
  simp [hx] at hp

theorem Under.mono {m : Links} (h : l.Under x a)
    (hsub : ∀ c p, l.parent c = some p → m.parent c = some p) : m.Under x a :=
  Relation.ReflTransGen.mono hsub _ _ h

theorem parent_of_detach {leaving : List NodeId} {c q : NodeId}
    (h : (l.detach p leaving).parent c = some q) : l.parent c = some q := by
  by_cases hc : c ∈ leaving
  · simp [Links.detach, hc] at h
  · simpa [Links.detach, hc] using h

end Under

namespace Forest

variable {l : Links} {x y a c d p : NodeId}

theorem parent_of_mem (hf : l.Forest) (h : c ∈ l.children p) : l.parent c = some p :=
  (hf.mem_children p c).mp h

theorem mem_of_parent (hf : l.Forest) (h : l.parent c = some p) : c ∈ l.children p :=
  (hf.mem_children p c).mpr h

private theorem rank_le {rank : NodeId → Nat} (hr : ∀ c p, l.parent c = some p → rank p < rank c)
    (h : l.Under x a) : rank a ≤ rank x := by
  induction h with
  | refl => exact Nat.le_refl _
  | tail _ hs ih => exact Nat.le_trans (Nat.le_of_lt (hr _ _ hs)) ih

-- Nobody lies below a child of its own.
theorem not_under_of_parent (hf : l.Forest) (h : l.parent c = some p) : ¬l.Under p c := by
  obtain ⟨rank, hr⟩ := hf.ranked
  intro hu
  have hle := rank_le hr hu
  have hlt := hr c p h
  omega

-- Two nodes do not lie below each other.
theorem under_antisymm (hf : l.Forest) (hxy : l.Under x y) (hyx : l.Under y x) : x = y := by
  by_contra hne
  obtain ⟨p, hp, hpy⟩ := hxy.parent_of_ne hne
  exact hf.not_under_of_parent hp (hpy.trans hyx)

-- No chain of parents comes back to where it began.
theorem acyclic (hf : l.Forest) (x : NodeId) :
    ¬Relation.TransGen (fun c p => l.parent c = some p) x x := by
  intro h
  obtain ⟨p, hp, hpx⟩ := Relation.TransGen.head'_iff.mp h
  exact hf.not_under_of_parent hp hpx

theorem parent_wellFounded (hf : l.Forest) : WellFounded fun p c => l.parent c = some p := by
  obtain ⟨rank, hr⟩ := hf.ranked
  exact Subrelation.wf (fun h => hr _ _ h) (measure rank).wf

-- A node without children has only itself below it.
theorem eq_of_children_nil (hf : l.Forest) (h : l.Under x a) (ha : l.children a = []) :
    x = a := by
  by_contra hne
  obtain ⟨c, hc, -⟩ := h.child_of_ne hne
  have hm := hf.mem_of_parent hc
  simp [ha] at hm

-- What lies below two children of one parent lies below the same child.
theorem sibling_eq (hf : l.Forest) (hc : l.parent c = some p) (hd : l.parent d = some p)
    (hxc : l.Under x c) (hxd : l.Under x d) : c = d := by
  by_contra hne
  cases hxc.total hxd with
  | inl hcd =>
      obtain ⟨q, hq, hqd⟩ := hcd.parent_of_ne hne
      have hqp : q = p := Option.some.inj (hq.symm.trans hc)
      exact hf.not_under_of_parent hd (hqp ▸ hqd)
  | inr hdc =>
      obtain ⟨q, hq, hqc⟩ := hdc.parent_of_ne (Ne.symm hne)
      have hqp : q = p := Option.some.inj (hq.symm.trans hd)
      exact hf.not_under_of_parent hc (hqp ▸ hqc)

-- The new branch ranks after its new parent, each of its nodes by the same amount.
theorem attach (hf : l.Forest) (hc : l.parent c = none) (hn : ¬l.Under p c) :
    (l.attach p c).Forest where
  mem_children q x := by
    have hcq : ∀ q, c ∉ l.children q := by
      intro q hm
      simp [hf.parent_of_mem hm] at hc
    simp only [Links.attach]
    by_cases hx : x = c
    · subst x
      by_cases hq : q = p
      · simp [hq]
      · simp [hq, hcq q, Ne.symm hq]
    · by_cases hq : q = p
      · simp [hq, hx, hf.mem_children]
      · simp [hq, hx, hf.mem_children]
  nodup q := by
    simp only [Links.attach]
    by_cases hq : q = p
    · have hcp : c ∉ l.children p := by
        intro hm
        simp [hf.parent_of_mem hm] at hc
      simp only [hq, ite_true]
      exact List.Nodup.append (hf.nodup p) (List.nodup_singleton c) (by simpa using hcp)
    · simpa [hq] using hf.nodup q
  ranked := by
    classical
    obtain ⟨rank, hr⟩ := hf.ranked
    refine ⟨fun x => if l.Under x c then rank x + rank p + 1 else rank x, fun x q hq => ?_⟩
    simp only [Links.attach] at hq
    by_cases hx : x = c
    · simp only [hx, ite_true, Option.some.injEq] at hq
      subst hq
      simp only [hx, hn, Under.refl, ite_true, ite_false]
      omega
    · simp only [hx, ite_false] at hq
      have hlt := hr x q hq
      by_cases hxc : l.Under x c
      · obtain ⟨r, hr', hrc⟩ := hxc.parent_of_ne hx
        have hqr : q = r := Option.some.inj (hq.symm.trans hr')
        simp only [hxc, hqr ▸ hrc, ite_true]
        omega
      · have hqc : ¬l.Under q c := fun h => hxc ((under_of_parent hq).trans h)
        simpa only [hxc, hqc, ite_false] using hlt

theorem detach (hf : l.Forest) {leaving : List NodeId}
    (hl : ∀ c ∈ leaving, l.parent c = some p) : (l.detach p leaving).Forest where
  mem_children q x := by
    simp only [Links.detach]
    by_cases hx : x ∈ leaving
    · have hxq : q ≠ p → x ∉ l.children q := by
        intro hq hm
        exact hq (Option.some.inj ((hf.parent_of_mem hm).symm.trans (hl x hx)))
      by_cases hq : q = p
      · simp [hq, hx]
      · simp [hq, hx, hxq hq]
    · by_cases hq : q = p
      · simp [hq, hx, hf.mem_children]
      · simp [hq, hx, hf.mem_children]
  nodup q := by
    simp only [Links.detach]
    by_cases hq : q = p
    · simp only [hq, ite_true]
      exact List.Nodup.filter _ (hf.nodup p)
    · simpa [hq] using hf.nodup q
  ranked := by
    obtain ⟨rank, hr⟩ := hf.ranked
    refine ⟨rank, fun x q hq => hr x q ?_⟩
    by_cases hx : x ∈ leaving <;> simp_all [Links.detach]

-- What goes is whole trees: a node goes when its parent does.
theorem prune (hf : l.Forest) {gone : List NodeId}
    (hg : ∀ c p, l.parent c = some p → (c ∈ gone ↔ p ∈ gone)) : (l.prune gone).Forest where
  mem_children q x := by
    simp only [Links.prune]
    by_cases hx : x ∈ gone
    · have hxq : q ∉ gone → x ∉ l.children q := by
        intro hq hm
        exact hq ((hg x q (hf.parent_of_mem hm)).mp hx)
      by_cases hq : q ∈ gone
      · simp [hq, hx]
      · simp [hq, hx, hxq hq]
    · have hxq : q ∈ gone → l.parent x ≠ some q := by
        intro hq hp
        exact hx ((hg x q hp).mpr hq)
      by_cases hq : q ∈ gone
      · simp [hq, hx, hxq hq]
      · simp [hq, hx, hf.mem_children]
  nodup q := by
    simp only [Links.prune]
    by_cases hq : q ∈ gone
    · simp [hq]
    · simpa [hq] using hf.nodup q
  ranked := by
    obtain ⟨rank, hr⟩ := hf.ranked
    refine ⟨rank, fun x q hq => hr x q ?_⟩
    by_cases hx : x ∈ gone <;> simp_all [Links.prune]

end Forest

end Links
end PageLocalizer
