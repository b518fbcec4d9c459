import PageLocalizer.Proofs.Document.Anchors
import PageLocalizer.Proofs.Document.Consistency

-- The skeleton of a page stays whatever is done to the page, and so does all that holds a part of
-- it.
namespace PageLocalizer.Document

variable {d : Document} {id x a : NodeId} {n : Nat}

-- Whether links from parents to children lead from `a` to `x`. Ids that a page never gave can tie
-- knots into the tree, so this is not told by parents.
def Reaches (d : Document) : NodeId → NodeId → Prop :=
  Relation.ReflTransGen fun p c => c ∈ d.children p

section Walk

theorem below_subset_succ : d.below n a ⊆ d.below (n + 1) a := by
  induction n generalizing a with
  | zero => simp [below]
  | succ n ih =>
      intro x hx
      obtain ⟨c, hc, hx⟩ := mem_below_succ.mp hx
      exact mem_below_succ.mpr ⟨c, hc, hx.imp (fun he => he) fun hm => ih hm⟩

private theorem below_subset {m : Nat} (h : n ≤ m) : d.below n a ⊆ d.below m a := by
  induction h with
  | refl => exact fun _ => id
  | step _ ih => exact fun _ hm => below_subset_succ (ih hm)

private theorem reaches_of_mem_below (h : x ∈ d.below n a) : d.Reaches a x := by
  induction n generalizing a with
  | zero => simp [below] at h
  | succ n ih =>
      obtain ⟨c, hc, hx⟩ := mem_below_succ.mp h
      rcases hx with rfl | hx
      · exact .single hc
      · exact .head hc (ih hx)

theorem mem_below_of_reaches (h : d.Reaches a x) : x = a ∨ ∃ n, x ∈ d.below n a := by
  induction h using Relation.ReflTransGen.head_induction_on with
  | refl => exact Or.inl rfl
  | @head a c hc _ ih =>
      right
      rcases ih with rfl | ⟨n, hn⟩
      · exact ⟨1, mem_below_succ.mpr ⟨x, hc, Or.inl rfl⟩⟩
      · exact ⟨n + 1, mem_below_succ.mpr ⟨c, hc, Or.inr hn⟩⟩

-- A shortest way down passes a node with children on each level, and each of them only once, for
-- it comes nearer with every step.
private theorem exists_way (h : x ∈ d.below (n + 1) a) (hmin : x ∉ d.below n a) :
    ∃ way : List NodeId, way.length = n + 1 ∧ way.Nodup ∧
      ∀ p ∈ way, (d.node? p).isSome ∧ x ∈ d.below (n + 1) p := by
  induction n generalizing a with
  | zero =>
      obtain ⟨c, hc, -⟩ := mem_below_succ.mp h
      exact ⟨[a], rfl, List.nodup_singleton a, by simpa using ⟨isSome_of_mem_children hc, h⟩⟩
  | succ n ih =>
      obtain ⟨c, hc, hx⟩ := mem_below_succ.mp h
      have hbelow : x ∈ d.below (n + 1) c :=
        hx.resolve_left fun he => hmin (mem_below_succ.mpr ⟨c, hc, Or.inl he⟩)
      have hnear : x ∉ d.below n c := fun hm => hmin (mem_below_succ.mpr ⟨c, hc, Or.inr hm⟩)
      obtain ⟨way, hlen, hnd, hway⟩ := ih hbelow hnear
      refine ⟨a :: way, by simp [hlen], List.nodup_cons.mpr ⟨fun ha => hmin (hway a ha).2, hnd⟩, ?_⟩
      intro p hp
      rcases List.mem_cons.mp hp with rfl | hp
      · exact ⟨isSome_of_mem_children hc, h⟩
      · exact ⟨(hway p hp).1, below_subset_succ (hway p hp).2⟩

-- The number of steps is enough even where the page is no forest.
private theorem below_subset_allocated : d.below n a ⊆ d.below d.allocated a := by
  induction n with
  | zero => simp [below]
  | succ n ih =>
      intro x hx
      by_cases hmin : x ∈ d.below n a
      · exact ih hmin
      · obtain ⟨way, hlen, hnd, hway⟩ := exists_way hx hmin
        have hle := length_le_allocated hnd fun p hp => (hway p hp).1
        exact below_subset (by omega) hx

theorem mem_subtree_iff_reaches : x ∈ d.subtree a ↔ d.Reaches a x := by
  unfold subtree descendants
  rw [List.mem_cons]
  constructor
  · rintro (rfl | hx)
    · exact Relation.ReflTransGen.refl
    · exact reaches_of_mem_below hx
  · exact fun h => (mem_below_of_reaches h).imp (fun he => he) fun ⟨_, hn⟩ =>
      below_subset_allocated hn

end Walk

section Release

-- Whether a part of the skeleton is at `id` or below it.
def HoldsSkeleton (d : Document) (id : NodeId) : Prop := ∃ x ∈ skeleton, d.Reaches id x

-- Whether `id` can go is told by what it finds and what is below it.
theorem releasable_cases (d : Document) (id : NodeId) :
    (d.releasable id = .ok (d.subtree id) ∧ (d.node? id).isSome ∧ ¬d.HoldsSkeleton id) ∨
      (∃ e, d.releasable id = .error e) ∧ ¬((d.node? id).isSome ∧ ¬d.HoldsSkeleton id) := by
  cases hr : d.releasable id with
  | ok ids =>
      obtain ⟨hs, rfl, hskel⟩ := releasable_eq_ok hr
      exact Or.inl ⟨rfl, hs, fun ⟨x, hx, hreach⟩ => hskel x hx (mem_subtree_iff_reaches.mpr hreach)⟩
  | error e =>
      refine Or.inr ⟨⟨e, rfl⟩, fun ⟨hs, hholds⟩ => ?_⟩
      unfold releasable at hr
      split_ifs at hr with hnone hany
      · simp [Option.isNone_iff_eq_none.mp hnone] at hs
      · obtain ⟨x, hx, hskel⟩ := List.any_eq_true.mp hany
        exact hholds ⟨x, by simpa using hskel, mem_subtree_iff_reaches.mp hx⟩

theorem remove_cases (d : Document) (id : NodeId) :
    ((remove id d).result = .ok () ∧ (d.node? id).isSome ∧ ¬d.HoldsSkeleton id) ∨
      Edit.Refused (remove id) d ∧ ¬((d.node? id).isSome ∧ ¬d.HoldsSkeleton id) := by
  rcases d.releasable_cases id with ⟨h, hgoes⟩ | ⟨⟨e, h⟩, hstays⟩
  · refine Or.inl ⟨?_, hgoes⟩
    unfold remove
    rw [h]
    cases hp : d.parent? id with
    | none => rfl
    | some parent => simp [removeChild, hp]
  · exact Or.inr ⟨⟨e, by simp [remove, h, Edit.fail]⟩, hstays⟩

theorem release_cases (d : Document) (id : NodeId) :
    ((release id d).result = .ok () ∧
        (d.node? id).isSome ∧ d.parent? id = none ∧ ¬d.HoldsSkeleton id) ∨
      Edit.Refused (release id) d ∧
        ¬((d.node? id).isSome ∧ d.parent? id = none ∧ ¬d.HoldsSkeleton id) := by
  rcases d.releasable_cases id with ⟨h, hs, hholds⟩ | ⟨⟨e, h⟩, hstays⟩
  · cases hp : d.parent? id with
    | none => exact Or.inl ⟨by simp [release, h, hp], hs, rfl, hholds⟩
    | some parent => exact Or.inr ⟨⟨.attachedRelease, by simp [release, h, hp, Edit.fail]⟩, by simp⟩
  · exact Or.inr ⟨⟨e, by simp [release, h, Edit.fail]⟩, fun hgoes => hstays ⟨hgoes.1, hgoes.2.2⟩⟩

end Release

-- The page after some operations, whatever ids they are called with.
def after (d : Document) (ops : List Operation) : Document :=
  ops.foldl (fun d op => (op.edit d).document) d

private theorem anchored_after (ops : List Operation) (h : d.Anchored id) (hid : id ∈ skeleton) :
    (d.after ops).Anchored id := by
  induction ops generalizing d with
  | nil => exact h
  | cons op rest ih => exact ih (op.keeping hid d h).anchored

-- What a page does for its skeleton, and for nothing else.
structure Protective (d : Document) : Prop where
  alive : ∀ id ∈ skeleton, d.Alive id
  refused : ∀ id, d.HoldsSkeleton id → Edit.Refused (remove id) d ∧ Edit.Refused (release id) d
  remove_iff : ∀ id, (remove id d).result = .ok () ↔ (d.node? id).isSome ∧ ¬d.HoldsSkeleton id
  release_iff : ∀ id, (release id d).result = .ok () ↔
    (d.node? id).isSome ∧ d.parent? id = none ∧ ¬d.HoldsSkeleton id

-- No run gets at the skeleton, whatever ids its operations are called with and wherever they move
-- its nodes.
theorem protective_after (ops : List Operation) : (empty.after ops).Protective where
  alive id hid := (anchored_after ops (anchored_empty hid) hid).alive
  refused id hholds := by
    constructor
    · rcases remove_cases (empty.after ops) id with ⟨-, -, hn⟩ | ⟨hr, -⟩
      · exact absurd hholds hn
      · exact hr
    · rcases release_cases (empty.after ops) id with ⟨-, -, -, hn⟩ | ⟨hr, -⟩
      · exact absurd hholds hn
      · exact hr
  remove_iff id := by
    rcases remove_cases (empty.after ops) id with ⟨hok, hgoes⟩ | ⟨hr, hstays⟩
    · exact iff_of_true hok hgoes
    · exact iff_of_false hr.result_ne hstays
  release_iff id := by
    rcases release_cases (empty.after ops) id with ⟨hok, hgoes⟩ | ⟨hr, hstays⟩
    · exact iff_of_true hok hgoes
    · exact iff_of_false hr.result_ne hstays

-- The head is not in the list of what is kept. Once the title is elsewhere, nothing holds it.
def Chronicle.titleMoved : Chronicle := start.after (.removeChild head title)

theorem head_removed : Chronicle.Recorded Chronicle.titleMoved ∧ Chronicle.titleMoved.Lives head ∧
    (remove head Chronicle.titleMoved.document).result = .ok () ∧
    (remove head Chronicle.titleMoved.document).document.node? head = none ∧
    ¬(Chronicle.titleMoved.after (.remove head)).Lives head := by
  refine ⟨.step _ .start (by decide) (Chronicle.releases_lt_of_length (by decide)), ?_⟩
  exact ⟨⟨by decide, by decide⟩, rfl, by decide, fun hl => hl.2 (by decide)⟩

end PageLocalizer.Document
