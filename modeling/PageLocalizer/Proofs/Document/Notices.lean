import PageLocalizer.Proofs.Document.Account
import PageLocalizer.Proofs.Document.Chronicle

-- What observers are told of an operation, and what they can make of it.
namespace PageLocalizer

-- The calls of observers, in order: each change goes to all whom it concerns before the next one.
def Edited.notices (edited : Edited α) : List (ObserverId × Change) :=
  edited.changes.flatMap fun c => c.audience.map fun o => (o, c)

-- What one observer is told.
def Edited.heard (edited : Edited α) (o : ObserverId) : List Record :=
  (edited.notices.filter (·.1 = o)).map (·.2.record)

-- What a record makes of the children that `x` had: those removed go, those added come last.
def Record.replay (x : NodeId) (cs : List NodeId) (r : Record) : List NodeId :=
  match r.kind with
  | .children added removed => if x = r.target then cs.filter (· ∉ removed) ++ added else cs
  | _ => cs

theorem Record.replay_of_ne {x : NodeId} {r : Record} (h : r.target ≠ x) (cs : List NodeId) :
    r.replay x cs = cs := by
  unfold replay
  split
  · rw [if_neg (Ne.symm h)]
  · rfl

namespace Document

-- Everything that the observers of a page learn of an operation.
structure Announced (d : Document) (op : Operation) : Prop where
  -- What is told is the writes of the operation, each on its own and with what it replaced.
  account : Account d (op.writes d) (op.edit d).changes (op.edit d).document
  -- Each is told to those who have its target below theirs at that moment, in the order in which
  -- they registered.
  notices : (op.edit d).notices = (op.edit d).changes.flatMap fun c =>
    (d.observers.filter fun o => c.record.target ∈ c.seen.subtree o.target).map fun o => (o.id, c)
  registered : (d.observers.map (·.id)).Pairwise (· < ·)
  heard : ∀ o ∈ d.observers, (op.edit d).heard o.id =
    ((op.edit d).changes.filter fun c => c.record.target ∈ c.seen.subtree o.target).map (·.record)
  -- Whoever replays what it heard has the children of all nodes below its target.
  replayed : ∀ o ∈ d.observers, d.Alive o.target → (op.edit d).document.Alive o.target →
    ∀ x, d.Alive x → (op.edit d).document.Alive x →
      x ∈ d.subtree o.target ∨ x ∈ (op.edit d).document.subtree o.target →
      (op.edit d).document.children x =
        ((op.edit d).heard o.id).foldl (Record.replay x) (d.children x)
  -- Whoever hears nothing finds everything below its target as it was.
  untouched : ∀ o ∈ d.observers, d.Alive o.target → (op.edit d).document.Alive o.target →
    (op.edit d).heard o.id = [] →
      (op.edit d).document.subtree o.target = d.subtree o.target ∧
        ∀ x ∈ d.subtree o.target, (op.edit d).document.kind? x = d.kind? x ∧
          (op.edit d).document.children x = d.children x

variable {d d' : Document} {x a : NodeId} {w : Write} {ws : List Write} {changes : List Change}

section Account

theorem Write.replay_record (w : Write) (d : Document) (cs : List NodeId) :
    (w.record d).replay x cs = w.childrenAfter x cs := by
  cases w <;> rfl

theorem Account.alive (h : Account d ws changes d') (hw : d.WellFormed) :
    ∀ c ∈ changes, c.seen.WellFormed ∧ ∀ x, d.Alive x → c.seen.Alive x := by
  induction h with
  | done _ => simp
  | write hm _ ih =>
      have hkeep := fun x (hx : Alive _ x) => (hm.alive_iff x).mpr (Or.inl hx)
      intro c hc
      rcases List.mem_cons.mp hc with rfl | hc
      · exact ⟨hm.wellFormed, hkeep⟩
      · obtain ⟨hws, hrest⟩ := ih hm.wellFormed c hc
        exact ⟨hws, fun x hx => hrest x (hkeep x hx)⟩

theorem Account.wellFormed (h : Account d ws changes d') : d'.WellFormed := by
  induction h with
  | done hq => exact hq.wellFormed
  | write _ _ ih => exact ih

-- All records together give the children of any node that stays.
theorem Account.children_eq (h : Account d ws changes d') (hx : d.Alive x) (hx' : d'.Alive x) :
    d'.children x = (changes.map (·.record)).foldl (Record.replay x) (d.children x) := by
  induction h with
  | done hq => exact hq.children x hx hx'
  | write hm _ ih =>
      have hseen := (hm.alive_iff x).mpr (Or.inl hx)
      rw [ih hseen hx', hm.children x, List.map_cons, List.foldl_cons, Write.replay_record]

-- A node keeps what it has unless it is the target of a write.
theorem Account.kept (h : Account d ws changes d') (hx : d.Alive x) (hx' : d'.Alive x)
    (hne : ∀ c ∈ changes, c.record.target ≠ x) :
    d'.kind? x = d.kind? x ∧ d'.children x = d.children x := by
  induction h with
  | done hq => exact ⟨hq.kind? x hx hx', hq.children x hx hx'⟩
  | @write d w seen ws changes d' hm _ ih =>
      have hseen := (hm.alive_iff x).mpr (Or.inl hx)
      have htarget : x ≠ w.target := by
        have h := hne _ List.mem_cons_self
        rw [w.target_record] at h
        exact Ne.symm h
      obtain ⟨hk, hc⟩ := ih hseen hx' fun c hc => hne c (List.mem_cons_of_mem _ hc)
      rw [hk, hc, hm.kind? x hx, hm.children x, Write.childrenAfter_of_ne htarget]
      refine ⟨?_, rfl⟩
      cases d.kind? x <;> simp [Write.kindAfter_of_ne htarget]

-- Below a node that stays, nothing changes unless something there is written to. This goes from
-- the node down, because who stays is known of the children of those that stay.
theorem Account.untouched (h : Account d ws changes d') (hw : d.WellFormed) (ha : d.Alive a)
    (ha' : d'.Alive a) (hne : ∀ c ∈ changes, ¬d.links.Under c.record.target a) :
    d'.subtree a = d.subtree a ∧
      ∀ x ∈ d.subtree a, d'.kind? x = d.kind? x ∧ d'.children x = d.children x := by
  have hw' := h.wellFormed
  have hstays : ∀ x, d.links.Under x a → d'.Alive x := by
    intro x hx
    induction hx using Relation.ReflTransGen.head_induction_on with
    | refl => exact ha'
    | @head y p hp hpa ih =>
        have hpa' := hw.alive_of_under hpa ha
        have hkept := (h.kept hpa' ih fun c hc he => hne c hc (he ▸ hpa)).2
        have hm : y ∈ d'.children p := hkept.symm ▸ hw.forest.mem_of_parent hp
        exact (hw'.alive_of_parent? (hw'.forest.parent_of_mem hm)).1
  have hall : ∀ x, d.links.Under x a → d'.kind? x = d.kind? x ∧ d'.children x = d.children x :=
    fun x hx => h.kept (hw.alive_of_under hx ha) (hstays x hx) fun c hc he => hne c hc (he ▸ hx)
  exact ⟨subtree_congr hw.forest hw'.forest fun x hx => (hall x hx).2,
    fun x hx => hall x ((mem_subtree_iff hw.forest).mp hx)⟩

end Account

section Heard

-- One registration among all.
theorem filter_id_eq {os : List Observer} {o : Observer} (hnd : (os.map (·.id)).Nodup)
    (ho : o ∈ os) : os.filter (·.id = o.id) = [o] := by
  induction os with
  | nil => simp at ho
  | cons first rest ih =>
      obtain ⟨hfirst, hrest⟩ := List.nodup_cons.mp hnd
      rcases List.mem_cons.mp ho with rfl | ho
      · have hnil : rest.filter (·.id = o.id) = [] := by
          refine List.filter_eq_nil_iff.mpr fun x hx => ?_
          have hne : x.id ≠ o.id := fun he => hfirst (List.mem_map.mpr ⟨x, hx, he⟩)
          simpa using hne
        rw [List.filter_cons_of_pos (by simp), hnil]
      · have hne : first.id ≠ o.id := fun he => hfirst (List.mem_map.mpr ⟨o, ho, he.symm⟩)
        rw [List.filter_cons_of_neg (by simpa using hne), ih hrest ho]

private theorem audience_eq (hf : d.links.Forest) (t : NodeId) :
    d.audience t = (d.observers.filter fun o => t ∈ d.subtree o.target).map (·.id) := by
  unfold audience
  congr 1
  refine List.filter_congr fun o _ => ?_
  rw [Bool.eq_iff_iff, contains_iff hf, decide_eq_true_iff, mem_subtree_iff hf]

-- Of the notices of some changes, one observer gets those that it is in the audience of.
theorem filter_notices {os : List Observer} {o : Observer} (hnd : (os.map (·.id)).Nodup)
    (ho : o ∈ os) (p : Change → Observer → Bool) (cs : List Change) :
    ((cs.flatMap fun c => (os.filter (p c)).map fun o => (o.id, c)).filter (·.1 = o.id)).map
      (·.2.record) = (cs.filter (p · o)).map (·.record) := by
  induction cs with
  | nil => rfl
  | cons c rest ih =>
      have hone : ((os.filter (p c)).map fun o => (o.id, c)).filter (·.1 = o.id) =
          ([o].filter (p c)).map fun o => (o.id, c) := by
        rw [List.filter_map, ← filter_id_eq hnd ho, List.filter_filter, List.filter_filter]
        congr 1
        exact List.filter_congr fun x _ => Bool.and_comm _ _
      rw [List.flatMap_cons, List.filter_append, List.map_append, ih, hone]
      by_cases hp : p c o = true
      · simp [hp]
      · simp [hp]

-- Changes elsewhere do not matter to the children of a node.
private theorem replay_filter {cs : List Change} {p : Change → Bool}
    (h : ∀ c ∈ cs, c.record.target = x → p c = true) (children : List NodeId) :
    ((cs.filter p).map (·.record)).foldl (Record.replay x) children =
      (cs.map (·.record)).foldl (Record.replay x) children := by
  induction cs generalizing children with
  | nil => rfl
  | cons c rest ih =>
      have hrest := ih fun c hc => h c (List.mem_cons_of_mem _ hc)
      by_cases hp : p c = true
      · rw [List.filter_cons_of_pos hp, List.map_cons, List.map_cons]
        exact hrest (c.record.replay x children)
      · have hne : c.record.target ≠ x := fun he => hp (h c List.mem_cons_self he)
        rw [List.filter_cons_of_neg hp, List.map_cons, List.foldl_cons, Record.replay_of_ne hne,
          hrest]

end Heard

section Announced

variable {op : Operation}

theorem registry_seen (op : Operation) (d : Document) :
    ∀ c ∈ (op.edit d).changes, c.seen.registry = d.registry := by
  by_cases h : op.registers = true
  · have hnil : (op.edit d).changes = [] := by
      cases op <;> first
        | rfl
        | simp [Operation.registers] at h
    simp [hnil]
  · exact (Operation.tacit_edit (by simpa using h) d).2

theorem announced_edit (hw : d.WellFormed) (hn : d.Numbered)
    (hm : ∀ x ∈ op.mentions, (d.node? x).isSome → d.Alive x) : d.Announced op := by
  have hacc := accounted_edit op hw hm
  have haccount := hacc.account
  have hnotices : (op.edit d).notices = (op.edit d).changes.flatMap fun c =>
      (d.observers.filter fun o => c.record.target ∈ c.seen.subtree o.target).map
        fun o => (o.id, c) := by
    refine List.flatMap_congr fun c hc => ?_
    rw [Change.audience, audience_eq (haccount.alive hw c hc).1.forest, List.map_map,
      observers_of_registry (registry_seen op d c hc)]
    rfl
  have hheard : ∀ o ∈ d.observers, (op.edit d).heard o.id =
      ((op.edit d).changes.filter fun c => c.record.target ∈ c.seen.subtree o.target).map
        (·.record) := by
    intro o ho
    have hnd : (d.observers.map (·.id)).Nodup := hn.increasing.imp fun h => Nat.ne_of_lt h
    rw [Edited.heard, hnotices]
    exact filter_notices hnd ho (fun c o => decide (c.record.target ∈ c.seen.subtree o.target)) _
  have hscope : ∀ c ∈ (op.edit d).changes, ∀ a,
      c.record.target ∈ c.seen.subtree a ↔ d.links.Under c.record.target a := fun c hc a => by
    rw [mem_subtree_iff (haccount.alive hw c hc).1.forest]
    exact hacc.seen c hc a
  refine ⟨haccount, hnotices, hn.increasing, hheard, ?_, ?_⟩
  · intro o ho ha ha' x hx hx' hbelow
    rw [haccount.children_eq hx hx', hheard o ho]
    -- Every write to a node that is below the target, before or after, is heard.
    have hall : ∀ c ∈ (op.edit d).changes, c.record.target = x →
        c.record.target ∈ c.seen.subtree o.target := by
      rintro c hc rfl
      refine (hscope c hc o.target).mpr ?_
      rw [mem_subtree_iff hw.forest, mem_subtree_iff haccount.wellFormed.forest] at hbelow
      exact hbelow.elim id (hacc.after c hc o.target ha ha').mp
    exact (replay_filter (fun c hc he => by simpa using hall c hc he) _).symm
  · intro o ho ha ha' hnil
    rw [hheard o ho, List.map_eq_nil_iff, List.filter_eq_nil_iff] at hnil
    refine haccount.untouched hw ha ha' fun c hc hu => ?_
    exact hnil c hc (by simpa using (hscope c hc o.target).mpr hu)

end Announced

end Document
end PageLocalizer
