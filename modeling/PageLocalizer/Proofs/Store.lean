import Mathlib.Tactic.SplitIfs
import PageLocalizer.Store

-- Stores that give back what they were given.
namespace PageLocalizer.Store

section Insert

variable {key other value : String}

theorem lookup_insert_self (key value : String) (entries : List (String × String)) :
    (insert key value entries).lookup key = some value := by
  induction entries with
  | nil => simp [insert]
  | cons entry rest ih =>
      obtain ⟨k, v⟩ := entry
      unfold insert
      split_ifs with hlt heq
      · simp
      · simp
      · have hb : (key == k) = false := by simp [heq]
        simp [List.lookup_cons, hb, ih]

-- No other key is touched, in order or not.
theorem lookup_insert_of_ne (h : other ≠ key) (value : String)
    (entries : List (String × String)) :
    (insert key value entries).lookup other = entries.lookup other := by
  have hb : (other == key) = false := by simp [h]
  induction entries with
  | nil => simp [insert, List.lookup_cons, hb]
  | cons entry rest ih =>
      obtain ⟨k, v⟩ := entry
      unfold insert
      split_ifs with hlt heq
      · simp [List.lookup_cons, hb]
      · subst heq
        simp [List.lookup_cons, hb]
      · simp [List.lookup_cons, ih]

end Insert

section Ordered

variable {key value : String} {entry : String × String} {entries before : List (String × String)}

-- Tables have their entries in ascending order of the keys.
def Ordered (entries : List (String × String)) : Prop := entries.Pairwise fun a b => a.1 < b.1

theorem Ordered.distinct (h : Ordered entries) : entries.Pairwise fun a b => a.1 ≠ b.1 := by
  refine List.Pairwise.imp ?_ (show entries.Pairwise fun a b => a.1 < b.1 from h)
  intro a b hlt heq
  exact String.lt_irrefl b.1 (heq ▸ hlt)

theorem mem_insert (h : entry ∈ insert key value entries) :
    entry = (key, value) ∨ entry ∈ entries := by
  induction entries with
  | nil => simpa [insert] using h
  | cons first rest ih =>
      obtain ⟨k, v⟩ := first
      unfold insert at h
      split_ifs at h with hlt heq
      · simpa using h
      · exact (List.mem_cons.mp h).imp_right (List.mem_cons_of_mem _)
      · obtain rfl | h := List.mem_cons.mp h
        · exact .inr List.mem_cons_self
        · exact (ih h).imp_right (List.mem_cons_of_mem _)

theorem Ordered.insert (h : Ordered entries) (key value : String) :
    Ordered (insert key value entries) := by
  induction entries with
  | nil => simp [Ordered, Store.insert]
  | cons first rest ih =>
      obtain ⟨k, v⟩ := first
      obtain ⟨hfirst, hrest⟩ := List.pairwise_cons.mp h
      unfold Store.insert
      split_ifs with hlt heq
      · refine List.pairwise_cons.mpr ⟨fun entry he => ?_, h⟩
        obtain rfl | he := List.mem_cons.mp he
        · exact hlt
        · exact String.lt_trans hlt (hfirst entry he)
      · subst heq
        exact List.pairwise_cons.mpr ⟨hfirst, hrest⟩
      · refine List.pairwise_cons.mpr ⟨fun entry he => ?_, ih hrest⟩
        obtain rfl | he := mem_insert he
        · exact Std.lt_of_le_of_ne (String.not_lt.mp hlt) (Ne.symm heq)
        · exact hfirst entry he

theorem ordered_ofList (entries : List (String × String)) : Ordered (ofList entries) := by
  unfold ofList
  suffices h : ∀ table, Ordered table →
      Ordered (entries.foldl (fun table entry => Store.insert entry.1 entry.2 table) table) from
    h [] List.Pairwise.nil
  induction entries with
  | nil => exact fun _ h => h
  | cons entry rest ih => exact fun table h => ih _ (h.insert entry.1 entry.2)

-- A key behind all others goes to the end.
theorem insert_eq_append (h : ∀ entry ∈ entries, entry.1 < key) (value : String) :
    insert key value entries = entries ++ [(key, value)] := by
  induction entries with
  | nil => rfl
  | cons first rest ih =>
      obtain ⟨k, v⟩ := first
      obtain ⟨hfirst, hrest⟩ := List.forall_mem_cons.mp h
      have hne : key ≠ k := fun heq => String.lt_irrefl k (heq ▸ hfirst)
      rw [insert, if_neg (String.lt_asymm hfirst), if_neg hne, ih hrest, List.cons_append]

private theorem foldl_insert (h : Ordered (before ++ entries)) :
    entries.foldl (fun table (key, value) => insert key value table) before =
      before ++ entries := by
  induction entries generalizing before with
  | nil => simp
  | cons entry rest ih =>
      obtain ⟨key, value⟩ := entry
      have hbefore : ∀ other ∈ before, other.1 < key := fun other ho =>
        (List.pairwise_append.mp h).2.2 other ho (key, value) List.mem_cons_self
      have hordered : Ordered (before ++ [(key, value)] ++ rest) := by simpa [Ordered] using h
      simpa [insert_eq_append hbefore] using ih hordered

theorem ofList_eq (h : Ordered entries) : ofList entries = entries := foldl_insert h

end Ordered

-- Stores of this kind take every value and give it back, for as long as they are written to.
def Reliable (kind : Store → Prop) : Prop :=
  ∀ s, kind s → ∀ key value, ∃ s', s.set key value = .ok s' ∧ kind s' ∧
    s'.get key = .ok (some value) ∧ ∀ other, other ≠ key → s'.get other = s.get other

def Dependable (s : Store) : Prop := ∃ kind, Reliable kind ∧ kind s

theorem Dependable.set {s : Store} (h : s.Dependable) (key value : String) :
    ∃ s', s.set key value = .ok s' ∧ s'.Dependable ∧ s'.get key = .ok (some value) ∧
      ∀ other, other ≠ key → s'.get other = s.get other := by
  obtain ⟨kind, hkind, hs⟩ := h
  obtain ⟨s', hset, hs', hself, hothers⟩ := hkind s hs key value
  exact ⟨s', hset, ⟨kind, hkind, hs'⟩, hself, hothers⟩

theorem dependable_memory (entries : List (String × String)) : (memory entries).Dependable := by
  refine ⟨fun s => ∃ entries, s = .memory entries, ?_, entries, rfl⟩
  rintro _ ⟨entries, rfl⟩ key value
  refine ⟨.memory (insert key value entries), rfl, ⟨_, rfl⟩, ?_, fun other hne => ?_⟩
  · exact congrArg Except.ok (lookup_insert_self key value entries)
  · exact congrArg Except.ok (lookup_insert_of_ne hne value entries)

section Found

variable {s : Store} {key : String} {value : Option String}

-- What somebody finds who takes a store that cannot be read for an empty one.
def found? (s : Store) (key : String) : Option String :=
  match s.get key with
  | .ok value => value
  | .error _ => none

theorem found?_of_get (h : s.get key = .ok value) : s.found? key = value := by
  rw [found?, h]

theorem detect_eq (s : Store) (surroundings : Option String) (key : String) :
    Locale.detect s surroundings key =
      Locale.ofTag? (((s.found? key).filter (· ≠ "")).or surroundings) := by
  unfold Locale.detect found?
  cases s.get key <;> rfl

-- Such a store takes every value and gives it back, and under all other keys is found what was
-- found before. It need not have been readable before the first value.
def Working (s : Store) : Prop := ∃ kind : Store → Prop, kind s ∧ ∀ s, kind s → ∀ key value,
  ∃ s', s.set key value = .ok s' ∧ kind s' ∧ s'.get key = .ok (some value) ∧
    ∀ other, other ≠ key → s'.found? other = s.found? other

theorem Working.set (h : s.Working) (key value : String) : ∃ s', s.set key value = .ok s' ∧
    s'.Working ∧ s'.get key = .ok (some value) ∧
      ∀ other, other ≠ key → s'.found? other = s.found? other := by
  obtain ⟨kind, hs, hkind⟩ := h
  obtain ⟨s', hset, hs', hself, hothers⟩ := hkind s hs key value
  exact ⟨s', hset, ⟨kind, hs', hkind⟩, hself, hothers⟩

theorem Dependable.working (h : s.Dependable) : s.Working := by
  obtain ⟨kind, hkind, hs⟩ := h
  refine ⟨kind, hs, fun s hs key value => ?_⟩
  obtain ⟨s', hset, hs', hself, hothers⟩ := hkind s hs key value
  refine ⟨s', hset, hs', hself, fun other hne => ?_⟩
  rw [found?, hothers other hne, ← found?]

end Found

-- A stored locale is what an engine starts with.
theorem detect_of_get {s : Store} {key : String} {l : Locale}
    (h : s.get key = .ok (some l.tag)) (surroundings : Option String) :
    Locale.detect s surroundings key = l := by
  unfold Locale.detect
  rw [h]
  cases l <;> rfl

end PageLocalizer.Store
