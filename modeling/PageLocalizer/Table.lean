-- Values under keys, each key once.
namespace PageLocalizer

abbrev Table (κ α : Type) := List (κ × α)

namespace Table

variable {κ α : Type} [DecidableEq κ]

-- The value takes the place of the one that the key had.
def set (key : κ) (value : α) (t : Table κ α) : Table κ α :=
  (key, value) :: t.filter (·.1 ≠ key)

def erase (key : κ) (t : Table κ α) : Table κ α := t.filter (·.1 ≠ key)

-- The later value of a key wins.
def ofList (entries : List (κ × α)) : Table κ α :=
  entries.foldl (fun t (key, value) => t.set key value) []

-- Changes the value of a key that is there.
def modify (key : κ) (f : α → α) (t : Table κ α) : Table κ α :=
  t.map fun (k, a) => if k = key then (k, f a) else (k, a)

theorem mem_of_mem_set {key : κ} {value : α} {t : Table κ α} {entry : κ × α}
    (h : entry ∈ t.set key value) : entry = (key, value) ∨ entry ∈ t :=
  (List.mem_cons.mp h).imp_right fun h => (List.mem_filter.mp h).1

theorem mem_of_lookup {key : κ} {value : α} {t : Table κ α} (h : t.lookup key = some value) :
    (key, value) ∈ t := by
  obtain ⟨front, back, rfl, -⟩ := List.lookup_eq_some_iff.mp h
  simp

theorem lookup_of_mem {key : κ} {value : α} {t : Table κ α} (hnd : (t.map Prod.fst).Nodup)
    (h : (key, value) ∈ t) : t.lookup key = some value := by
  induction t with
  | nil => simp at h
  | cons entry rest ih =>
      obtain ⟨hnew, hnd⟩ := List.nodup_cons.mp hnd
      rcases List.mem_cons.mp h with rfl | h
      · simp
      · have hne : (key == entry.1) = false := by
          simpa using fun he : key = entry.1 => hnew (he ▸ List.mem_map_of_mem h)
        rw [List.lookup_cons, hne]
        exact ih hnd h

theorem nodup_erase {t : Table κ α} (hnd : (t.map Prod.fst).Nodup) (key : κ) :
    ((t.erase key).map Prod.fst).Nodup :=
  hnd.sublist (List.filter_sublist.map _)

theorem nodup_set {t : Table κ α} (hnd : (t.map Prod.fst).Nodup) (key : κ) (value : α) :
    ((t.set key value).map Prod.fst).Nodup := by
  refine List.nodup_cons.mpr ⟨fun h => ?_, nodup_erase hnd key⟩
  obtain ⟨entry, hm, he⟩ := List.mem_map.mp h
  have hne := (List.mem_filter.mp hm).2
  simp [he] at hne

-- Where no key comes twice, the order does not matter.
theorem lookup_perm {t t' : Table κ α} (hnd : (t.map Prod.fst).Nodup) (hp : t.Perm t') (key : κ) :
    t.lookup key = t'.lookup key := by
  have hnd' : (t'.map Prod.fst).Nodup := (hp.map Prod.fst).nodup_iff.mp hnd
  ext value
  exact ⟨fun h => lookup_of_mem hnd' (hp.mem_iff.mp (mem_of_lookup h)),
    fun h => lookup_of_mem hnd (hp.mem_iff.mpr (mem_of_lookup h))⟩

theorem lookup_set_self (key : κ) (value : α) (t : Table κ α) :
    (t.set key value).lookup key = some value := by
  simp [set]

-- Entries of other keys do not matter to a lookup.
theorem lookup_filter_ne {key other : κ} (h : other ≠ key) (t : Table κ α) :
    List.lookup other (t.filter (·.1 ≠ key)) = t.lookup other := by
  induction t with
  | nil => rfl
  | cons entry rest ih =>
    obtain ⟨k, a⟩ := entry
    by_cases hk : k = key
    · have hb : (other == k) = false := by simp [hk, h]
      rw [List.filter_cons_of_neg (by simp [hk]), List.lookup_cons, hb, ih]
    · rw [List.filter_cons_of_pos (by simp [hk]), List.lookup_cons, List.lookup_cons, ih]

theorem lookup_set_of_ne {key other : κ} (h : other ≠ key) (value : α) (t : Table κ α) :
    (t.set key value).lookup other = t.lookup other := by
  have hb : (other == key) = false := by simp [h]
  simp only [set, List.lookup_cons, hb]
  exact lookup_filter_ne h t

theorem lookup_erase_self (key : κ) (t : Table κ α) : (t.erase key).lookup key = none := by
  refine List.lookup_eq_none_iff.2 fun entry h => ?_
  have hne : entry.1 ≠ key := by simpa using (List.mem_filter.1 h).2
  simpa using hne.symm

theorem lookup_erase_of_ne {key other : κ} (h : other ≠ key) (t : Table κ α) :
    (t.erase key).lookup other = t.lookup other := lookup_filter_ne h t

theorem lookup_modify (key other : κ) (f : α → α) (t : Table κ α) :
    (t.modify key f).lookup other =
      if other = key then (t.lookup other).map f else t.lookup other := by
  induction t with
  | nil => simp [modify]
  | cons entry rest ih =>
    obtain ⟨k, a⟩ := entry
    have hcons : modify key f ((k, a) :: rest) =
        (k, if k = key then f a else a) :: modify key f rest := by
      simp only [modify, List.map_cons]
      split <;> rfl
    rw [hcons, List.lookup_cons, List.lookup_cons]
    by_cases hk : other = k
    · subst hk
      by_cases h : other = key <;> simp [h]
    · have hb : (other == k) = false := by simp [hk]
      simp only [hb]
      exact ih

theorem foldl_set_perm (entries : List (κ × α)) (t : Table κ α)
    (h : ((entries ++ t).map Prod.fst).Nodup) :
    (entries.foldl (fun t (key, value) => t.set key value) t).Perm (entries ++ t) := by
  induction entries generalizing t with
  | nil => exact .refl _
  | cons entry rest ih =>
    obtain ⟨key, value⟩ := entry
    simp only [List.cons_append, List.map_cons, List.nodup_cons] at h
    have hkept : t.filter (·.1 ≠ key) = t := by
      refine List.filter_eq_self.mpr fun other hm => ?_
      have hne : other.1 ≠ key := fun he => h.1 (by simp [← he, List.mem_map_of_mem hm])
      simpa using hne
    have hmiddle : (rest ++ t.set key value).Perm ((key, value) :: rest ++ t) := by
      rw [set, hkept]
      exact List.perm_middle
    refine (ih (t.set key value) ?_).trans hmiddle
    exact (hmiddle.map Prod.fst).nodup_iff.mpr (List.nodup_cons.mpr h)

-- Nothing is lost where no key comes twice.
theorem ofList_perm {entries : List (κ × α)} (h : (entries.map Prod.fst).Nodup) :
    (ofList entries).Perm entries := by
  have hp := foldl_set_perm entries [] (by simpa using h)
  rwa [List.append_nil] at hp

theorem lookup_foldl_set (entries : List (κ × α)) (t : Table κ α) (key : κ) :
    (entries.foldl (fun t (key, value) => t.set key value) t).lookup key =
      (entries.reverse.lookup key).or (t.lookup key) := by
  induction entries generalizing t with
  | nil => simp
  | cons entry rest ih =>
    obtain ⟨k, a⟩ := entry
    rw [List.foldl_cons, ih, List.reverse_cons, List.lookup_append, Option.or_assoc]
    by_cases hk : key = k
    · subst hk
      simp [lookup_set_self]
    · have hb : (key == k) = false := by simp [hk]
      simp [lookup_set_of_ne hk, List.lookup_cons, hb]

theorem lookup_ofList (entries : List (κ × α)) (key : κ) :
    (ofList entries).lookup key = entries.reverse.lookup key := by
  simp [ofList, lookup_foldl_set]

theorem lookup_ofList_append (entries more : List (κ × α)) (key : κ) :
    (ofList (entries ++ more)).lookup key =
      ((ofList more).lookup key).or ((ofList entries).lookup key) := by
  simp [lookup_ofList, List.lookup_append]

theorem nodup_ofList (entries : List (κ × α)) : ((ofList entries).map Prod.fst).Nodup := by
  have hfold (t : Table κ α) (ht : (t.map Prod.fst).Nodup) :
      ((entries.foldl (fun t (key, value) => t.set key value) t).map Prod.fst).Nodup := by
    induction entries generalizing t with
    | nil => exact ht
    | cons entry rest ih => exact ih _ (nodup_set ht entry.1 entry.2)
  exact hfold [] List.nodup_nil

theorem lookup_ofList_of_nodup {t : Table κ α} (hnd : (t.map Prod.fst).Nodup) (key : κ) :
    (ofList t).lookup key = t.lookup key :=
  lookup_perm (nodup_ofList t) (ofList_perm hnd) key

end Table
end PageLocalizer
