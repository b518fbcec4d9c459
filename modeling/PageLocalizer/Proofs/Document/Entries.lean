import PageLocalizer.Proofs.Document.Retention

-- Attribute lists that are drawn over, entry by entry.
namespace PageLocalizer.Document

variable {entries strokes others : List (String × String)} {name other u v : String}

theorem setEntry_self (h : entries.lookup name = some v) : setEntry name v entries = entries := by
  induction entries with
  | nil => simp at h
  | cons entry rest ih =>
      obtain ⟨m, w⟩ := entry
      by_cases hm : m = name
      · subst hm
        have hw : w = v := by simpa using h
        simp [setEntry, hw]
      · have hb : (name == m) = false := by simpa using fun he : name = m => hm he.symm
        rw [List.lookup_cons, hb] at h
        simp [setEntry, hm, ih h]

theorem setEntry_setEntry (name u v : String) (entries : List (String × String)) :
    setEntry name v (setEntry name u entries) = setEntry name v entries := by
  induction entries with
  | nil => simp [setEntry]
  | cons entry rest ih =>
      obtain ⟨m, w⟩ := entry
      by_cases hm : m = name <;> simp [setEntry, hm, ih]

-- An entry that has its place already can be set later.
theorem setEntry_comm (hne : other ≠ name) (h : (entries.lookup name).isSome) :
    setEntry name v (setEntry other u entries) = setEntry other u (setEntry name v entries) := by
  induction entries with
  | nil => simp at h
  | cons entry rest ih =>
      obtain ⟨m, w⟩ := entry
      by_cases hm : m = name
      · have ho : m ≠ other := fun he => hne (he.symm.trans hm)
        simp [setEntry, hm, Ne.symm hne]
      · have hb : (name == m) = false := by simpa using fun he : name = m => hm he.symm
        rw [List.lookup_cons, hb] at h
        by_cases ho : m = other
        · simp [setEntry, ho, hne]
        · simp [setEntry, hm, ho, ih h]

-- The list after some entries have been set, one after the other.
def redraw (entries strokes : List (String × String)) : List (String × String) :=
  strokes.foldl (fun entries stroke => setEntry stroke.1 stroke.2 entries) entries

@[simp] theorem redraw_nil (entries : List (String × String)) : redraw entries [] = entries := rfl

@[simp] theorem redraw_cons (entries strokes : List (String × String)) (stroke : String × String) :
    redraw entries (stroke :: strokes) = redraw (setEntry stroke.1 stroke.2 entries) strokes := rfl

theorem redraw_append (entries strokes others : List (String × String)) :
    redraw entries (strokes ++ others) = redraw (redraw entries strokes) others :=
  List.foldl_append

theorem lookup_redraw_of_not_mem (h : name ∉ strokes.map Prod.fst) :
    (redraw entries strokes).lookup name = entries.lookup name := by
  induction strokes generalizing entries with
  | nil => rfl
  | cons stroke rest ih =>
      rw [List.map_cons, List.mem_cons, not_or] at h
      rw [redraw_cons, ih h.2, lookup_setEntry, if_neg h.1]

theorem lookup_redraw_of_mem (hnd : (strokes.map Prod.fst).Nodup) (h : (name, v) ∈ strokes) :
    (redraw entries strokes).lookup name = some v := by
  induction strokes generalizing entries with
  | nil => simp at h
  | cons stroke rest ih =>
      obtain ⟨hnew, hnd⟩ := List.nodup_cons.mp hnd
      rcases List.mem_cons.mp h with rfl | h
      · rw [redraw_cons, lookup_redraw_of_not_mem hnew, lookup_setEntry, if_pos rfl]
      · exact ih hnd h

theorem setEntry_redraw (hne : name ∉ strokes.map Prod.fst) (h : (entries.lookup name).isSome) :
    setEntry name v (redraw entries strokes) = redraw (setEntry name v entries) strokes := by
  induction strokes generalizing entries with
  | nil => rfl
  | cons stroke rest ih =>
      rw [List.map_cons, List.mem_cons, not_or] at hne
      have hkept : ((setEntry stroke.1 stroke.2 entries).lookup name).isSome := by
        rw [lookup_setEntry, if_neg hne.1]
        exact h
      rw [redraw_cons, redraw_cons, ih hne.2 hkept, setEntry_comm (Ne.symm hne.1) h]

-- Strokes over the same entries leave nothing of the earlier ones.
theorem redraw_redraw (hsame : others.map Prod.fst = strokes.map Prod.fst)
    (hnd : (strokes.map Prod.fst).Nodup) :
    redraw (redraw entries others) strokes = redraw entries strokes := by
  induction strokes generalizing entries others with
  | nil => simp [List.map_eq_nil_iff.mp hsame]
  | cons stroke rest ih =>
      obtain ⟨former, formers, rfl, hfirst, hrest⟩ := List.map_eq_cons_iff.mp hsame
      obtain ⟨hnew, hnd⟩ := List.nodup_cons.mp hnd
      have hset : ((setEntry former.1 former.2 entries).lookup stroke.1).isSome := by
        simp [lookup_setEntry, hfirst]
      calc redraw (redraw entries (former :: formers)) (stroke :: rest)
        _ = redraw (setEntry stroke.1 stroke.2
              (redraw (setEntry former.1 former.2 entries) formers)) rest := by
            rw [redraw_cons, redraw_cons]
        _ = redraw (redraw (setEntry stroke.1 stroke.2 (setEntry former.1 former.2 entries))
              formers) rest := by rw [setEntry_redraw (hrest ▸ hnew) hset]
        _ = redraw (redraw (setEntry stroke.1 stroke.2 entries) formers) rest := by
            rw [hfirst, setEntry_setEntry]
        _ = redraw (setEntry stroke.1 stroke.2 entries) rest := ih hrest hnd
        _ = redraw entries (stroke :: rest) := (redraw_cons _ _ _).symm

theorem ofAttributes_setEntry (h : Dataset.suffix? name = none) (v : String)
    (entries : List (String × String)) :
    Dataset.ofAttributes (setEntry name v entries) = Dataset.ofAttributes entries := by
  induction entries with
  | nil => simp [setEntry, Dataset.ofAttributes, h]
  | cons entry rest ih =>
      obtain ⟨m, w⟩ := entry
      by_cases hm : m = name
      · simp [setEntry, Dataset.ofAttributes, hm, h]
      · unfold Dataset.ofAttributes at ih ⊢
        simp only [setEntry, if_neg hm, List.filterMap_cons, ih]

-- Parameters are spelled in other attributes than those that are drawn over.
theorem ofAttributes_redraw (h : ∀ n ∈ strokes.map Prod.fst, Dataset.suffix? n = none) :
    Dataset.ofAttributes (redraw entries strokes) = Dataset.ofAttributes entries := by
  induction strokes generalizing entries with
  | nil => rfl
  | cons stroke rest ih =>
      rw [redraw_cons, ih fun n hn => h n (List.mem_cons_of_mem _ hn),
        ofAttributes_setEntry (h _ List.mem_cons_self)]

end PageLocalizer.Document
