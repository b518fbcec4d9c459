import PageLocalizer.Proofs.Preferences
import PageLocalizer.Proofs.Toml.Integers
import PageLocalizer.UpdateCheck

-- Lookups of new versions: never two within one interval, and none that is due is left out.
namespace PageLocalizer

section Records

open PageLocalizer.Toml

variable {n : Int} {r : UpdateRecord}

-- What a signed number of 64 bits can be.
def IsInt64 (n : Int) : Prop := -(Number.twoTo 63 : Int) ≤ n ∧ n < (Number.twoTo 63 : Int)

private theorem integer?_of_isInt64 (h : IsInt64 n) :
    (Value.integer (some n)).integer? = some n := by
  have hfits : (decide (-(Number.twoTo 63 : Int) ≤ n ∧ n < (Number.twoTo 63 : Int))) = true :=
    decide_eq_true h
  rw [Value.integer?, Option.filter_some, if_pos hfits]

-- The lines of a record. A version that is missing has none.
def UpdateRecord.written (r : UpdateRecord) : List Assignment :=
  (r.newestVersion.map fun version => Assignment.ofString ("newest_version", version)).toList ++
    [Assignment.ofInteger "last_checked" r.lastChecked]

theorem UpdateRecord.text_eq (r : UpdateRecord) :
    r.text = String.ofList (r.written.flatMap Assignment.line) := by
  obtain ⟨version, checked⟩ := r
  cases version <;> simp [UpdateRecord.text, UpdateRecord.written, Assignment.line,
    Assignment.ofString, Assignment.ofInteger, stringAssignment]

-- A record is read back as it was written.
theorem UpdateRecord.parse_text (h : IsInt64 r.lastChecked) :
    UpdateRecord.parse r.text = some r := by
  have hfields : Toml.parse r.text = some (r.written.map Assignment.field) := by
    rw [r.text_eq, parse_flatMap_line]
    · obtain ⟨version, checked⟩ := r
      cases version <;> simp [UpdateRecord.written, reads_ofString, reads_ofInteger]
    · obtain ⟨version, checked⟩ := r
      cases version <;> simp [UpdateRecord.written, Assignment.ofString, Assignment.ofInteger]
  have hchecked := integer?_of_isInt64 h
  obtain ⟨version, checked⟩ := r
  rw [UpdateRecord.parse, hfields]
  cases version <;> simp [UpdateRecord.written, Assignment.field, Assignment.ofString,
    Assignment.ofInteger, parts?, part, allReadable, Value.string?, List.lookup_cons, hchecked]

end Records

namespace UpdateCheck

variable {c : UpdateCheck} {s : Store} {now : Instant}

section Steps

theorem record_eq (c : UpdateCheck) (s : Store) :
    c.record s = ((s.found? c.key).bind UpdateRecord.parse).getD .none := by
  unfold record Store.found?
  cases s.get c.key with
  | ok value => cases value <;> rfl
  | error _ => rfl

-- A write under another key leaves the record as it is.
theorem record_set (h : s.Working) {key : String} (hne : key ≠ c.key) (value : String) :
    ∃ s', s.set key value = .ok s' ∧ s'.Working ∧ c.record s' = c.record s := by
  obtain ⟨s', hset, hs', -, hothers⟩ := h.set key value
  refine ⟨s', hset, hs', ?_⟩
  rw [record_eq, record_eq, hothers c.key hne.symm]

-- What is kept is what is found from then on.
theorem record_recordRelease (h : s.Working) (hnow : IsInt64 now.seconds) (tag : String) :
    ∃ s', c.recordRelease s tag now = .ok (⟨versionOf tag, now.seconds⟩, s') ∧ s'.Working ∧
      c.record s' = ⟨versionOf tag, now.seconds⟩ := by
  obtain ⟨s', hset, hs', hself, -⟩ :=
    h.set c.key (UpdateRecord.text ⟨versionOf tag, now.seconds⟩)
  refine ⟨s', ?_, hs', ?_⟩
  · rw [recordRelease, hset]
    rfl
  · rw [record_eq, Store.found?_of_get hself, Option.bind_some, UpdateRecord.parse_text hnow,
      Option.getD_some]

end Steps

section Versions

-- A tag names a version: it is the tag without blanks around it and without one leading `v`.
inductive Names (tag : String) : String → Prop where
  | marked {version : String} :
      (Text.trim tag).toList = 'v' :: version.toList → Names tag version
  | unmarked : (Text.trim tag).toList.head? ≠ some 'v' → Names tag (Text.trim tag)

theorem nonempty_eq_some_iff {found version : String} :
    (if found = "" then none else some found) = some version ↔
      found = version ∧ version ≠ "" := by
  constructor
  · intro h
    split at h
    · simp at h
    · next hfound =>
        obtain rfl := Option.some.inj h
        exact ⟨rfl, hfound⟩
  · rintro ⟨rfl, hne⟩
    rw [if_neg hne]

theorem versionOf_eq_some_iff {tag version : String} :
    versionOf tag = some version ↔ Names tag version ∧ version ≠ "" := by
  unfold versionOf
  split
  · next rest hrest =>
      have hnames : Names tag version ↔ String.ofList rest = version := by
        constructor
        · intro h
          cases h with
          | marked hv => rw [(List.cons.inj (hrest.symm.trans hv)).2, String.ofList_toList]
          | unmarked hv => simp [hrest] at hv
        · rintro rfl
          exact .marked (by rw [hrest, String.toList_ofList])
      rw [hnames]
      exact nonempty_eq_some_iff
  · next trimmed htrimmed =>
      have hnames : Names tag version ↔ String.ofList (Text.trim tag).toList = version := by
        rw [String.ofList_toList]
        constructor
        · intro h
          cases h with
          | marked hv => exact absurd hv (htrimmed _)
          | unmarked _ => rfl
        · rintro rfl
          refine .unmarked fun hhead => ?_
          obtain ⟨rest, hrest⟩ := List.head?_eq_some_iff.mp hhead
          exact htrimmed rest hrest
      rw [hnames]
      exact nonempty_eq_some_iff

theorem available_eq_some_iff {current version : String} :
    c.available s current = some version ↔ (c.record s).newestVersion = some version ∧
      compareVersions version current = .gt := by
  rw [available, Option.filter_eq_some_iff, beq_iff_eq]

end Versions

section Courses

-- Somebody writes under a key, or a page is loaded while a lookup would find the given tag.
inductive Event where
  | write (key value : String)
  | load (now : Instant) (tag : String)

-- A store, and the lookups so far with what they found, the latest first.
structure Course where
  store : Store
  lookups : List (Instant × String)

-- A load looks when a lookup is due, and keeps what it finds.
def next (c : UpdateCheck) (course : Course) : Event → Except StoreError Course
  | .write key value => (course.store.set key value).map ({ course with store := · })
  | .load now tag =>
    if c.isDue course.store now then
      (c.recordRelease course.store tag now).map fun (_, store) =>
        { store, lookups := (now, tag) :: course.lookups }
    else .ok course

def run (c : UpdateCheck) (course : Course) (events : List Event) : Except StoreError Course :=
  events.foldlM c.next course

-- The key is left alone, and the time fits into the record.
def Proper (c : UpdateCheck) : Event → Prop
  | .write key _ => key ≠ c.key
  | .load now _ => IsInt64 now.seconds

-- Since 1970, and no less exact than a clock tells it.
def nanoseconds (now : Instant) : Int := now.seconds * 1000000000 + now.nanoseconds.val

-- The second of the last lookup, which before the first one is told by what is found at the start.
def lastLookup (c : UpdateCheck) (start : Store) (course : Course) : Int :=
  match course.lookups with
  | [] => (c.record start).lastChecked
  | (last, _) :: _ => last.seconds

-- Seconds are told without their fractions, so only a difference of more than the interval in
-- them is one in time.
private theorem interval_lt_nanoseconds {earlier : Instant}
    (h : c.interval < now.seconds - earlier.seconds) :
    c.interval * 1000000000 < nanoseconds now - nanoseconds earlier := by
  have hnow := now.nanoseconds.isLt
  have hearlier := earlier.nanoseconds.isLt
  unfold nanoseconds
  omega

-- What holds after every event.
structure Regular (c : UpdateCheck) (start : Store) (course : Course) : Prop where
  working : course.store.Working
  apart : course.lookups.IsChain fun later earlier =>
    c.interval * 1000000000 < nanoseconds later.1 - nanoseconds earlier.1
  lastChecked : (c.record course.store).lastChecked = c.lastLookup start course
  newestVersion : ∀ last tag earlier, course.lookups = (last, tag) :: earlier →
    (c.record course.store).newestVersion = versionOf tag

variable {start : Store} {course : Course} {event : Event}

theorem Regular.initial (h : s.Working) : c.Regular s { store := s, lookups := [] } where
  working := h
  apart := .nil
  lastChecked := rfl
  newestVersion := by simp

theorem Regular.isDue_iff (h : c.Regular start course) (now : Instant) :
    c.isDue course.store now = true ↔ c.interval < now.seconds - c.lastLookup start course := by
  rw [isDue, h.lastChecked, decide_eq_true_iff]

theorem Regular.load (h : c.Regular start course) (hnow : IsInt64 now.seconds) (tag : String) :
    ∃ course', c.next course (.load now tag) = .ok course' ∧ c.Regular start course' ∧
      course'.lookups = if c.interval < now.seconds - c.lastLookup start course then
        (now, tag) :: course.lookups else course.lookups := by
  by_cases hdue : c.interval < now.seconds - c.lastLookup start course
  · obtain ⟨s', hkeep, hs', hrecord⟩ := record_recordRelease (c := c) h.working hnow tag
    refine ⟨{ store := s', lookups := (now, tag) :: course.lookups }, ?_, ⟨hs', ?_, ?_, ?_⟩, ?_⟩
    · simp only [next, (h.isDue_iff now).mpr hdue, if_true, hkeep]
      rfl
    · have hapart := h.apart
      unfold lastLookup at hdue
      cases hlookups : course.lookups with
      | nil => exact .singleton _
      | cons last rest =>
          rw [hlookups] at hdue hapart
          exact .cons_cons (interval_lt_nanoseconds hdue) hapart
    · rw [hrecord]
      rfl
    · rintro _ _ _ heq
      obtain ⟨heq, -⟩ := List.cons.inj heq
      rw [hrecord, (Prod.mk.inj heq).2]
    · rw [if_pos hdue]
  · refine ⟨course, ?_, h, ?_⟩
    · rw [next, if_neg (mt (h.isDue_iff now).mp hdue)]
    · rw [if_neg hdue]

theorem Regular.next (h : c.Regular start course) (hevent : c.Proper event) :
    ∃ course', c.next course event = .ok course' ∧ c.Regular start course' := by
  cases event with
  | write key value =>
      obtain ⟨s', hset, hs', hrecord⟩ := record_set h.working hevent value
      refine ⟨{ course with store := s' }, ?_, hs', h.apart, ?_, ?_⟩
      · rw [UpdateCheck.next, hset]
        rfl
      · rw [hrecord]
        exact h.lastChecked
      · rw [hrecord]
        exact h.newestVersion
  | load now tag =>
      obtain ⟨course', hnext, hregular, -⟩ := h.load hevent tag
      exact ⟨course', hnext, hregular⟩

theorem Regular.run {events : List Event} (h : c.Regular start course)
    (hevents : ∀ event ∈ events, c.Proper event) :
    ∃ course', c.run course events = .ok course' ∧ c.Regular start course' := by
  induction events generalizing course with
  | nil => exact ⟨course, rfl, h⟩
  | cons event events ih =>
      obtain ⟨hevent, hevents⟩ := List.forall_mem_cons.mp hevents
      obtain ⟨course', hnext, hcourse'⟩ := h.next hevent
      obtain ⟨course'', hrun, hcourse''⟩ := ih hcourse' hevents
      refine ⟨course'', ?_, hcourse''⟩
      rw [UpdateCheck.run, List.foldlM_cons, hnext]
      exact hrun

-- After whatever has happened: no two lookups in a row are within one interval, the next load looks
-- exactly when its second is more than the interval after that of the last lookup, and what is
-- announced is the version that the last lookup found.
theorem lookups_regular (c : UpdateCheck) (start : Store) (events : List Event)
    (hstart : start.Working) (hevents : ∀ event ∈ events, c.Proper event) :
    ∃ course, c.run { store := start, lookups := [] } events = .ok course ∧
      (course.lookups.IsChain fun later earlier =>
        c.interval * 1000000000 < nanoseconds later.1 - nanoseconds earlier.1) ∧
      (∀ now tag, IsInt64 now.seconds → ∃ course', c.next course (.load now tag) = .ok course' ∧
        course'.lookups = if c.interval < now.seconds - c.lastLookup start course then
          (now, tag) :: course.lookups else course.lookups) ∧
      ∀ last tag earlier, course.lookups = (last, tag) :: earlier → ∀ current version,
        c.available course.store current = some version ↔
          Names tag version ∧ version ≠ "" ∧ compareVersions version current = .gt := by
  obtain ⟨course, hrun, hcourse⟩ := (Regular.initial hstart).run hevents
  refine ⟨course, hrun, hcourse.apart, fun now tag hnow => ?_, ?_⟩
  · obtain ⟨course', hnext, -, hlookups⟩ := hcourse.load hnow tag
    exact ⟨course', hnext, hlookups⟩
  · intro last tag earlier hlast current version
    rw [available_eq_some_iff, hcourse.newestVersion last tag earlier hlast,
      versionOf_eq_some_iff, and_assoc]

-- A file that is no table at the start, and a write by somebody else between two loads.
theorem lookups_regular_malformed :
    let start := Store.file (.text "[")
    let events := [.load ⟨1700000000, 999999999⟩ "v0.2.0", .write "i18n-storage" "fa-IR",
      .load ⟨1700086401, 0⟩ " v0.3.0\n"]
    ∃ course, standard.run { store := start, lookups := [] } events = .ok course ∧
      (course.lookups.IsChain fun later earlier =>
        standard.interval * 1000000000 < nanoseconds later.1 - nanoseconds earlier.1) ∧
      (∀ now tag, IsInt64 now.seconds →
        ∃ course', standard.next course (.load now tag) = .ok course' ∧
          course'.lookups = if standard.interval < now.seconds - standard.lastLookup start course
            then (now, tag) :: course.lookups else course.lookups) ∧
      ∀ last tag earlier, course.lookups = (last, tag) :: earlier → ∀ current version,
        standard.available course.store current = some version ↔
          Names tag version ∧ version ≠ "" ∧ compareVersions version current = .gt := by
  refine lookups_regular standard _ _ (Store.working_file (by simp [Store.Writable])) ?_
  intro event hevent
  simp only [List.mem_cons, List.not_mem_nil, or_false] at hevent
  rcases hevent with rfl | rfl | rfl
  · exact ⟨by decide, by decide⟩
  · exact (by decide : "i18n-storage" ≠ "update-check")
  · exact ⟨by decide, by decide⟩

end Courses

end UpdateCheck

end PageLocalizer
