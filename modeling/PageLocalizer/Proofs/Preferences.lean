import Mathlib.Logic.Function.Basic
import PageLocalizer.Proofs.Toml.Tables

-- A preference file behaves like a store in memory, for all who work with it.
namespace PageLocalizer.Store

variable {entries : List (String × String)} {state : FileState} {path : String}

inductive Request where
  | get (key : String)
  | set (key value : String)

abbrev Answer := Except StoreError (Option String)

-- A request that fails changes nothing.
def Request.on (s : Store) : Request → Answer × Store
  | .get key => (s.get key, s)
  | .set key value =>
    match s.set key value with
    | .ok s' => (.ok none, s')
    | .error e => (.error e, s)

def answers (s : Store) : List Request → List Answer
  | [] => []
  | request :: rest => (request.on s).1 :: (request.on s).2.answers rest

def afterAll (s : Store) (requests : List Request) : Store :=
  requests.foldl (fun s request => (request.on s).2) s

abbrev Disk := String → FileState

-- A store on file knows nothing but the path of its file, so all stores with one path are alike.
structure Call where
  path : String
  request : Request

namespace Disk

def after (disk : Disk) (call : Call) : Disk :=
  match (call.request.on (.file (disk call.path))).2 with
  | .file state => Function.update disk call.path state
  | _ => disk

def afterAll (disk : Disk) (calls : List Call) : Disk := calls.foldl after disk

def answers (disk : Disk) : List Call → List Answer
  | [] => []
  | call :: rest =>
    (call.request.on (.file (disk call.path))).1 :: (disk.after call).answers rest

end Disk

section Files

-- A file that is not there holds nothing, and a table of strings holds its entries.
inductive Holds : FileState → List (String × String) → Prop where
  | absent : Holds .absent []
  | text {content : String} {entries : List (String × String)} :
      table? content = some entries → Holds (.text content) entries

theorem Holds.readTable (h : Holds state entries) : readTable state = .ok entries := by
  cases h with
  | absent => rfl
  | text ht => rw [Store.readTable, ht]

theorem Holds.ordered (h : Holds state entries) : Ordered entries := by
  cases h with
  | absent => exact List.Pairwise.nil
  | text ht =>
      unfold table? at ht
      obtain ⟨fields, -, ht⟩ := Option.bind_eq_some_iff.mp ht
      obtain ⟨list, -, ht⟩ := Option.bind_eq_some_iff.mp ht
      obtain rfl := Option.some.inj ht
      exact ordered_ofList list

theorem Holds.get (h : Holds state entries) (key : String) :
    (Store.file state).get key = .ok (entries.lookup key) := by
  rw [Store.get, h.readTable]
  rfl

-- The whole table is written anew, and none of it is lost on the way.
theorem Holds.set (h : Holds state entries) (key value : String) :
    ∃ state', (Store.file state).set key value = .ok (.file state') ∧
      Holds state' (insert key value entries) := by
  refine ⟨.text (Toml.stringTable (insert key value entries)), ?_,
    .text (Toml.table?_stringTable (h.ordered.insert key value))⟩
  have hread := h.readTable
  cases h with
  | absent => rfl
  | text ht => simp [Store.set, writeTable, hread, Except.map]

-- One request, to a file and to a store in memory.
theorem Holds.on (h : Holds state entries) (request : Request) : ∃ state' entries',
    Holds state' entries' ∧ (request.on (.file state)).2 = .file state' ∧
      (request.on (.memory entries)).2 = .memory entries' ∧
      (request.on (.file state)).1 = (request.on (.memory entries)).1 := by
  cases request with
  | get key => exact ⟨state, entries, h, rfl, rfl, h.get key⟩
  | set key value =>
      obtain ⟨state', hset, hholds⟩ := h.set key value
      refine ⟨state', insert key value entries, hholds, ?_, rfl, ?_⟩
      all_goals simp only [Request.on, hset]
      rfl

-- A file that takes what is written.
def Writable (state : FileState) : Prop := state ≠ .blocked ∧ state ≠ .directory

-- What a file holds, where one that cannot be read counts as empty.
def entriesOf (state : FileState) : List (String × String) :=
  match readTable state with
  | .ok entries => entries
  | .error _ => []

theorem found?_file (state : FileState) (key : String) :
    (file state).found? key = (entriesOf state).lookup key := by
  unfold found? entriesOf
  rw [show (Store.file state).get key = (readTable state).map (·.lookup key) from rfl]
  cases readTable state <;> simp [Except.map]

theorem ordered_entriesOf (state : FileState) : Ordered (entriesOf state) := by
  cases state with
  | text content =>
      cases ht : table? content with
      | none =>
          have hempty : entriesOf (.text content) = [] := by simp [entriesOf, readTable, ht]
          rw [hempty]
          exact List.Pairwise.nil
      | some entries => simpa [entriesOf, readTable, ht] using (Holds.text ht).ordered
  | _ => exact List.Pairwise.nil

theorem set_file (h : Writable state) (key value : String) : ∃ state',
    (file state).set key value = .ok (.file state') ∧ Writable state' ∧
      Holds state' (insert key value (entriesOf state)) := by
  have hholds := Holds.text (Toml.table?_stringTable ((ordered_entriesOf state).insert key value))
  cases state with
  | blocked => exact absurd rfl h.1
  | directory => exact absurd rfl h.2
  | _ => exact ⟨_, rfl, by simp [Writable], hholds⟩

theorem working_file (h : Writable state) : (file state).Working := by
  refine ⟨fun s => ∃ state, s = .file state ∧ Writable state, ⟨state, rfl, h⟩, ?_⟩
  rintro _ ⟨state, rfl, h⟩ key value
  obtain ⟨state', hset, hwritable, hholds⟩ := set_file h key value
  refine ⟨.file state', hset, ⟨state', rfl, hwritable⟩, ?_, fun other hne => ?_⟩
  · rw [hholds.get, lookup_insert_self]
  · rw [found?_of_get (hholds.get other), lookup_insert_of_ne hne, found?_file]

section Records

variable {key other value : String} {s : Store}

-- A file that takes what is written, and has this value.
def Records (key value : String) (s : Store) : Prop :=
  ∃ state, s = .file state ∧ Writable state ∧ s.get key = .ok (some value)

theorem records_set (h : Writable state) (key value : String) :
    ∃ s', (file state).set key value = .ok s' ∧ s'.Records key value := by
  obtain ⟨state', hset, hwritable, hholds⟩ := set_file h key value
  exact ⟨_, hset, state', rfl, hwritable, by rw [hholds.get, lookup_insert_self]⟩

theorem Records.set (h : s.Records key value) (hne : key ≠ other) (more : String) :
    ∃ s', s.set other more = .ok s' ∧ s'.Records key value := by
  obtain ⟨state, rfl, hwritable, hget⟩ := h
  obtain ⟨state', hset, hwritable', hholds⟩ := set_file hwritable other more
  refine ⟨_, hset, state', rfl, hwritable', ?_⟩
  rw [hholds.get, lookup_insert_of_ne hne, ← found?_file, found?_of_get hget]

end Records

end Files

namespace Disk

variable {disk : Disk} {calls : List Call}

-- What the stores with one path tell and leave behind, against one store in memory. A request to
-- read leaves everything as it is, and a request to write leaves all other keys.
structure Mirrors (disk : Disk) (path : String) (entries : List (String × String))
    (calls : List Call) : Prop where
  answers : disk.answers calls = (memory entries).answers (calls.map (·.request))
  table : ∃ entries', (memory entries).afterAll (calls.map (·.request)) = .memory entries' ∧
    Holds (disk.afterAll calls path) entries'
  get : ∀ key, (disk.afterAll calls).after ⟨path, .get key⟩ = disk.afterAll calls
  set : ∀ key value other, other ≠ key →
    (Store.file ((disk.afterAll calls).after ⟨path, .set key value⟩ path)).get other =
      (Store.file (disk.afterAll calls path)).get other

private theorem after_get (disk : Disk) (path key : String) : disk.after ⟨path, .get key⟩ = disk :=
  Function.update_eq_self path disk

theorem get_after_set (h : Holds (disk path) entries) {key other : String} (hne : other ≠ key)
    (value : String) : (Store.file (disk.after ⟨path, .set key value⟩ path)).get other =
      (Store.file (disk path)).get other := by
  obtain ⟨state', hset, hholds⟩ := h.set key value
  have hafter : disk.after ⟨path, .set key value⟩ path = state' := by
    simp [after, Request.on, hset]
  rw [hafter, hholds.get, h.get, lookup_insert_of_ne hne]

private theorem holds_after (h : Holds (disk path) entries) {call : Call} (hc : call.path = path) :
    ∃ entries', Holds (disk.after call path) entries' ∧
      (call.request.on (.memory entries)).2 = .memory entries' ∧
      (call.request.on (.file (disk call.path))).1 = (call.request.on (.memory entries)).1 := by
  subst hc
  obtain ⟨state', entries', hholds, hfile, hmemory, hanswer⟩ := h.on call.request
  refine ⟨entries', ?_, hmemory, hanswer⟩
  simpa [after, hfile] using hholds

-- Any calls, through any stores with this path, are answered as one store in memory that starts
-- with the table of the file would answer them.
theorem mirrors_memory (h : Holds (disk path) entries) (hcalls : ∀ call ∈ calls, call.path = path) :
    Mirrors disk path entries calls := by
  induction calls generalizing disk entries with
  | nil => exact ⟨rfl, ⟨entries, rfl, h⟩, after_get disk path,
      fun key value other hne => get_after_set h hne value⟩
  | cons call rest ih =>
      obtain ⟨hcall, hrest⟩ := List.forall_mem_cons.mp hcalls
      obtain ⟨entries', hholds, hmemory, hanswer⟩ := holds_after h hcall
      have hnext := ih hholds hrest
      refine ⟨?_, ?_, hnext.get, hnext.set⟩
      · rw [answers, List.map_cons, Store.answers, hanswer, hmemory, hnext.answers]
      · rw [List.map_cons, Store.afterAll, List.foldl_cons, hmemory]
        exact hnext.table

-- Keys and values with quotes of both kinds, backslashes and line ends, next to an older entry.
def awkward : List Call :=
  [.set "dashboard-locale" "zh", .set "say \"it's\"\n" "\"\"\"\\\r\n'''", .get "darkMode",
    .get "say \"it's\"\n"].map (⟨"preferences.toml", ·⟩)

theorem mirrors_memory_awkward : Holds (.text "darkMode = 'true' # old\n") [("darkMode", "true")] ∧
    (∀ call ∈ awkward, call.path = "preferences.toml") ∧
    Mirrors (fun _ => .text "darkMode = 'true' # old\n") "preferences.toml"
      [("darkMode", "true")] awkward := by
  have hholds : Holds (.text "darkMode = 'true' # old\n") [("darkMode", "true")] :=
    .text (by decide +kernel)
  have hcalls : ∀ call ∈ awkward, call.path = "preferences.toml" := by simp [awkward]
  exact ⟨hholds, hcalls, mirrors_memory hholds hcalls⟩

end Disk
end PageLocalizer.Store
