import Mathlib.Data.List.Infix
import PageLocalizer.Guard

-- Scopes of one guard that begin and end in any order.
namespace PageLocalizer.Guard

-- A guard and the scopes that are held of it, the oldest in front. All clones of a guard are one.
structure Held where
  guard : Guard
  scopes : List GuardScope

inductive Act where
  | acquire
  -- The end of the held scope at this place. The oldest is at place 0.
  | finish (place : Nat)
  deriving Repr, DecidableEq

namespace Held

def start : Held where
  guard := idle
  scopes := []

def step (s : Held) : Act → Held
  | .acquire => ⟨s.guard.acquire.2, s.scopes ++ [s.guard.acquire.1]⟩
  | .finish place =>
    match s.scopes[place]? with
    | some scope => ⟨scope.finish, s.scopes.eraseIdx place⟩
    | none => s

def run (s : Held) (acts : List Act) : Held := acts.foldl step s

-- The flag tells whether a scope is held.
def Truthful (s : Held) : Prop := s.guard.active = true ↔ s.scopes ≠ []

-- Only the oldest scope found the flag down, so only its end puts it down.
inductive Nested : Held → Prop where
  | free : Nested ⟨⟨false⟩, []⟩
  | held (younger : List GuardScope) (h : ∀ scope ∈ younger, scope.previous = true) :
      Nested ⟨⟨true⟩, ⟨false⟩ :: younger⟩

variable {s : Held}

theorem Nested.truthful (h : s.Nested) : s.Truthful := by
  cases h <;> simp [Truthful]

-- The one step that leaves a guard whose flag is down while scopes are held.
def Cuts (s : Held) (act : Act) : Prop := act = .finish 0 ∧ 1 < s.scopes.length

theorem Nested.not_truthful (h : s.Nested) {act : Act} (hc : s.Cuts act) :
    ¬(s.step act).Truthful := by
  obtain ⟨rfl, hlen⟩ := hc
  cases h with
  | free => simp at hlen
  | held younger _ =>
      cases younger with
      | nil => simp at hlen
      | cons scope rest => simp [step, Truthful, GuardScope.finish]

theorem Nested.step (h : s.Nested) {act : Act} (hc : ¬s.Cuts act) : (s.step act).Nested := by
  cases h with
  | free =>
      cases act with
      | acquire => exact .held [] (by simp)
      | finish place => exact .free
  | held younger hy =>
      cases act with
      | acquire =>
          refine .held (younger ++ [⟨true⟩]) fun scope hm => ?_
          rcases List.mem_append.mp hm with hm | hm
          · exact hy scope hm
          · rw [List.mem_singleton.mp hm]
      | finish place =>
          cases place with
          | zero =>
              cases younger with
              | nil => exact .free
              | cons scope rest => exact absurd ⟨rfl, by simp⟩ hc
          | succ place =>
              unfold Held.step
              simp only [List.getElem?_cons_succ, List.eraseIdx_cons_succ]
              cases hs : younger[place]? with
              | none => exact .held younger hy
              | some scope =>
                  have hup : scope.previous = true := hy scope (List.mem_of_getElem? hs)
                  simp only [GuardScope.finish, hup]
                  exact .held _ fun other hm => hy other (List.mem_of_mem_eraseIdx hm)

-- What holds all along a run, told from its first step on.
private theorem forall_prefix_cons {P : List Act → Prop} {act : Act} {acts : List Act} :
    (∀ done, done <+: act :: acts → P done) ↔
      P [] ∧ ∀ done, done <+: acts → P (act :: done) := by
  constructor
  · intro h
    exact ⟨h [] List.nil_prefix, fun done hd => h _ (List.cons_prefix_cons.mpr ⟨rfl, hd⟩)⟩
  · rintro ⟨hnil, hcons⟩ done hd
    rcases List.prefix_cons_iff.mp hd with rfl | ⟨rest, rfl, hr⟩
    · exact hnil
    · exact hcons rest hr

private theorem forall_next_cons {P : List Act → Act → Prop} {act : Act} {acts : List Act} :
    (∀ done next, done ++ [next] <+: act :: acts → P done next) ↔
      P [] act ∧ ∀ done next, done ++ [next] <+: acts → P (act :: done) next := by
  constructor
  · intro h
    exact ⟨h [] act (by simp), fun done next hd =>
      h (act :: done) next (List.cons_prefix_cons.mpr ⟨rfl, hd⟩)⟩
  · rintro ⟨hnil, hcons⟩ done next hd
    cases done with
    | nil =>
        obtain ⟨rfl, -⟩ := List.cons_prefix_cons.mp hd
        exact hnil
    | cons first done =>
        obtain ⟨rfl, hrest⟩ := List.cons_prefix_cons.mp hd
        exact hcons done next hrest

theorem Nested.truthful_iff (h : s.Nested) (acts : List Act) :
    (∀ done, done <+: acts → (s.run done).Truthful) ↔
      ∀ done next, done ++ [next] <+: acts → ¬(s.run done).Cuts next := by
  induction acts generalizing s with
  | nil => simpa [run] using h.truthful
  | cons act rest ih =>
      rw [forall_prefix_cons, forall_next_cons]
      by_cases hc : s.Cuts act
      · exact iff_of_false (fun ht => h.not_truthful hc (ht.2 [] List.nil_prefix)) fun ht => ht.1 hc
      · exact and_congr (iff_of_true h.truthful hc) (ih (h.step hc))

-- The flag is right all along a run exactly when the oldest scope never ends before the others. The
-- others may begin and end in any order.
theorem truthful_iff_oldest_last (acts : List Act) :
    (∀ done, done <+: acts → (start.run done).Truthful) ↔
      ∀ done, done ++ [.finish 0] <+: acts → (start.run done).scopes.length ≤ 1 := by
  have hstart : start.Nested := .free
  rw [hstart.truthful_iff acts]
  constructor
  · exact fun h done hd => Nat.not_lt.mp fun hlen => h done _ hd ⟨rfl, hlen⟩
  · rintro h done next hd ⟨rfl, hlen⟩
    exact absurd (h done hd) (Nat.not_le.mpr hlen)

-- The flag goes down under a scope that is still held, and with the end of that one it goes up for
-- nobody.
theorem not_truthful_after_overlap :
    let overlap := start.run [.acquire, .acquire, .finish 0]
    (overlap.guard.active = false ∧ overlap.scopes.length = 1) ∧
      let done := overlap.run [.finish 0]
      done.guard.active = true ∧ done.scopes = [] := by
  decide

end Held

end PageLocalizer.Guard
