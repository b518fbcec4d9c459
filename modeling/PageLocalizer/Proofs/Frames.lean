import Mathlib.Logic.Function.Iterate
import PageLocalizer.Frames

-- Work runs in the order of the requests, in the first frame that begins after its request.
namespace PageLocalizer.Frames

variable {σ α : Type} [HasFrames σ α]

-- What is put in place of the frames of a state is what is found there.
class LawfulHasFrames (σ : Type) {α : Type} [HasFrames σ α] : Prop where
  frames_withFrames (s : σ) (q : Frames α) : HasFrames.frames (HasFrames.withFrames s q) = q

open LawfulHasFrames HasFrames

-- Work may do anything, and request any further work, but it runs no frame.
def OnlyRequests (exec : α → σ → σ) : Prop := ∀ work s, ∃ asked,
  frames (exec work s) = { frames s with pending := (frames s).pending ++ asked }

-- What an owner of frames can do.
inductive Call (α : Type) where
  | request (work : α)
  | runFrame
  | runUntilIdle (limit : Nat)

def call (exec : α → σ → σ) (s : σ) : Call α → σ
  | .request work => request s work
  | .runFrame => (runFrame exec s).2
  | .runUntilIdle limit => (runUntilIdle exec limit s).2

-- Frames run while something waits, and no more of them than the limit.
theorem runUntilIdle_spec (exec : α → σ → σ) (limit : Nat) (s : σ) :
    (runUntilIdle exec limit s).1 ≤ limit ∧
      (runUntilIdle exec limit s).2 =
        (fun s => (runFrame exec s).2)^[(runUntilIdle exec limit s).1] s ∧
      (∀ n < (runUntilIdle exec limit s).1,
        (frames ((fun s => (runFrame exec s).2)^[n] s)).pending ≠ []) ∧
      ((runUntilIdle exec limit s).1 = limit ∨
        (frames (runUntilIdle exec limit s).2).pending = []) := by
  induction limit generalizing s with
  | zero => exact ⟨Nat.le_refl 0, rfl, fun n hn => absurd hn (Nat.not_lt_zero n), .inl rfl⟩
  | succ limit ih =>
      obtain ⟨hle, hstate, hwaits, hend⟩ := ih (runFrame exec s).2
      simp only [runUntilIdle]
      split
      · next hidle =>
          exact ⟨Nat.zero_le _, rfl, fun n hn => absurd hn (Nat.not_lt_zero n),
            .inr (List.isEmpty_iff.mp hidle)⟩
      · next hidle =>
          refine ⟨Nat.succ_le_succ hle, hstate, fun n hn => ?_, hend.imp_left (congrArg (· + 1))⟩
          cases n with
          | zero => exact fun hnil => hidle (List.isEmpty_iff.mpr hnil)
          | succ n => exact hwaits n (Nat.lt_of_succ_lt_succ hn)

-- A state, and what has happened so far: each request with the number of the frame that begins
-- next, and each work that was run with the number of its frame.
structure Observed (σ α : Type) where
  state : σ
  requested : List (α × Nat)
  ran : List (α × Nat)

namespace Observed

instance : HasFrames (Observed σ α) α where
  frames o := frames o.state
  withFrames o q := { o with state := withFrames o.state q }

def new (s : σ) : Observed σ α := { state := s, requested := [], ran := [] }

def pending (o : Observed σ α) : List α := (frames o.state).pending

-- The number of the frame that begins next, when none is under way.
def nextFrame (o : Observed σ α) : Nat := (frames o.state).count + 1

-- Runs a work and writes down what it requests. A frame is under way, so that waits for the one
-- after the next.
def exec (body : α → σ → σ) (work : α) (o : Observed σ α) : Observed σ α :=
  let after := body work o.state
  let asked := (frames after).pending.drop o.pending.length
  { state := after
    requested := o.requested ++ asked.map (·, o.nextFrame + 1)
    ran := o.ran ++ [(work, o.nextFrame)] }

def call (body : α → σ → σ) (o : Observed σ α) : Call α → Observed σ α
  | .request work =>
    { o with state := request o.state work, requested := o.requested ++ [(work, o.nextFrame)] }
  | .runFrame => (runFrame (exec body) o).2
  | .runUntilIdle limit => (runUntilIdle (exec body) limit o).2

-- Whatever was requested has run or waits, in this order, each work in the first frame that began
-- after its request.
def InOrder (o : Observed σ α) : Prop :=
  o.requested = o.ran ++ o.pending.map (·, o.nextFrame)

variable {body : α → σ → σ} {o : Observed σ α}

section Watching

-- Writing down changes nothing.
private theorem state_foldl (body : α → σ → σ) (due : List α) (o : Observed σ α) :
    (due.foldl (fun o work => exec body work o) o).state =
      due.foldl (fun s work => body work s) o.state := by
  induction due generalizing o with
  | nil => rfl
  | cons work due ih => exact ih (exec body work o)

theorem state_runFrame (body : α → σ → σ) (o : Observed σ α) :
    (runFrame (exec body) o).2.state = (runFrame body o.state).2 := by
  have hstart := state_foldl body o.pending
    (withFrames o { frames o with pending := [] } : Observed σ α)
  simp only [Frames.runFrame, withFrames, frames, pending] at hstart ⊢
  rw [hstart]

private theorem runUntilIdle_eq (body : α → σ → σ) (limit : Nat) (o : Observed σ α) :
    (runUntilIdle (exec body) limit o).1 = (runUntilIdle body limit o.state).1 ∧
      (runUntilIdle (exec body) limit o).2.state = (runUntilIdle body limit o.state).2 := by
  induction limit generalizing o with
  | zero => exact ⟨rfl, rfl⟩
  | succ limit ih =>
      obtain ⟨hcount, hstate⟩ := ih (runFrame (exec body) o).2
      rw [state_runFrame] at hcount hstate
      have hpending : (frames o).pending = (frames o.state).pending := rfl
      simp only [runUntilIdle, hpending]
      split
      · exact ⟨rfl, rfl⟩
      · exact ⟨congrArg (· + 1) hcount, hstate⟩

private theorem state_foldl_call (body : α → σ → σ) (calls : List (Call α)) (o : Observed σ α) :
    (calls.foldl (call body) o).state = calls.foldl (Frames.call body) o.state := by
  induction calls generalizing o with
  | nil => rfl
  | cons c calls ih =>
      have hone : (call body o c).state = Frames.call body o.state c := by
        cases c with
        | request work => rfl
        | runFrame => exact state_runFrame body o
        | runUntilIdle limit => exact (runUntilIdle_eq body limit o).2
      rw [List.foldl_cons, List.foldl_cons, ih, hone]

end Watching

section Order

private theorem exec_asks (hbody : OnlyRequests body) (work : α) (o : Observed σ α) : ∃ asked,
    (exec body work o).pending = o.pending ++ asked ∧
      (exec body work o).nextFrame = o.nextFrame ∧
      (exec body work o).requested = o.requested ++ asked.map (·, o.nextFrame + 1) ∧
      (exec body work o).ran = o.ran ++ [(work, o.nextFrame)] := by
  obtain ⟨asked, hasked⟩ := hbody work o.state
  refine ⟨asked, ?_, ?_, ?_, rfl⟩
  · simp only [exec, pending, hasked]
  · simp only [exec, nextFrame, hasked]
  · simp only [exec, hasked, pending, List.drop_left]

-- While a frame runs: what is due goes first, and what is requested meanwhile waits behind it.
private theorem foldl_exec (hbody : OnlyRequests body) (due : List α)
    (h : o.requested = o.ran ++ due.map (·, o.nextFrame) ++ o.pending.map (·, o.nextFrame + 1)) :
    let after := due.foldl (fun o work => exec body work o) o
    after.nextFrame = o.nextFrame ∧ after.ran = o.ran ++ due.map (·, o.nextFrame) ∧
      after.requested = after.ran ++ after.pending.map (·, o.nextFrame + 1) := by
  induction due generalizing o with
  | nil => exact ⟨rfl, by simp, by simpa using h⟩
  | cons work due ih =>
      obtain ⟨asked, hpending, hnext, hrequested, hran⟩ := exec_asks hbody work o
      have hlater : (exec body work o).requested = (exec body work o).ran ++
          due.map (·, (exec body work o).nextFrame) ++
            (exec body work o).pending.map (·, (exec body work o).nextFrame + 1) := by
        rw [hpending, hnext, hrequested, hran, h]
        simp
      obtain ⟨hsame, hdone, hwaits⟩ := ih hlater
      rw [hnext] at hsame hdone hwaits
      rw [hran] at hdone
      exact ⟨hsame, by simpa using hdone, hwaits⟩

private theorem inOrder_new {s : σ} (h : (frames s).pending = []) : (new s).InOrder := by
  unfold InOrder new pending
  rw [h]
  rfl

variable [LawfulHasFrames σ]

theorem pending_withFrames (o : Observed σ α) (q : Frames α) :
    (withFrames o q : Observed σ α).pending = q.pending :=
  congrArg Frames.pending (frames_withFrames o.state q)

theorem nextFrame_withFrames (o : Observed σ α) (q : Frames α) :
    (withFrames o q : Observed σ α).nextFrame = q.count + 1 :=
  congrArg (·.count + 1) (frames_withFrames o.state q)

theorem InOrder.request (h : o.InOrder) (work : α) : (call body o (.request work)).InOrder := by
  have hframes : frames (Frames.request o.state work) =
      { frames o.state with pending := o.pending ++ [work] } := frames_withFrames _ _
  unfold InOrder at h ⊢
  simp only [call, pending, nextFrame, hframes, List.map_append, List.map_cons, List.map_nil] at h ⊢
  rw [h, List.append_assoc]

-- A frame runs what waits when it begins.
theorem InOrder.runFrame (h : o.InOrder) (hbody : OnlyRequests body) :
    (runFrame (exec body) o).2.InOrder ∧
      (runFrame (exec body) o).2.ran = o.ran ++ o.pending.map (·, o.nextFrame) ∧
      (runFrame (exec body) o).2.nextFrame = o.nextFrame + 1 := by
  have hstart := foldl_exec hbody o.pending
    (o := (withFrames o { frames o with pending := [] } : Observed σ α))
    (by rw [pending_withFrames, nextFrame_withFrames, List.map_nil, List.append_nil]; exact h)
  rw [nextFrame_withFrames] at hstart
  obtain ⟨hnext, hran, hrequested⟩ := hstart
  unfold InOrder Frames.runFrame
  dsimp only
  rw [pending_withFrames, nextFrame_withFrames]
  refine ⟨?_, hran, congrArg (· + 1) hnext⟩
  exact (hrequested.trans (by rw [← hnext]; rfl))

theorem InOrder.iterate (h : o.InOrder) (hbody : OnlyRequests body) (n : Nat) :
    ((fun o => (Frames.runFrame (exec body) o).2)^[n] o).InOrder := by
  induction n generalizing o with
  | zero => exact h
  | succ n ih => exact ih (h.runFrame hbody).1

theorem InOrder.call (h : o.InOrder) (hbody : OnlyRequests body) (c : Call α) :
    (call body o c).InOrder := by
  cases c with
  | request work => exact h.request work
  | runFrame => exact (h.runFrame hbody).1
  | runUntilIdle limit =>
      have hspec := runUntilIdle_spec (exec body) limit o
      unfold Observed.call
      dsimp only
      rw [hspec.2.1]
      exact h.iterate hbody _

theorem InOrder.foldl_call (h : o.InOrder) (hbody : OnlyRequests body) (calls : List (Call α)) :
    (calls.foldl (Observed.call body) o).InOrder := by
  induction calls generalizing o with
  | nil => exact h
  | cons c calls ih => exact ih (h.call hbody c)

end Order

end Observed

section Runs

variable [LawfulHasFrames σ] {body : α → σ → σ} {start : σ}

-- After whatever calls: what was requested has run or waits, in the order of the requests, each
-- work once and in the first frame that began after its request. A frame runs exactly what waits
-- when it begins and tells its number. Frames run until nothing waits or the limit is reached, and
-- their number is told.
theorem requests_run_in_order (hbody : OnlyRequests body) (hstart : (frames start).pending = [])
    (calls : List (Call α)) :
    let o := calls.foldl (Observed.call body) (.new start)
    o.state = calls.foldl (call body) start ∧
      o.requested = o.ran ++ o.pending.map (·, o.nextFrame) ∧
      (runFrame body o.state).1 = o.pending.length ∧
      (o.call body .runFrame).ran = o.ran ++ o.pending.map (·, o.nextFrame) ∧
      (o.call body .runFrame).nextFrame = o.nextFrame + 1 ∧
      ∀ limit,
        let (count, after) := runUntilIdle body limit o.state
        count ≤ limit ∧ after = (fun s => (runFrame body s).2)^[count] o.state ∧
          (∀ n < count, (frames ((fun s => (runFrame body s).2)^[n] o.state)).pending ≠ []) ∧
          (count = limit ∨ (frames after).pending = []) := by
  have horder := (Observed.inOrder_new hstart).foldl_call hbody calls
  obtain ⟨-, hran, hnext⟩ := horder.runFrame hbody
  exact ⟨Observed.state_foldl_call body calls _, horder, rfl, hran, hnext,
    fun limit => runUntilIdle_spec body limit _⟩

instance : HasFrames (Frames Nat) Nat where
  frames q := q
  withFrames _ q := q

instance : LawfulHasFrames (Frames Nat) where
  frames_withFrames _ _ := rfl

-- Work that never ends: each one requests its successor, and the even ones another one besides.
def branching (work : Nat) (q : Frames Nat) : Frames Nat :=
  let q := request q (work + 1)
  if work % 2 = 0 then request q (work + 10) else q

private theorem onlyRequests_branching : OnlyRequests branching := by
  intro work q
  unfold branching
  split
  · exact ⟨[work + 1, work + 10], by simp [request, frames, withFrames]⟩
  · exact ⟨[work + 1], by simp [request, frames, withFrames]⟩

-- Two requests before the first frame and one after it, where limits stop the rest.
theorem requests_run_in_order_branching :
    let calls := [Call.request 0, .request 5, .runFrame, .request 7, .runUntilIdle 1]
    let o := calls.foldl (Observed.call branching) (.new (empty : Frames Nat))
    o.requested = o.ran ++ o.pending.map (·, o.nextFrame) ∧
      o.ran = [(0, 1), (5, 1), (1, 2), (10, 2), (6, 2), (7, 2)] ∧
      o.pending = [2, 11, 20, 7, 16, 8] ∧ o.nextFrame = 3 ∧
      (runUntilIdle branching 4 o.state).1 = 4 := by
  have h := requests_run_in_order onlyRequests_branching
    (show (frames (empty : Frames Nat)).pending = [] from rfl)
    [.request 0, .request 5, .runFrame, .request 7, .runUntilIdle 1]
  exact ⟨h.2.1, by decide, by decide, by decide, by decide⟩

end Runs

end PageLocalizer.Frames
