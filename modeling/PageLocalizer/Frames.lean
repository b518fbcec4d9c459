-- Work that waits for the next frame.
namespace PageLocalizer

structure Frames (α : Type) where
  -- In the order of the requests.
  pending : List α
  count : Nat
  deriving Repr, DecidableEq

class HasFrames (σ : Type) (α : outParam Type) where
  frames : σ → Frames α
  withFrames : σ → Frames α → σ

namespace Frames

variable {σ α : Type} [HasFrames σ α]

def empty : Frames α := { pending := [], count := 0 }

def request (s : σ) (work : α) : σ :=
  let q := HasFrames.frames s
  HasFrames.withFrames s { q with pending := q.pending ++ [work] }

-- Runs a frame: everything that waits when it begins, in order. What is requested meanwhile waits
-- for the next frame. Also gives the number of works run.
def runFrame (exec : α → σ → σ) (s : σ) : Nat × σ :=
  let due := (HasFrames.frames s).pending
  let start := HasFrames.withFrames s { HasFrames.frames s with pending := [] }
  let after := due.foldl (fun s work => exec work s) start
  let q := HasFrames.frames after
  (due.length, HasFrames.withFrames after { q with count := q.count + 1 })

-- Runs frames until nothing waits, at most `limit` of them. Also gives their number.
def runUntilIdle (exec : α → σ → σ) : Nat → σ → Nat × σ
  | 0, s => (0, s)
  | limit + 1, s =>
    if (HasFrames.frames s).pending.isEmpty then (0, s)
    else
      let rest := runUntilIdle exec limit (runFrame exec s).2
      (rest.1 + 1, rest.2)

end Frames
end PageLocalizer
