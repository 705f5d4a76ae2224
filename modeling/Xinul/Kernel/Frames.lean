import Xinul.Lib.Bytes

/-!
# The frame allocator: `frame_dist.c`

The free frames of the region between `_free_memory_start` and `_memory_end` are
chained through their first word; the chain is kept in the memory it manages.
Addresses are physical, and C forms none outside the region but the end of its
last frame, so they are plain numbers.
-/

namespace Xinul

open Bytes

/-- `FRAME_SIZE`. -/
def frameSize : Nat := 4096

/-- The region of `_free_memory_start` and `_memory_end`: an object of C is not at
`NULL`, and the end of its last frame is an address. -/
structure Region where
  start : Nat
  stop : Nat
  aligned : start % frameSize = 0
  nonnull : 0 < start
  below : start < stop
  fits : stop + frameSize ≤ 2 ^ 64

/-- The physical memory and `mem_ptr`. -/
structure FramePool where
  mem : Memory
  memPtr : Nat

variable (r : Region)

/-- The loop of `init_frames`: the memory and where it stops. -/
def initFramesLoop (mem : Memory) (curptr : Nat) : Memory × Nat :=
  if curptr + frameSize < r.stop then
    initFramesLoop (store64 mem curptr (curptr + frameSize)) (curptr + frameSize)
  else (mem, curptr)
termination_by r.stop - curptr
decreasing_by
  unfold frameSize at *
  omega

/-- `init_frames`; `none` is a failed assertion. -/
def initFrames (mem : Memory) : Option FramePool :=
  let (mem, curptr) := initFramesLoop r mem r.start
  let mem := store64 mem curptr 0
  if curptr < r.stop ∧ curptr + frameSize ≥ r.stop ∧ load64 mem curptr = 0 then some ⟨mem, r.start⟩
  else none

/-- `get_frame`. -/
def getFrame (p : FramePool) : Nat × FramePool :=
  if load64 p.mem p.memPtr = 0 then (0, p)
  else (p.memPtr, { p with memPtr := load64 p.mem p.memPtr })

/-- `release_frame`. -/
def releaseFrame (p : FramePool) (frame : Nat) : FramePool :=
  if frame < r.start ∨ frame > r.stop then p
  else if frame &&& 0xFFF ≠ 0 then p
  else ⟨store64 p.mem frame p.memPtr, frame⟩

end Xinul
