import Mathlib.Data.List.Perm.Basic
import Xinul.Kernel.Frames
import Xinul.Lib.Seg

/-!
# The free list of `frame_dist.c`

The frames of a region are `start`, `start + FRAME_SIZE` and so on up to the
first that reaches `_memory_end`. That last one ends the list and is never given
out; the others are either in the list or held.
-/

namespace Xinul

open Bytes Linked

/-- The link of a free frame. -/
def nextFrame (mem : Memory) (a : Nat) : Option Nat := if load64 mem a = 0 then none else some (load64 mem a)

variable {r : Region} {p : FramePool} {mem mem' : Memory} {held free : List Nat} {f i j : Nat}

theorem nextFrame_eq_some {a b : Nat} : nextFrame mem a = some b ↔ load64 mem a = b ∧ b ≠ 0 := by
  unfold nextFrame
  split
  next h => simp [h, eq_comm]
  next h =>
    simp only [Option.some.injEq]
    constructor
    · rintro rfl
      exact ⟨rfl, h⟩
    · exact fun e => e.1

theorem nextFrame_eq_none {a : Nat} : nextFrame mem a = none ↔ load64 mem a = 0 := by
  unfold nextFrame
  split
  next h => simp [h]
  next h => simp [h]

theorem nextFrame_congr {a : Nat} (h : ∀ i, a ≤ i → i < a + 8 → mem' i = mem i) : nextFrame mem' a = nextFrame mem a := by
  rw [nextFrame, nextFrame, load64_congr h]

/-! ## The frames of a region -/

/-- The number of frames that can be given out. -/
def Region.lent (r : Region) : Nat := (r.stop - r.start - 1) / frameSize

/-- The frame of a number. -/
def Region.frame (r : Region) (i : Nat) : Nat := r.start + frameSize * i

/-- The last frame, which ends the free list. -/
def Region.last (r : Region) : Nat := r.frame r.lent

/-- The frames that can be given out. -/
def Region.lendable (r : Region) : List Nat := (List.range r.lent).map r.frame

/-- All frames. -/
def Region.frames (r : Region) : List Nat := r.lendable ++ [r.last]

theorem Region.mem_lendable : f ∈ r.lendable ↔ ∃ i, i < r.lent ∧ f = r.frame i := by
  simp [lendable, eq_comm]

theorem Region.mem_frames : f ∈ r.frames ↔ ∃ i, i ≤ r.lent ∧ f = r.frame i := by
  rw [frames, List.mem_append, mem_lendable, List.mem_singleton]
  constructor
  · rintro (⟨i, hi, rfl⟩ | rfl)
    · exact ⟨i, Nat.le_of_lt hi, rfl⟩
    · exact ⟨r.lent, Nat.le_refl _, rfl⟩
  · rintro ⟨i, hi, rfl⟩
    obtain h | rfl := Nat.lt_or_eq_of_le hi
    · exact .inl ⟨i, h, rfl⟩
    · exact .inr rfl

theorem Region.frame_mem (r : Region) (hi : i ≤ r.lent) : r.frame i ∈ r.frames := mem_frames.2 ⟨i, hi, rfl⟩

theorem Region.frame_add_le (hi : i < r.lent) : r.frame i + frameSize < r.stop := by
  have h := r.below
  unfold lent at hi
  unfold frame frameSize at *
  omega

theorem Region.le_frame_add : r.stop ≤ r.last + frameSize := by
  have h := r.below
  unfold last frame lent frameSize
  omega

theorem Region.frame_lt (hi : i ≤ r.lent) : r.frame i < r.stop := by
  have h := r.below
  unfold lent at hi
  unfold frame frameSize at *
  omega

theorem Region.frame_apart (h : i < j) : r.frame i + frameSize ≤ r.frame j := by
  unfold frame frameSize
  omega

/-- Different frames do not overlap. -/
theorem Region.frames_apart {g : Nat} (hf : f ∈ r.frames) (hg : g ∈ r.frames) (hne : f ≠ g) :
    f + frameSize ≤ g ∨ g + frameSize ≤ f := by
  obtain ⟨i, -, rfl⟩ := Region.mem_frames.1 hf
  obtain ⟨j, -, rfl⟩ := Region.mem_frames.1 hg
  obtain h | rfl | h := Nat.lt_trichotomy i j
  · exact .inl (Region.frame_apart h)
  · exact absurd rfl hne
  · exact .inr (Region.frame_apart h)

theorem Region.frame_bounds (hf : f ∈ r.frames) : f % frameSize = 0 ∧ r.start ≤ f ∧ f < r.stop ∧ 0 < f ∧ f < 2 ^ 64 := by
  obtain ⟨i, hi, rfl⟩ := Region.mem_frames.1 hf
  have h1 := Region.frame_lt hi
  have h2 := r.aligned
  have h3 := r.nonnull
  have h4 := r.fits
  unfold frame frameSize at *
  omega

theorem Region.nodup_frames (r : Region) : r.frames.Nodup := by
  have h : r.frames = (List.range (r.lent + 1)).map r.frame := by
    rw [List.range_succ, List.map_append]
    rfl
  rw [h]
  refine List.Nodup.map ?_ List.nodup_range
  intro i j e
  unfold frame frameSize at e
  omega

/-! ## `init_frames` -/

/-- The loop of `init_frames` chains the frames from `i` on; by induction on how many are left. -/
theorem initFramesLoop_spec (d : Nat) : ∀ i mem, i + d = r.lent →
    ∃ mem', initFramesLoop r mem (r.frame i) = (mem', r.last) ∧
      Seg (nextFrame mem') (some (r.frame i)) ((List.range' i d).map r.frame) (some r.last) ∧
      ∀ a, a < r.frame i → mem' a = mem a := by
  induction d with
  | zero =>
    rintro i mem rfl
    refine ⟨mem, ?_, rfl, fun _ _ => rfl⟩
    rw [initFramesLoop, if_neg]
    · rfl
    · exact Nat.not_lt.2 Region.le_frame_add
  | succ d ih =>
    intro i mem hi
    have hlt : r.frame i + frameSize < r.stop := Region.frame_add_le (by omega)
    have hnext : r.frame i + frameSize = r.frame (i + 1) := by
      unfold Region.frame frameSize
      omega
    obtain ⟨mem', e, hseg, hkeep⟩ := ih (i + 1) (store64 mem (r.frame i) (r.frame (i + 1))) (by omega)
    refine ⟨mem', ?_, ⟨rfl, ?_⟩, fun a ha => ?_⟩
    · rw [initFramesLoop, if_pos hlt, hnext, e]
    · have hlink : nextFrame mem' (r.frame i) = some (r.frame (i + 1)) := by
        rw [nextFrame_congr fun a h1 h2 => hkeep a (by rw [← hnext]; unfold frameSize; omega), nextFrame_eq_some]
        have hb := Region.frame_bounds (r.frame_mem (i := i + 1) (by omega))
        exact ⟨load64_store64 (by omega), by omega⟩
      rw [hlink]
      exact hseg
    · rw [hkeep a (by omega), store64_of_lt ha]

/-! ## The list along the calls -/

/-- The free list is what is not held, and ends in the last frame. -/
structure PoolInv (r : Region) (p : FramePool) (held free : List Nat) : Prop where
  chain : Seg (nextFrame p.mem) (some p.memPtr) (free ++ [r.last]) none
  parts : (free ++ held).Perm r.lendable

theorem initFrames_spec (r : Region) (mem : Memory) :
    ∃ p, initFrames r mem = some p ∧ PoolInv r p [] r.lendable := by
  obtain ⟨mem', e, hseg, -⟩ := initFramesLoop_spec r.lent 0 mem (Nat.zero_add _)
  have hzero : r.frame 0 = r.start := by simp [Region.frame]
  rw [hzero] at e hseg
  have hload : load64 (store64 mem' r.last 0) r.last = 0 := load64_store64 (by decide)
  refine ⟨⟨store64 mem' r.last 0, r.start⟩, ?_, ?_, ?_⟩
  · rw [initFrames, e]
    simp only
    rw [if_pos ⟨Region.frame_lt (Nat.le_refl _), Region.le_frame_add, hload⟩]
  · rw [List.range'_eq_map_range] at hseg
    simp only [Nat.zero_add, List.map_id'] at hseg
    refine seg_append.2 ⟨some r.last, hseg.congr fun f hf => ?_, rfl, nextFrame_eq_none.2 hload⟩
    obtain ⟨i, hi, rfl⟩ := Region.mem_lendable.1 hf
    apply nextFrame_congr
    intro a _ h2
    apply store64_of_lt
    have := Region.frame_apart (r := r) hi
    unfold frameSize at this
    unfold Region.last
    omega
  · rw [List.append_nil]

theorem PoolInv.mem_frames (h : PoolInv r p held free) : (∀ f ∈ free ++ [r.last], f ∈ r.frames) ∧ ∀ f ∈ held, f ∈ r.frames := by
  constructor
  · intro f hf
    rw [List.mem_append] at hf
    rw [Region.frames, List.mem_append]
    exact hf.imp_left fun hf => h.parts.subset (List.mem_append_left _ hf)
  · intro f hf
    rw [Region.frames, List.mem_append]
    exact .inl (h.parts.subset (List.mem_append_right _ hf))

/-- The list and the frames held have no frame in common. -/
theorem PoolInv.disjoint (h : PoolInv r p held free) {g : Nat} (hf : f ∈ free ++ [r.last]) (hg : g ∈ held) : f ≠ g := by
  have hnd := r.nodup_frames
  rw [Region.frames, ← (h.parts.append_right [r.last]).nodup_iff] at hnd
  rintro rfl
  rw [List.append_assoc, List.nodup_append] at hnd
  obtain hf | hf := List.mem_append.1 hf
  · exact hnd.2.2 f hf f (List.mem_append_left _ hg) rfl
  · have := (List.nodup_append.1 hnd.2.1).2.2 f hg f hf
    exact this rfl

/-- A change inside a frame held leaves the list. -/
theorem PoolInv.chain_congr (h : PoolInv r p held free) (hf : f ∈ held)
    (hmem : ∀ a, a < f ∨ f + frameSize ≤ a → mem' a = p.mem a) :
    Seg (nextFrame mem') (some p.memPtr) (free ++ [r.last]) none := by
  refine h.chain.congr fun g hg => nextFrame_congr fun a h1 h2 => hmem a ?_
  have := Region.frames_apart (h.mem_frames.1 g hg) (h.mem_frames.2 f hf) (h.disjoint hg hf)
  unfold frameSize at *
  omega

/-- `get_frame` takes the first frame of the list, unless it is the last one. -/
theorem PoolInv.getFrame (h : PoolInv r p held free) :
    (free = [] ∧ getFrame p = (0, p)) ∨
      ∃ f free', free = f :: free' ∧ (getFrame p).1 = f ∧ (getFrame p).2.mem = p.mem ∧
        PoolInv r (getFrame p).2 (f :: held) free' := by
  cases free with
  | nil =>
    obtain ⟨e, hnone⟩ := h.chain
    rw [Option.some.injEq] at e
    refine .inl ⟨rfl, ?_⟩
    rw [Xinul.getFrame, if_pos]
    rw [e]
    exact nextFrame_eq_none.1 hnone
  | cons f free =>
    obtain ⟨e, hchain⟩ := h.chain
    rw [Option.some.injEq] at e
    obtain ⟨g, hg⟩ : ∃ g, nextFrame p.mem f = some g := by
      cases free with
      | nil => exact ⟨_, hchain.1⟩
      | cons g free => exact ⟨_, hchain.1⟩
    obtain ⟨hload, hne⟩ := nextFrame_eq_some.1 hg
    have hget : Xinul.getFrame p = (f, { p with memPtr := g }) := by
      rw [Xinul.getFrame, e, hload, if_neg hne]
    refine .inr ⟨f, free, rfl, by rw [hget], by rw [hget], ?_⟩
    rw [hget]
    refine ⟨?_, List.perm_middle.trans h.parts⟩
    rw [← hg]
    exact hchain

/-- `release_frame` of a frame held puts it in front. -/
theorem PoolInv.releaseFrame (h : PoolInv r p held free) (hf : f ∈ held) :
    PoolInv r (releaseFrame r p f) (held.erase f) (f :: free) := by
  obtain ⟨haligned, hlo, hhi, hpos, -⟩ := Region.frame_bounds (h.mem_frames.2 f hf)
  have hand : f &&& 0xFFF = 0 := (Nat.and_two_pow_sub_one_eq_mod f 12).trans haligned
  rw [Xinul.releaseFrame, if_neg (by omega), if_neg (by simp [hand])]
  have hptr : p.memPtr ∈ free ++ [r.last] := by
    have := h.chain.head
    cases free with
    | nil => simp_all
    | cons g free => simp_all
  have hb := Region.frame_bounds (h.mem_frames.1 _ hptr)
  refine ⟨⟨rfl, ?_⟩, ?_⟩
  · have hlink : nextFrame (store64 p.mem f p.memPtr) f = some p.memPtr :=
      nextFrame_eq_some.2 ⟨load64_store64 (by omega), by omega⟩
    simp only [hlink]
    refine h.chain_congr hf fun a ha => ?_
    obtain ha | ha := ha
    · exact store64_of_lt ha
    · exact store64_of_ge (by unfold frameSize at ha; omega)
  · have h1 : (f :: free ++ held.erase f).Perm (free ++ f :: held.erase f) := List.perm_middle.symm
    exact (h1.trans ((List.perm_cons_erase hf).symm.append_left free)).trans h.parts

end Xinul
