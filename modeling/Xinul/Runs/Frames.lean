import Xinul.Proofs.FramePool

/-!
# Frames along a run

Every sequence of `get_frame` and `release_frame` calls after `init_frames` in
which only frames held are released, with any writes into frames held.
-/

namespace Xinul

open Bytes Linked

/-- The frames held and the pool after a run. -/
inductive PoolRun (r : Region) : List Nat → FramePool → Prop where
  | init {mem : Memory} {p : FramePool} (h : initFrames r mem = some p) : PoolRun r [] p
  | get {held : List Nat} {p : FramePool} (run : PoolRun r held p) (h : (getFrame p).1 ≠ 0) :
      PoolRun r ((getFrame p).1 :: held) (getFrame p).2
  | refuse {held : List Nat} {p : FramePool} (run : PoolRun r held p) (h : (getFrame p).1 = 0) :
      PoolRun r held (getFrame p).2
  | release {held : List Nat} {p : FramePool} {f : Nat} (run : PoolRun r held p) (h : f ∈ held) :
      PoolRun r (held.erase f) (releaseFrame r p f)
  | write {held : List Nat} {p : FramePool} {f : Nat} {mem : Memory} (run : PoolRun r held p) (h : f ∈ held)
      (hmem : ∀ a, a < f ∨ f + frameSize ≤ a → mem a = p.mem a) : PoolRun r held { p with mem := mem }

variable {r : Region} {p : FramePool} {held : List Nat} {f : Nat}

theorem PoolRun.inv (run : PoolRun r held p) : ∃ free, PoolInv r p held free := by
  induction run with
  | @init mem p h =>
    obtain ⟨p', e, hinv⟩ := initFrames_spec r mem
    rw [h] at e
    cases e
    exact ⟨_, hinv⟩
  | get run h ih =>
    obtain ⟨free, hinv⟩ := ih
    obtain ⟨-, e⟩ | ⟨f, free', -, hf, -, hinv'⟩ := hinv.getFrame
    · rw [e] at h
      exact absurd rfl h
    · rw [hf]
      exact ⟨free', hinv'⟩
  | refuse run h ih =>
    obtain ⟨free, hinv⟩ := ih
    obtain ⟨-, e⟩ | ⟨f, free', rfl, hf, -, -⟩ := hinv.getFrame
    · rw [e]
      exact ⟨free, hinv⟩
    · have hb := Region.frame_bounds (hinv.mem_frames.1 f (by simp))
      omega
  | release run h ih =>
    obtain ⟨free, hinv⟩ := ih
    exact ⟨_, hinv.releaseFrame h⟩
  | write run h hmem ih =>
    obtain ⟨free, hinv⟩ := ih
    exact ⟨free, hinv.chain_congr h hmem, hinv.parts⟩

/-- A frame of the region: page aligned, its first byte in the region. -/
def Region.IsFrame (r : Region) (f : Nat) : Prop := f % frameSize = 0 ∧ r.start ≤ f ∧ f < r.stop

/-- A frame wholly inside the region. -/
def Region.Inside (r : Region) (f : Nat) : Prop := f % frameSize = 0 ∧ r.start ≤ f ∧ f + frameSize ≤ r.stop

theorem Region.isFrame_iff {f : Nat} : r.IsFrame f ↔ f ∈ r.frames := by
  constructor
  · rintro ⟨ha, hlo, hhi⟩
    refine Region.mem_frames.2 ⟨(f - r.start) / frameSize, ?_, ?_⟩
    · unfold Region.lent
      exact Nat.div_le_div_right (by omega)
    · have := r.aligned
      unfold Region.frame frameSize at *
      omega
  · intro hf
    obtain ⟨ha, hlo, hhi, -⟩ := Region.frame_bounds hf
    exact ⟨ha, hlo, hhi⟩

theorem Region.inside_of_lendable {f : Nat} (hf : f ∈ r.lendable) : r.Inside f := by
  obtain ⟨i, hi, rfl⟩ := Region.mem_lendable.1 hf
  have hb := Region.frame_bounds (r.frame_mem (Nat.le_of_lt hi))
  exact ⟨hb.1, hb.2.1, Nat.le_of_lt (Region.frame_add_le hi)⟩

/-- **The frame allocator**: `init_frames` succeeds, and after any run the frames held
are different and lie inside the region, the free list ends, has no frame twice and
consists of the frames not held; `get_frame` returns a frame inside the region
that nobody holds, or `NULL` exactly when all frames but the last one are held. -/
theorem frame_pool_exact (run : PoolRun r held p) :
    (∀ mem, (initFrames r mem).isSome) ∧
      held.Nodup ∧ (∀ f ∈ held, r.Inside f) ∧
      (∃ free, Seg (nextFrame p.mem) (some p.memPtr) free none ∧ free.Nodup ∧
        ∀ f, f ∈ free ↔ r.IsFrame f ∧ f ∉ held) ∧
      ((getFrame p).1 ≠ 0 → r.Inside (getFrame p).1 ∧ (getFrame p).1 ∉ held) ∧
      ((getFrame p).1 = 0 ↔ ∀ f, r.IsFrame f → f ≠ r.last → f ∈ held) := by
  obtain ⟨free, hinv⟩ := run.inv
  have hlendable : ∀ f, f ∈ r.lendable ↔ f ∈ free ∨ f ∈ held := fun f => by
    rw [← hinv.parts.mem_iff, List.mem_append]
  have hnodup : (free ++ held).Nodup := hinv.parts.nodup_iff.2 (List.nodup_append.1 r.nodup_frames).1
  have hlast : r.last ∉ held := fun h => hinv.disjoint (List.mem_append_right _ (List.mem_singleton.2 rfl)) h rfl
  refine ⟨fun mem => ?_, (List.nodup_append.1 hnodup).2.1, fun f hf => ?_, ?_, fun hne => ?_, ?_⟩
  · obtain ⟨p', e, -⟩ := initFrames_spec r mem
    rw [e]
    rfl
  · exact Region.inside_of_lendable ((hlendable f).2 (.inr hf))
  · refine ⟨free ++ [r.last], hinv.chain, hinv.chain.nodup, fun f => ⟨fun hf => ⟨?_, ?_⟩, ?_⟩⟩
    · exact Region.isFrame_iff.2 (hinv.mem_frames.1 f hf)
    · exact fun hh => hinv.disjoint hf hh rfl
    · rintro ⟨hf, hnot⟩
      rw [Region.isFrame_iff, Region.frames, List.mem_append, hlendable] at hf
      rw [List.mem_append]
      obtain (hf | hf) | hf := hf
      · exact .inl hf
      · exact absurd hf hnot
      · exact .inr hf
  · obtain ⟨-, e⟩ | ⟨f, free', rfl, hf, -, -⟩ := hinv.getFrame
    · rw [e] at hne
      exact absurd rfl hne
    · rw [hf]
      exact ⟨Region.inside_of_lendable ((hlendable f).2 (.inl (by simp))), fun hh => hinv.disjoint (by simp) hh rfl⟩
  · obtain ⟨rfl, e⟩ | ⟨f, free', rfl, hf, -, -⟩ := hinv.getFrame
    · rw [e]
      refine ⟨fun _ f hf hne => ?_, fun _ => rfl⟩
      rw [Region.isFrame_iff, Region.frames, List.mem_append, hlendable] at hf
      obtain (hf | hf) | hf := hf
      · simp at hf
      · exact hf
      · exact absurd (List.mem_singleton.1 hf) hne
    · have hmem : f ∈ f :: free' ++ [r.last] := by simp
      have hfr := hinv.mem_frames.1 f hmem
      have hb := Region.frame_bounds hfr
      rw [hf]
      refine ⟨fun h0 => by omega, fun hall => ?_⟩
      have hne : f ≠ r.last := by
        rintro rfl
        have := hinv.chain.nodup
        simp at this
      exact absurd rfl (hinv.disjoint hmem (hall f (Region.isFrame_iff.2 hfr) hne))

/-- Three frames, the last of them sticking out of the region: two are got, the first is given
back, and the next call gets it again. -/
theorem frame_pool_exact_reuse : ∃ (r : Region) (p : FramePool) (held : List Nat),
    PoolRun r held p ∧ (getFrame p).1 = 0x80000000 ∧ (getFrame p).1 ∉ held ∧ held = [0x80001000] := by
  let r : Region := ⟨0x80000000, 0x80002100, by decide, by decide, by decide, by decide⟩
  obtain ⟨p, e, hinv⟩ := initFrames_spec r fun _ => 0
  have hfree : r.lendable = [0x80000000, 0x80001000] := by decide
  rw [hfree] at hinv
  obtain ⟨h, -⟩ | ⟨f, free, h, hf, -, hinv⟩ := hinv.getFrame
  · cases h
  cases h
  have first := (PoolRun.init e).get (by rw [hf]; decide)
  rw [hf] at first
  obtain ⟨h, -⟩ | ⟨f, free, h, hf', -, hinv⟩ := hinv.getFrame
  · cases h
  cases h
  have second := first.get (by rw [hf']; decide)
  rw [hf'] at second
  have third := second.release (f := 0x80000000) (by decide)
  have hrel := hinv.releaseFrame (f := 0x80000000) (by decide)
  obtain ⟨h, -⟩ | ⟨f, free, h, hf'', -, -⟩ := hrel.getFrame
  · cases h
  cases h
  have hexact := frame_pool_exact third
  exact ⟨r, _, _, third, hf'', (hexact.2.2.2.2.1 (by rw [hf'']; decide)).2, by decide⟩

/-! ## `release_frame` of anything else -/

/-- The frames that `n` calls of `get_frame` return, without the `NULL`s. -/
def lends : Nat → FramePool → List Nat
  | 0, _ => []
  | n + 1, p => if (getFrame p).1 = 0 then lends n (getFrame p).2 else (getFrame p).1 :: lends n (getFrame p).2

/-- A page that the range test of `release_frame` lets pass although it is not wholly inside
the region: it starts in the last bytes of the region or right at its end. -/
def Region.Overlooked (r : Region) (f : Nat) : Prop :=
  f % frameSize = 0 ∧ r.start ≤ f ∧ f ≤ r.stop ∧ r.stop < f + frameSize

theorem releaseFrame_eq (h : ¬ (f % frameSize = 0 ∧ r.start ≤ f ∧ f ≤ r.stop)) : releaseFrame r p f = p := by
  have hand : f &&& 0xFFF = f % frameSize := Nat.and_two_pow_sub_one_eq_mod f 12
  unfold releaseFrame
  split
  · rfl
  · rw [hand, if_pos]
    omega

/-- A page that passes the tests is the next one that `get_frame` returns. -/
theorem getFrame_releaseFrame (run : PoolRun r held p) (h : f % frameSize = 0 ∧ r.start ≤ f ∧ f ≤ r.stop) :
    (getFrame (releaseFrame r p f)).1 = f := by
  have hand : f &&& 0xFFF = 0 := (Nat.and_two_pow_sub_one_eq_mod f 12).trans h.1
  obtain ⟨free, hinv⟩ := run.inv
  have hptr := hinv.chain.head
  have hframe : p.memPtr ∈ r.frames := by
    apply hinv.mem_frames.1
    apply List.mem_of_mem_head?
    exact Option.mem_def.2 hptr.symm
  have hb := Region.frame_bounds hframe
  unfold releaseFrame
  rw [if_neg (by omega), if_neg (by simp [hand]), getFrame]
  dsimp only
  rw [load64_store64 hb.2.2.2.2, if_neg (by omega)]

theorem PoolRun.getFrame_inside (run : PoolRun r held p) (h : (getFrame p).1 ≠ 0) : r.Inside (getFrame p).1 := by
  obtain ⟨free, hinv⟩ := run.inv
  obtain ⟨-, e⟩ | ⟨f, free', rfl, hf, -, -⟩ := hinv.getFrame
  · rw [e] at h
    exact absurd rfl h
  · rw [hf]
    apply Region.inside_of_lendable
    exact hinv.parts.subset (by simp)

/-- After a run the calls of `get_frame` return frames inside the region. -/
theorem PoolRun.lends_inside (run : PoolRun r held p) (n : Nat) : ∀ f ∈ lends n p, r.Inside f := by
  induction n generalizing held p with
  | zero => simp [lends]
  | succ n ih =>
    unfold lends
    split
    · next h => exact ih (run.refuse h)
    · next h =>
      intro f hf
      obtain rfl | hf := List.mem_cons.1 hf
      · exact run.getFrame_inside h
      · exact ih (run.get h) f hf

/-- In every state of the allocator and for every pointer that is no frame wholly inside the
region: `release_frame` leaves the free list alone, and no later calls of `get_frame` return
memory outside the region, if and only if the pointer is not one of the overlooked pages. -/
theorem foreign_release_iff (run : PoolRun r held p) (hf : ¬ r.Inside f) :
    (releaseFrame r p f = p ∧ ∀ n, ∀ g ∈ lends n (releaseFrame r p f), r.Inside g) ↔ ¬ r.Overlooked f := by
  constructor
  · rintro ⟨-, hlends⟩ ⟨haligned, hlo, hhi, -⟩
    have hget := getFrame_releaseFrame run ⟨haligned, hlo, hhi⟩
    have hne : f ≠ 0 := by
      have := r.nonnull
      omega
    apply hf
    apply hlends 1
    simp [lends, hget, hne]
  · intro hover
    have hsame : releaseFrame r p f = p := by
      apply releaseFrame_eq
      rintro ⟨haligned, hlo, hhi⟩
      -- such a page is inside the region or overlooked
      rcases Nat.lt_or_ge r.stop (f + frameSize) with hlt | hge
      · exact hover ⟨haligned, hlo, hhi, hlt⟩
      · exact hf ⟨haligned, hlo, hge⟩
    rw [hsame]
    exact ⟨rfl, run.lends_inside⟩

/-- A region of two frames. -/
def twoFrames : Region := ⟨0x80000000, 0x80002000, by decide, by decide, by decide, by decide⟩

/-- A pointer between two pages. -/
theorem foreign_release_unaligned : ∃ p, PoolRun twoFrames [] p ∧ releaseFrame twoFrames p 0x80001008 = p := by
  obtain ⟨p, e, -⟩ := initFrames_spec twoFrames fun _ => 0
  have run := PoolRun.init e
  have hf : ¬ twoFrames.Inside 0x80001008 := by
    unfold Region.Inside
    decide
  exact ⟨p, run, ((foreign_release_iff run hf).2 (by unfold Region.Overlooked; decide)).1⟩

/-- `release_frame(_memory_end)`: the next `get_frame` returns the page behind the region. -/
theorem memory_end_lent : ¬ ∀ (r : Region) (held : List Nat) (p : FramePool) (f : Nat), PoolRun r held p → ¬ r.Inside f →
    releaseFrame r p f = p ∧ ∀ n, ∀ g ∈ lends n (releaseFrame r p f), r.Inside g := by
  intro h
  obtain ⟨p, e, -⟩ := initFrames_spec twoFrames fun _ => 0
  have run := PoolRun.init e
  have hf : ¬ twoFrames.Inside 0x80002000 := by
    unfold Region.Inside
    decide
  have hget : (getFrame (releaseFrame twoFrames p 0x80002000)).1 = 0x80002000 :=
    getFrame_releaseFrame run (by decide)
  apply hf
  apply (h twoFrames [] p 0x80002000 run hf).2 1
  simp [lends, hget]

end Xinul
