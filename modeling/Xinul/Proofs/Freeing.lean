import Xinul.Kernel.FreeMemory
import Xinul.Proofs.Allocating

/-!
# Giving frames back

`free_process_memory` reads which frames to release out of the tables, while it
releases them.
-/

namespace Xinul

open Bytes Prog

variable {r : Region} {pool : FramePool} {held held' free gs ts : List Nat} {f g table : Nat}

/-- The order in which frames are held does not matter. -/
theorem PoolInv.perm (h : PoolInv r pool held free) (hp : held.Perm held') : PoolInv r pool held' free :=
  ⟨h.chain, (hp.symm.append_left free).trans h.parts⟩

/-- The frame held first is released. -/
theorem PoolInv.release (h : PoolInv r pool (f :: held) free) : PoolInv r (Xinul.releaseFrame r pool f) held (f :: free) := by
  have := h.releaseFrame (List.mem_cons_self ..)
  rwa [List.erase_cons_head] at this

theorem onlyFrames_releaseFrame (r : Region) (pool : FramePool) (f : Nat) :
    OnlyFrames [f] pool.mem (releaseFrame r pool f).mem := by
  intro a ha
  have hf := ha f (by simp)
  unfold releaseFrame
  split
  · rfl
  split
  · rfl
  obtain hf | hf := hf
  · exact store64_of_lt hf
  · exact store64_of_ge (by unfold frameSize at hf; omega)

/-- A frame in front of the frames held is none of them. -/
theorem PoolInv.apart_cons (h : PoolInv r pool (f :: held) free) (hg : g ∈ held) : ApartFrames g f := by
  refine h.apart_held (List.mem_cons_of_mem _ hg) (List.mem_cons_self ..) ?_
  rintro rfl
  have := (List.nodup_append.1 h.nodup).2.1
  exact (List.nodup_cons.1 this).1 hg

/-- The entries of a table that stays held. -/
theorem PoolInv.pteAt_kept (table : Nat) {mem' : Memory} {i : Nat} (h : PoolInv r pool (gs ++ held) free) (ht : table ∈ held)
    (honly : OnlyFrames gs pool.mem mem') (hi : i < ptSize) : pteAt mem' table i = pteAt pool.mem table i := by
  refine honly.pteAt (fun g hg => ?_) hi
  refine h.apart_held (List.mem_append_right _ ht) (List.mem_append_left _ hg) ?_
  rintro rfl
  have hnd := (List.nodup_append.1 h.nodup).2.1
  exact (List.nodup_append.1 hnd).2.2 table hg table ht rfl

/-- A turn of the loop. -/
theorem freeFramesLoop_succ {n index : Nat} : freeFramesLoop r table (n + 1) index pool =
    freeFramesLoop r table n (index + 1) (releaseFrame r pool (findPteAdress (pteAt pool.mem table index))) := by
  -- unfolded first, or the kernel evaluates the memory
  delta freeFramesLoop
  rfl

/-- The loop of `free_frames_indexed`: the entries of a table that stays held name the frames `gs`. -/
theorem freeFramesLoop_spec (gs : List Nat) : ∀ (index : Nat) (pool : FramePool) (free : List Nat),
    PoolInv r pool (gs ++ held) free → table ∈ held → index + gs.length ≤ ptSize →
    (∀ j g, gs[j]? = some g → findPteAdress (pteAt pool.mem table (index + j)) = g) →
    PoolInv r (freeFramesLoop r table gs.length index pool) held (gs.reverse ++ free) ∧
      OnlyFrames gs pool.mem (freeFramesLoop r table gs.length index pool).mem := by
  induction gs with
  | nil => exact fun index pool free hinv _ _ _ => ⟨hinv, .refl _ _⟩
  | cons g gs ih =>
    intro index pool free hinv htable hroom hentry
    rw [List.length_cons] at hroom ⊢
    have hg := hentry 0 g rfl
    rw [Nat.add_zero] at hg
    have honly := onlyFrames_releaseFrame r pool g
    have hapart : ApartFrames table g := PoolInv.apart_cons hinv (List.mem_append_right _ htable)
    have hrest : ∀ j g', gs[j]? = some g' →
        findPteAdress (pteAt (releaseFrame r pool g).mem table (index + 1 + j)) = g' := by
      intro j g' hj
      have hlt := (List.getElem?_eq_some_iff.1 hj).1
      rw [honly.pteAt (by simpa using hapart) (show index + 1 + j < ptSize by omega), Nat.add_assoc, Nat.add_comm 1]
      exact hentry (j + 1) g' hj
    obtain ⟨hinv', honly'⟩ := ih (index + 1) _ _ (PoolInv.release hinv) htable (by omega) hrest
    rw [freeFramesLoop_succ, hg]
    refine ⟨?_, (honly.mono (by simp)).trans (honly'.mono (by simp))⟩
    rw [List.reverse_cons, List.append_assoc]
    exact hinv'

/-- `free_frames_indexed`. -/
theorem freeFramesIndexed_spec (table index : Nat) (hinv : PoolInv r pool (gs ++ held) free) (htable : table ∈ held)
    (hroom : index + gs.length ≤ ptSize)
    (hentry : ∀ j g, gs[j]? = some g → findPteAdress (pteAt pool.mem table (index + j)) = g) :
    PoolInv r (freeFramesIndexed r pool table index (index + gs.length)) held (gs.reverse ++ free) ∧
      OnlyFrames gs pool.mem (freeFramesIndexed r pool table index (index + gs.length)).mem := by
  have hb := Region.frame_bounds (hinv.mem_frames.2 table (List.mem_append_right _ htable))
  rw [freeFramesIndexed, if_neg (by omega), Nat.add_sub_cancel_left]
  exact freeFramesLoop_spec gs index pool free hinv htable hroom hentry

/-- The level 0 tables of a region: their pages are the frames `gs`. -/
theorem foldl_freeFramesPageTable (ts : List Nat) : ∀ (start : Nat) (gs : List Nat) (pool : FramePool) (free : List Nat),
    PoolInv r pool (gs ++ held) free → (∀ t ∈ ts, t ∈ held) → gs.length ≤ ptSize * ts.length →
    start + ts.length ≤ PageType.shared.start →
    (∀ k t g, ts[k / ptSize]? = some t → gs[k]? = some g → findPteAdress (pteAt pool.mem t (k % ptSize)) = g) →
    PoolInv r ((nodesOf start ts gs.length).foldl (freeFramesPageTable r) pool) held (gs.reverse ++ free) ∧
      OnlyFrames gs pool.mem ((nodesOf start ts gs.length).foldl (freeFramesPageTable r) pool).mem := by
  induction ts with
  | nil =>
    intro start gs pool free hinv _ hlen _ _
    obtain rfl : gs = [] := List.length_eq_zero_iff.1 (by simpa using hlen)
    exact ⟨hinv, .refl _ _⟩
  | cons t ts ih =>
    intro start gs pool free hinv hts hlen hstart hentry
    have hpos : 0 < ptSize := by decide
    rw [List.length_cons] at hlen hstart
    -- the pages of the first table, and the others
    obtain ⟨us, hus⟩ : ∃ us, us = gs.take ptSize := ⟨_, rfl⟩
    obtain ⟨vs, hvs⟩ : ∃ vs, vs = gs.drop ptSize := ⟨_, rfl⟩
    have hgs : gs = us ++ vs := by rw [hus, hvs, List.take_append_drop]
    have hulen : us.length = min gs.length ptSize := by rw [hus, List.length_take, Nat.min_comm]
    have hvlen : vs.length = gs.length - ptSize := by rw [hvs, List.length_drop]
    have hinv1 : PoolInv r pool (us ++ (vs ++ held)) free := by
      rw [← List.append_assoc, ← hgs]
      exact hinv
    have hnode : freeFramesPageTable r pool ⟨t, min gs.length ptSize, start⟩ = freeFramesIndexed r pool t 0 (0 + us.length) := by
      rw [freeFramesPageTable, if_neg (show ¬ start ≥ PageType.shared.start by omega), hulen, Nat.zero_add]
    obtain ⟨hinv2, honly2⟩ := freeFramesIndexed_spec t 0 hinv1
      (List.mem_append_right _ (hts t (by simp))) (by rw [hulen]; omega) (by
        intro j g hj
        have hlt : j < us.length := (List.getElem?_eq_some_iff.1 hj).1
        have hjlt : j < ptSize := by omega
        have hg : gs[j]? = some g := by rw [hgs, List.getElem?_append_left hlt, hj]
        have := hentry j t g (by rw [Nat.div_eq_of_lt hjlt]; rfl) hg
        rwa [Nat.mod_eq_of_lt hjlt, ← Nat.zero_add j] at this)
    rw [← hnode] at hinv2 honly2
    obtain ⟨hinv3, honly3⟩ := ih (start + 1) vs _ _ hinv2 (fun t' ht' => hts t' (by simp [ht']))
      (by rw [hvlen]; rw [Nat.mul_add, Nat.mul_one] at hlen; omega) (by omega) (by
        intro k t' g ht' hg
        have hk : (k + ptSize) / ptSize = k / ptSize + 1 := Nat.add_div_right k hpos
        have hg' : gs[k + ptSize]? = some g := by
          rw [hvs, List.getElem?_drop] at hg
          rwa [Nat.add_comm]
        have := hentry (k + ptSize) t' g (by rw [hk]; exact ht') hg'
        rw [Nat.add_mod_right] at this
        have hheld : t' ∈ held := hts t' (by simp [List.mem_of_getElem? ht'])
        rw [hinv1.pteAt_kept _ (List.mem_append_right _ hheld) honly2 (Nat.mod_lt _ hpos), this])
    show PoolInv r ((nodesOf (start + 1) ts (gs.length - ptSize)).foldl (freeFramesPageTable r)
        (freeFramesPageTable r pool ⟨t, min gs.length ptSize, start⟩)) held (gs.reverse ++ free) ∧
      OnlyFrames gs pool.mem ((nodesOf (start + 1) ts (gs.length - ptSize)).foldl (freeFramesPageTable r)
        (freeFramesPageTable r pool ⟨t, min gs.length ptSize, start⟩)).mem
    rw [← hvlen]
    refine ⟨?_, ?_⟩
    · have : gs.reverse ++ free = vs.reverse ++ (us.reverse ++ free) := by
        rw [hgs, List.reverse_append, List.append_assoc]
      rw [this]
      exact hinv3
    · refine (honly2.mono fun x hx => ?_).trans (honly3.mono fun x hx => ?_)
      all_goals
        rw [hgs, List.mem_append]
      · exact .inl hx
      · exact .inr hx

end Xinul
