import Xinul.Proofs.Allocating
import Xinul.Runs.Frames

/-!
# The pages of a process

What a program sees of the memory that `process_memory_allocator` built, through
the walk of the processor.
-/

namespace Xinul

open Bytes Prog

/-- `USERSPACE` as an address, its end, and the start of the heap. -/
def userStart : Nat := 0x40000000
def userStop : Nat := 0x80000000
def heapStart : Nat := 0x50000000

/-- The address is in a page of `frame`, which a program may read and write. -/
def UserPage (mem : Memory) (root address frame : Nat) : Prop :=
  ∃ pte, translate mem root address = some (pte, 1) ∧ findPteAdress pte = frame ∧
    pte.resU = true ∧ pte.read = true ∧ pte.write = true

variable {R : Ram} {held free free' ts fs : List Nat} {root dir heapTable heap n k : Nat} {w : Writing} {mem mem' : Memory}

/-! ## The walk through the tables -/

/-- A frame can be linked. -/
theorem Ram.frame_linkable {f : Nat} (hf : f ∈ R.toRegion.frames) : f % frameSize = 0 ∧ f < 2 ^ 56 := by
  have h1 := Region.frame_bounds hf
  have h2 := R.physical
  exact ⟨h1.1, by omega⟩

/-- The indices of a page of the user space. -/
theorem user_index (hk : k < 2 ^ 18) :
    (2 ^ 18 + k) / ptSize ^ 2 % ptSize = userspace ∧ (2 ^ 18 + k) / ptSize ^ 1 % ptSize = k / ptSize ∧
      (2 ^ 18 + k) / ptSize ^ 0 % ptSize = k % ptSize := by
  unfold ptSize userspace
  omega

/-- The walk down to the level 1 table. -/
theorem Built.walk_dir (h : Built root dir ts heapTable fs heap n w mem mem') (hdir : dir ∈ R.toRegion.frames) (hk : k < 2 ^ 18) :
    translateFrom mem' 3 root (2 ^ 18 + k) = translateFrom mem' 2 dir (2 ^ 18 + k) := by
  obtain ⟨e, he⟩ := h.user
  have hlink := R.frame_linkable hdir
  rw [← (user_index hk).1] at he
  exact translateFrom_link he hlink.1 hlink.2

/-- A page of code or stack. -/
theorem Built.walk_page (h : Built root dir ts heapTable fs heap n w mem mem') (hdir : dir ∈ R.toRegion.frames)
    (hts : ∀ t ∈ ts, t ∈ R.toRegion.frames) (hk : k < n) :
    ∃ f, fs[k]? = some f ∧ translateFrom mem' 3 root (2 ^ 18 + k) =
      some (configurePageEntry (.ofWord 0) f true true (w.after (k + 1)).writingData true .kilo, 1) := by
  have h1 := h.fits.enough
  have h2 := h.room
  have hlt : k / ptSize < ts.length := Nat.div_lt_of_lt_mul (Nat.lt_of_lt_of_le hk h1)
  have hsmall : k < 2 ^ 18 := by
    unfold ptSize stackFrameSize at *
    omega
  obtain ⟨-, hi1, hi0⟩ := user_index hsmall
  obtain ⟨table, ht⟩ : ∃ table, ts[k / ptSize]? = some table := ⟨_, List.getElem?_eq_getElem hlt⟩
  obtain ⟨f, hf⟩ : ∃ f, fs[k]? = some f := ⟨_, List.getElem?_eq_getElem (by rw [h.length]; exact hk)⟩
  have hlink := R.frame_linkable (hts table (List.mem_of_getElem? ht))
  have htable := h.linked _ _ ht
  have hpage := h.page k table f ht hf
  rw [← hi1] at htable
  rw [← hi0] at hpage
  refine ⟨f, hf, ?_⟩
  rw [h.walk_dir hdir hsmall, translateFrom_link htable hlink.1 hlink.2]
  exact translateFrom_leaf hpage

/-- The page of heap. -/
theorem Built.walk_heap (h : Built root dir ts heapTable fs heap n w mem mem') (hdir : dir ∈ R.toRegion.frames)
    (hheapTable : heapTable ∈ R.toRegion.frames) :
    translateFrom mem' 3 root (2 ^ 18 + 2 ^ 16) =
      some (configurePageEntry (.ofWord 0) heap true true false true .kilo, 1) := by
  have hsmall : 2 ^ 16 < 2 ^ 18 := by decide
  obtain ⟨-, hi1, hi0⟩ := user_index hsmall
  have hlink := R.frame_linkable hheapTable
  have htable := h.heapLinked
  have hpage := h.heapPage
  rw [show PageType.heap.start = 2 ^ 16 / ptSize from rfl, ← hi1] at htable
  rw [show (0 : Nat) = 2 ^ 16 % ptSize from rfl, ← hi0] at hpage
  rw [h.walk_dir hdir hsmall, translateFrom_link htable hlink.1 hlink.2]
  exact translateFrom_leaf hpage

/-- No other page. -/
theorem Built.walk_none (h : Built root dir ts heapTable fs heap n w mem mem') (hdir : dir ∈ R.toRegion.frames)
    (hts : ∀ t ∈ ts, t ∈ R.toRegion.frames) (hheapTable : heapTable ∈ R.toRegion.frames) (hk : k < 2 ^ 18) (hn : n ≤ k)
    (hheap : k ≠ 2 ^ 16) : translateFrom mem' 3 root (2 ^ 18 + k) = none := by
  obtain ⟨-, hi1, hi0⟩ := user_index hk
  have hmod : k % ptSize < ptSize := Nat.mod_lt _ (by decide)
  rw [h.walk_dir hdir hk]
  by_cases hlt : k / ptSize < ts.length
  · -- a table of the code and the stack
    obtain ⟨table, ht⟩ : ∃ table, ts[k / ptSize]? = some table := ⟨_, List.getElem?_eq_getElem hlt⟩
    have hlink := R.frame_linkable (hts table (List.mem_of_getElem? ht))
    have htable := h.linked _ _ ht
    have hblank := h.noPage _ _ ht (k % ptSize) hmod (by rw [Nat.div_add_mod]; exact hn)
    rw [← hi1] at htable
    rw [← hi0] at hblank
    rw [translateFrom_link htable hlink.1 hlink.2]
    exact translateFrom_blank hblank
  by_cases hdiv : k / ptSize = PageType.heap.start
  · -- the table of the heap
    have hlink := R.frame_linkable hheapTable
    have htable := h.heapLinked
    have hblank := h.noHeapPage (k % ptSize) hmod (by
      intro hzero
      apply hheap
      have := Nat.div_add_mod k ptSize
      rw [hdiv, hzero] at this
      exact this.symm)
    rw [← hdiv, ← hi1] at htable
    rw [← hi0] at hblank
    rw [translateFrom_link htable hlink.1 hlink.2]
    exact translateFrom_blank hblank
  · have hdivlt : k / ptSize < ptSize := by
      unfold ptSize
      omega
    have hblank := h.unlinked (k / ptSize) hdivlt (Nat.le_of_not_lt hlt) hdiv
    rw [← hi1] at hblank
    exact translateFrom_blank hblank

/-! ## The user space of a new process -/

variable {s t : MemoryState} {p : Ptr} {m : ProcessMemory} {app : App R.toRegion}

/-- Everything taken was a frame of the region. -/
theorem Allocated.mem_frames (h : Allocated app p m n held free s t root dir ts heapTable fs heap free') :
    ∀ f ∈ takenFrames root dir ts heapTable fs heap, f ∈ R.toRegion.frames :=
  fun _ hf => h.pool.mem_frames.2 _ (List.mem_append_left _ (List.mem_reverse.2 hf))

/-- The page number of an address of the user space. -/
theorem user_page {a : Nat} (hlo : userStart ≤ a) : a / kiloSize = 2 ^ 18 + (a - userStart) / frameSize := by
  unfold userStart kiloSize frameSize at *
  omega

/-- The user space after a successful `process_memory_allocator`: `n` pages from its
start in the frames `fs`, one page of heap, and nothing else. -/
structure UserSpace (mem : Memory) (m : ProcessMemory) (n : Nat) (fs : List Nat) (heap : Nat) : Prop where
  shift : m.stackShift = n
  length : fs.length = n
  distinct : (heap :: fs).Nodup
  pages : ∀ a, userStart ≤ a → a < userStart + frameSize * n →
    ∃ f, fs[(a - userStart) / frameSize]? = some f ∧ UserPage mem m.pageTableLevel2 a f
  heapPage : ∀ a, heapStart ≤ a → a < heapStart + frameSize → UserPage mem m.pageTableLevel2 a heap
  nothing : ∀ a, userStart ≤ a → a < userStop → userStart + frameSize * n ≤ a →
    (a < heapStart ∨ heapStart + frameSize ≤ a) → translate mem m.pageTableLevel2 a = none

/-- The record of the process. -/
theorem Allocated.proc (h : Allocated app p m n held free s t root dir ts heapTable fs heap free') :
    ∃ m', t.procs p = some m' ∧ m'.pageTableLevel2 = root ∧ m'.stackShift = n % 2 ^ 16 := by
  rw [h.procs, Function.update_self]
  exact ⟨_, rfl, rfl, rfl⟩

/-- The pages fit into `stack_shift`. -/
theorem Allocated.pages_lt (h : Allocated app p m n held free s t root dir ts heapTable fs heap free') : n < 2 ^ 16 := by
  have h1 := h.pool.parts.length_eq
  have h2 := h.built.length
  have h3 := R.few
  have h4 : R.toRegion.lendable.length = R.toRegion.lent := by rw [Region.lendable, List.length_map, List.length_range]
  simp only [takenFrames, List.length_append, List.length_reverse, List.length_cons] at h1
  rw [h4] at h1
  unfold Region.lent frameSize at *
  omega

/-- What is mapped. -/
theorem Allocated.userSpace (h : Allocated app p m n held free s t root dir ts heapTable fs heap free') {m' : ProcessMemory}
    (hroot : m'.pageTableLevel2 = root) (hshift : m'.stackShift = n % 2 ^ 16) : UserSpace t.pool.mem m' n fs heap := by
  have hframe := h.mem_frames
  have hdir : dir ∈ R.toRegion.frames := hframe dir (by simp [takenFrames])
  have hts : ∀ t ∈ ts, t ∈ R.toRegion.frames := fun t ht => hframe t (by simp [takenFrames, ht])
  have hheapTable : heapTable ∈ R.toRegion.frames := hframe heapTable (by simp [takenFrames])
  have hlt := h.pages_lt
  have hleaf : ∀ {f : Nat} (exec : Bool), f ∈ R.toRegion.frames →
      findPteAdress (configurePageEntry (.ofWord 0) f true true exec true .kilo) = f := by
    intro f exec hf
    have hlink := R.frame_linkable hf
    exact findPteAdress_configure _ _ _ _ _ hlink.1 hlink.2
  refine ⟨?_, h.built.length, ?_, ?_, ?_, ?_⟩
  · rw [hshift, Nat.mod_eq_of_lt hlt]
  · have hnd := (List.nodup_append.1 (List.nodup_append.1 h.pool.nodup).2.1).1
    rw [List.nodup_reverse] at hnd
    have hlast : (fs ++ [heap]).Nodup :=
      hnd.sublist (((List.sublist_cons_self heapTable _).trans (List.sublist_append_right ts _)).trans
        ((List.sublist_cons_self dir _).trans (List.sublist_cons_self root _)))
    exact (List.perm_append_singleton heap fs).nodup_iff.1 hlast
  · intro a hlo hhi
    have hk : (a - userStart) / frameSize < n := by
      unfold frameSize at *
      omega
    obtain ⟨f, hf, hwalk⟩ := h.built.walk_page hdir hts hk
    have hmem : f ∈ R.toRegion.frames := hframe f (by simp [takenFrames, List.mem_of_getElem? hf])
    rw [← user_page hlo, ← hroot] at hwalk
    exact ⟨f, hf, _, hwalk, hleaf _ hmem, rfl, rfl, rfl⟩
  · intro a hlo hhi
    have hpage : a / kiloSize = 2 ^ 18 + 2 ^ 16 := by
      unfold heapStart kiloSize frameSize at *
      omega
    have hwalk := h.built.walk_heap hdir hheapTable
    rw [← hpage, ← hroot] at hwalk
    exact ⟨_, hwalk, hleaf false (hframe heap (by simp [takenFrames])), rfl, rfl, rfl⟩
  · intro a hlo hhi hout hheap
    rw [hroot, translate, user_page hlo]
    unfold heapStart userStart userStop frameSize at *
    apply h.built.walk_none hdir hts hheapTable
    · omega
    · omega
    · omega

/-- With memory enough it returns 0. -/
theorem allocator_succeeds (app : App R.toRegion) (size : Nat) (env : NodesEnv) (hinv : PoolInv R.toRegion s.pool held free)
    (hp : s.procs p = some m) (h : Enough env size (pagesOf app.codeSize + pagesOf size) free) :
    ∃ t, processMemoryAllocator p app size env s = .ok (0, t) := by
  obtain ⟨v, t, ht, ⟨-, hnot⟩ | ⟨rfl, -⟩⟩ := wp_returns (wp_processMemoryAllocator app size env hinv hp)
  · exact absurd h hnot
  · exact ⟨t, ht⟩

/-- What a call that returned 0 left. -/
theorem allocated_of_ok {size : Nat} {env : NodesEnv} (hinv : PoolInv R.toRegion s.pool held free) (hp : s.procs p = some m)
    (ht : processMemoryAllocator p app size env s = .ok (0, t)) :
    ∃ root dir ts heapTable fs heap free',
      Allocated app p m (pagesOf app.codeSize + pagesOf size) held free s t root dir ts heapTable fs heap free' := by
  obtain ⟨hv, -⟩ | ⟨-, -, h⟩ := wp_ok (wp_processMemoryAllocator app size env hinv hp) ht
  · cases hv
  · exact h

/-- Sixteen frames above a kernel of a megabyte, with the start of their free list. -/
def smallRam : Ram where
  start := 0x80100000
  stop := 0x80110000
  aligned := by decide
  nonnull := by decide
  below := by decide
  fits := by decide
  physical := by decide
  few := by decide

/-- A program in that kernel. -/
def smallApp (size : Nat) (h : size < 2 ^ 16) : App smallRam.toRegion where
  start := 0x80080000
  stop := 0x80080000 + size
  nonnull := by decide
  ordered := Nat.le_add_right _ _
  small := by omega
  below := by
    show 0x80080000 + size + 4096 ≤ 0x80100000
    omega

/-- The state after boot, with one record to fill. -/
def bootMemory (pool : FramePool) : MemoryState where
  pool := pool
  kernelBasePageTable := 0x80000000
  procs := Function.update (fun _ => none) 1 (some .blank)
  sharedMemoryHashTable := none
  pages := fun _ => none
  strings := fun _ => ⟨[], by simp⟩

/-- **A new process's pages**: `process_memory_allocator` never faults, and when it
returns 0 the code and the stack are `n` pages from the start of the user space,
`stack_shift` says so, the heap is one page, every page has a frame of its own that
was free before, and no other page of the user space is mapped. -/
theorem allocator_maps_pages (app : App R.toRegion) (size : Nat) (env : NodesEnv) (run : PoolRun R.toRegion held s.pool)
    (hp : s.procs p = some m) :
    (∀ e, processMemoryAllocator p app size env s ≠ .error e) ∧
      ∀ t, processMemoryAllocator p app size env s = .ok (0, t) →
        ∃ m' fs heap taken free', t.procs p = some m' ∧
          UserSpace t.pool.mem m' (pagesOf app.codeSize + pagesOf size) fs heap ∧
          PoolInv R.toRegion s.pool held (taken ++ free') ∧ PoolInv R.toRegion t.pool (taken.reverse ++ held) free' ∧
          ∀ f ∈ heap :: fs, f ∈ taken := by
  obtain ⟨free, hinv⟩ := run.inv
  refine ⟨fun e he => wp_error (wp_processMemoryAllocator app size env hinv hp) he, fun t ht => ?_⟩
  obtain ⟨root, dir, ts, heapTable, fs, heap, free', h⟩ := allocated_of_ok hinv hp ht
  obtain ⟨m', hm', hroot, hshift⟩ := h.proc
  have htaken := h.taken
  subst htaken
  refine ⟨m', fs, heap, _, free', hm', h.userSpace hroot hshift, hinv, h.pool, fun f hf => ?_⟩
  obtain rfl | hf := List.mem_cons.1 hf
  · simp [takenFrames]
  · simp [takenFrames, hf]

/-- Two pages of code and two of stack. -/
theorem allocator_maps_pages_four : ∃ s t m fs heap,
    processMemoryAllocator 1 (smallApp 5000 (by decide)) 5000 ⟨true, fun _ => true⟩ s = .ok (0, t) ∧ t.procs 1 = some m ∧
      UserSpace t.pool.mem m 4 fs heap := by
  obtain ⟨pool, e, hinv⟩ := initFrames_spec smallRam.toRegion fun _ => 0
  obtain ⟨t, ht⟩ := allocator_succeeds (s := bootMemory pool) (p := 1) (smallApp 5000 (by decide)) 5000
    ⟨true, fun _ => true⟩ hinv rfl ⟨by decide, rfl, fun _ _ => rfl, by decide, by decide⟩
  obtain ⟨m, fs, heap, -, -, hm, hspace, -⟩ :=
    (allocator_maps_pages (p := 1) (smallApp 5000 (by decide)) 5000 _ (.init e) rfl).2 t ht
  exact ⟨_, t, m, fs, heap, ht, hm, hspace⟩

/-! ## The image of the program -/

theorem Writing.next_copying {a : Nat} {left : Int} (h : ¬ left < 0) :
    (Writing.mk true a left).next = ⟨true, a + frameSize, left - frameSize⟩ := by
  simp only [next, fillFrame, if_true, if_neg h]

theorem Writing.next_copied {a : Nat} {left : Int} (h : left < 0) : (Writing.mk true a left).next = ⟨false, a, left⟩ := by
  simp only [next, fillFrame, if_true, if_pos h]

/-- The turns that copy: one for every multiple of the page size up to the size of the
program, that size included. -/
theorem Writing.after_copying {a size : Nat} (hk : k ≤ size / frameSize + 1) :
    (Writing.mk true a size).after k = ⟨true, a + frameSize * k, (size : Int) - frameSize * k⟩ := by
  induction k with
  | zero => simp [after]
  | succ k ih =>
    have hleft : ¬ (size : Int) - frameSize * k < 0 := by
      unfold frameSize at *
      omega
    have hpointer : a + frameSize * k + frameSize = a + frameSize * (k + 1) := by rw [Nat.mul_succ, Nat.add_assoc]
    have hrest : (size : Int) - frameSize * k - frameSize = size - frameSize * ↑(k + 1) := by
      unfold frameSize
      omega
    rw [after_add, ih (by omega), after_succ, next_copying hleft, hpointer, hrest]
    rfl

/-- Then one turn leaves its frame as it is, and the others clear theirs. -/
theorem Writing.after_copied {a size : Nat} (hk : size / frameSize + 2 ≤ k) :
    ((Writing.mk true a size).after k).writingData = false := by
  obtain ⟨j, rfl⟩ := Nat.exists_eq_add_of_le hk
  have hleft : (size : Int) - frameSize * ↑(size / frameSize + 1) < 0 := by
    unfold frameSize
    omega
  have hend : (Writing.mk true a size).after (size / frameSize + 2) =
      ⟨false, a + frameSize * (size / frameSize + 1), (size : Int) - frameSize * ↑(size / frameSize + 1)⟩ := by
    rw [after_add _ (size / frameSize + 1) 1, after_copying (Nat.le_refl _), after_succ, next_copied hleft]
    rfl
  rw [after_add, hend, after, Function.iterate_fixed]
  rfl

/-- The pages that hold the image of a program. -/
def App.imagePages {r : Region} (app : App r) : Nat := (app.codeSize + (frameSize - 1)) / frameSize

/-- What a program finds in its user space: its image, executable, and no other part of
the kernel's program table. -/
structure ImageLoaded {r : Region} (app : App r) (mem mem' : Memory) (root : Nat) (fs : List Nat) : Prop where
  image : ∀ i < app.codeSize, userByte mem' root (userStart + i) = some (mem (app.start + i))
  exec : ∀ a, userStart ≤ a → a < userStop → ∀ pte pages, translate mem' root a = some (pte, pages) →
    (pte.exec = true ↔ a < userStart + frameSize * app.imagePages)
  copied : ∀ k f, fs[k]? = some f → k < app.imagePages →
    ∀ o < frameSize, mem' (f + o) = mem (app.start + frameSize * k + o)
  stack : ∀ k f, fs[k]? = some f → app.imagePages ≤ k → ∀ o < frameSize, mem' (f + o) = 0 ∨ mem' (f + o) = mem (f + o)

/-- A byte of a page. -/
theorem UserPage.byte {a f : Nat} (h : UserPage mem root a f) (hf : f % frameSize = 0) :
    userByte mem root a = some (mem (f + a % frameSize)) := by
  obtain ⟨pte, hwalk, hpte, huser, hread, -⟩ := h
  have hsize : 1 * kiloSize = frameSize := by decide
  have hphysical : physical mem root a = some (pte, f + a % frameSize) := by
    rw [physical, hwalk, Option.bind_eq_bind, Option.bind_some]
    simp only []
    rw [hpte, hsize, if_neg (not_not.2 hf)]
  simp only [userByte, hphysical, Option.bind_eq_bind, Option.bind_some, huser, hread, and_self, if_true]

/-- The variables of the copying loop. -/
theorem App.init_eq {r : Region} (app : App r) (hsize : 0 < app.codeSize) :
    Writing.init (some app.start) app.codeSize = ⟨true, app.start, app.codeSize⟩ := by
  exact if_pos (by omega)

/-- The code takes the pages of its image. -/
theorem App.pagesOf_codeSize {r : Region} (app : App r) (hsize : 0 < app.codeSize) :
    pagesOf app.codeSize = app.imagePages := by
  unfold pagesOf App.imagePages frameSize
  omega

/-- The permission of a page, and what it was filled with. -/
theorem Writing.after_exec {a size : Nat} : ((Writing.mk true a size).after (k + 1)).writingData = true ↔ k ≤ size / frameSize := by
  constructor
  · intro h
    by_contra hk
    rw [after_copied (by omega)] at h
    cases h
  · intro hk
    rw [after_copying (by omega)]

theorem Writing.filling_copied {a size : Nat} (hk : k ≤ size / frameSize) :
    ((Writing.mk true a size).after k).filling = .copied (a + frameSize * k) := by
  have hleft : ¬ (size : Int) - frameSize * k < 0 := by
    unfold frameSize at *
    omega
  rw [after_copying (by omega)]
  simp only [filling, if_true, if_neg hleft]

theorem Writing.filling_not_copied (a : Nat) {size : Nat} (hk : size / frameSize < k) :
    ((Writing.mk true a size).after k).filling = .left ∨ ((Writing.mk true a size).after k).filling = .cleared := by
  obtain rfl | hk := Nat.eq_or_lt_of_le hk
  · have hleft : (size : Int) - frameSize * ↑(size / frameSize + 1) < 0 := by
      unfold frameSize
      omega
    rw [after_copying (Nat.le_refl _)]
    simp only [filling, if_true, if_pos hleft, true_or]
  · simp only [filling, after_copied hk]
    exact .inr rfl

/-- The executable pages. -/
theorem Allocated.page_exec (h : Allocated app p m n held free s t root dir ts heapTable fs heap free')
    (hsize : 0 < app.codeSize) {a : Nat} (hlo : userStart ≤ a) (hhi : a < userStart + frameSize * n) :
    ∃ pte, translate t.pool.mem root a = some (pte, 1) ∧
      (pte.exec = true ↔ (a - userStart) / frameSize ≤ app.codeSize / frameSize) := by
  have hdir : dir ∈ R.toRegion.frames := h.mem_frames dir (by simp [takenFrames])
  have hts : ∀ t ∈ ts, t ∈ R.toRegion.frames := fun t ht => h.mem_frames t (by simp [takenFrames, ht])
  have hk : (a - userStart) / frameSize < n := by
    unfold frameSize at *
    omega
  obtain ⟨f, -, hwalk⟩ := h.built.walk_page hdir hts hk
  rw [← user_page hlo, app.init_eq hsize] at hwalk
  refine ⟨_, hwalk, ?_⟩
  rw [(configurePageEntry_flags _ _ _ _ _ _).2.2.2.1]
  exact Writing.after_exec

/-- The heap is not executable. -/
theorem Allocated.heap_exec (h : Allocated app p m n held free s t root dir ts heapTable fs heap free') {a : Nat}
    (hlo : heapStart ≤ a) (hhi : a < heapStart + frameSize) :
    ∃ pte, translate t.pool.mem root a = some (pte, 1) ∧ pte.exec = false := by
  have hdir : dir ∈ R.toRegion.frames := h.mem_frames dir (by simp [takenFrames])
  have hheapTable : heapTable ∈ R.toRegion.frames := h.mem_frames heapTable (by simp [takenFrames])
  have hpage : a / kiloSize = 2 ^ 18 + 2 ^ 16 := by
    unfold heapStart kiloSize frameSize at *
    omega
  have hwalk := h.built.walk_heap hdir hheapTable
  rw [← hpage] at hwalk
  exact ⟨_, hwalk, (configurePageEntry_flags _ _ _ _ _ _).2.2.2.1⟩

/-- When the size is a multiple of the page size, the first page of the stack is executable. -/
theorem Allocated.not_imageLoaded (h : Allocated app p m n held free s t root dir ts heapTable fs heap free')
    (hsize : 0 < app.codeSize) (hn : app.imagePages < n) (hmult : app.codeSize % frameSize = 0) :
    ¬ ImageLoaded app s.pool.mem t.pool.mem root fs := by
  intro hloaded
  have hlt := h.pages_lt
  have hpages : app.imagePages = app.codeSize / frameSize := by
    unfold App.imagePages frameSize at *
    omega
  have hin : userStart + frameSize * app.imagePages < userStart + frameSize * n := by
    unfold frameSize
    omega
  obtain ⟨pte, htranslate, hexec⟩ := h.page_exec hsize (Nat.le_add_right _ _) hin
  have hfirst : (userStart + frameSize * app.imagePages - userStart) / frameSize ≤ app.codeSize / frameSize := by
    rw [Nat.add_sub_cancel_left, Nat.mul_div_cancel_left _ (by decide), hpages]
  have hstop : userStart + frameSize * app.imagePages < userStop := by
    unfold userStart userStop frameSize
    omega
  have := (hloaded.exec _ (Nat.le_add_right _ _) hstop pte 1 htranslate).1 (hexec.2 hfirst)
  omega

/-- Otherwise the image is there, and only it. -/
theorem Allocated.imageLoaded (h : Allocated app p m n held free s t root dir ts heapTable fs heap free')
    (hsize : 0 < app.codeSize) (hn : app.imagePages < n) (hmult : app.codeSize % frameSize ≠ 0) :
    ImageLoaded app s.pool.mem t.pool.mem root fs := by
  have hlt := h.pages_lt
  obtain ⟨m', -, rfl, hshift⟩ := h.proc
  have hspace := h.userSpace rfl hshift
  have hb := h.built
  rw [app.init_eq hsize] at hb
  have hpages : app.imagePages = app.codeSize / frameSize + 1 := by
    unfold App.imagePages frameSize at *
    omega
  have hcopied : ∀ k f, fs[k]? = some f → k < app.imagePages →
      ∀ o < frameSize, t.pool.mem (f + o) = s.pool.mem (app.start + frameSize * k + o) := by
    intro k f hk hlt o ho
    rw [hb.byte k f hk o ho, Writing.filling_copied (by omega)]
    rfl
  refine ⟨?_, ?_, hcopied, ?_⟩
  · intro i hi
    have hk : i / frameSize < app.imagePages := by
      rw [hpages]
      exact Nat.lt_succ_of_le (Nat.div_le_div_right (Nat.le_of_lt hi))
    have hin : userStart + i < userStart + frameSize * n := by
      unfold frameSize at *
      omega
    obtain ⟨f, hf, hpage⟩ := hspace.pages (userStart + i) (Nat.le_add_right _ _) hin
    rw [Nat.add_sub_cancel_left] at hf
    have hmem : f ∈ R.toRegion.frames := h.mem_frames f (by simp [takenFrames, List.mem_of_getElem? hf])
    have hoffset : (userStart + i) % frameSize = i % frameSize := by
      unfold userStart frameSize
      omega
    rw [hpage.byte (R.frame_linkable hmem).1, hoffset, hcopied _ f hf hk _ (Nat.mod_lt _ (by decide)), Nat.add_assoc,
      Nat.div_add_mod]
  · intro a hlo hhi pte pages hpte
    by_cases hin : a < userStart + frameSize * n
    · obtain ⟨pte', hpte', hexec⟩ := h.page_exec hsize hlo hin
      rw [hpte] at hpte'
      cases hpte'
      rw [hexec, hpages]
      unfold frameSize
      omega
    by_cases hheap : heapStart ≤ a ∧ a < heapStart + frameSize
    · obtain ⟨pte', hpte', hexec⟩ := h.heap_exec hheap.1 hheap.2
      rw [hpte] at hpte'
      cases hpte'
      rw [hexec]
      simp only [Bool.false_eq_true, false_iff]
      unfold frameSize at *
      omega
    · rw [hspace.nothing a hlo hhi (by omega) (by omega)] at hpte
      cases hpte
  · intro k f hk hlo o ho
    rw [hb.byte k f hk o ho]
    obtain hfill | hfill := Writing.filling_not_copied app.start (show app.codeSize / frameSize < k by omega)
    · rw [hfill]
      exact .inr rfl
    · rw [hfill]
      exact .inl rfl

/-- A stack follows the image. -/
theorem App.imagePages_lt (app : App R.toRegion) (size : Nat) (hsize : 0 < app.codeSize) :
    app.imagePages < pagesOf app.codeSize + pagesOf size := by
  have := pagesOf_pos size
  rw [app.pagesOf_codeSize hsize]
  omega

/-- **The image of a program**: after a successful allocation a program finds exactly its
image at the start of its user space, executable, with no more of the kernel's memory
copied anywhere, if and only if its size is not a multiple of the page size. -/
theorem image_loaded_iff (app : App R.toRegion) (size : Nat) (env : NodesEnv) (run : PoolRun R.toRegion held s.pool)
    (hp : s.procs p = some m) (hsize : 0 < app.codeSize) (ht : processMemoryAllocator p app size env s = .ok (0, t)) :
    ∃ m' fs heap, t.procs p = some m' ∧ UserSpace t.pool.mem m' (pagesOf app.codeSize + pagesOf size) fs heap ∧
      (ImageLoaded app s.pool.mem t.pool.mem m'.pageTableLevel2 fs ↔ app.codeSize % frameSize ≠ 0) := by
  obtain ⟨free, hinv⟩ := run.inv
  obtain ⟨root, dir, ts, heapTable, fs, heap, free', h⟩ := allocated_of_ok hinv hp ht
  have hlt := app.imagePages_lt size hsize
  obtain ⟨m', hm', rfl, hshift⟩ := h.proc
  refine ⟨m', fs, heap, hm', h.userSpace rfl hshift, fun hloaded hmult => ?_, fun hmult => h.imageLoaded hsize hlt hmult⟩
  exact h.not_imageLoaded hsize hlt hmult hloaded

/-- An image of two pages. -/
theorem image_loaded_two_pages : ∃ s t m fs,
    processMemoryAllocator 1 (smallApp 5000 (by decide)) 4002 ⟨true, fun _ => true⟩ s = .ok (0, t) ∧ t.procs 1 = some m ∧
      ImageLoaded (smallApp 5000 (by decide)) s.pool.mem t.pool.mem m.pageTableLevel2 fs := by
  obtain ⟨pool, e, hinv⟩ := initFrames_spec smallRam.toRegion fun _ => 0
  obtain ⟨t, ht⟩ := allocator_succeeds (s := bootMemory pool) (p := 1) (smallApp 5000 (by decide)) 4002
    ⟨true, fun _ => true⟩ hinv rfl ⟨by decide, rfl, fun _ _ => rfl, by decide, by decide⟩
  obtain ⟨m, fs, heap, hm, -, hiff⟩ :=
    image_loaded_iff (p := 1) (smallApp 5000 (by decide)) 4002 ⟨true, fun _ => true⟩ (.init e) rfl (by decide) ht
  exact ⟨_, t, m, fs, ht, hm, hiff.2 (by decide)⟩

/-- An image of exactly one page: the page of stack behind it is executable. -/
theorem image_spills : ∃ s t m fs heap,
    processMemoryAllocator 1 (smallApp 4096 (by decide)) 4002 ⟨true, fun _ => true⟩ s = .ok (0, t) ∧ t.procs 1 = some m ∧
      UserSpace t.pool.mem m 2 fs heap ∧
      ¬ ImageLoaded (smallApp 4096 (by decide)) s.pool.mem t.pool.mem m.pageTableLevel2 fs := by
  obtain ⟨pool, -, hinv⟩ := initFrames_spec smallRam.toRegion fun _ => 0
  have hp : (bootMemory pool).procs 1 = some .blank := rfl
  obtain ⟨t, ht⟩ := allocator_succeeds (smallApp 4096 (by decide)) 4002 ⟨true, fun _ => true⟩ hinv hp
    ⟨by decide, rfl, fun _ _ => rfl, by decide, by decide⟩
  obtain ⟨root, dir, ts, heapTable, fs, heap, free', h⟩ := allocated_of_ok hinv hp ht
  have hn : pagesOf (smallApp 4096 (by decide)).codeSize + pagesOf (4002 : Nat) = 2 := by decide
  rw [hn] at h
  obtain ⟨m', hm', rfl, hshift⟩ := h.proc
  refine ⟨_, t, m', fs, heap, ht, hm', h.userSpace rfl hshift, ?_⟩
  exact h.not_imageLoaded (by decide) (by decide) (by decide)

end Xinul
