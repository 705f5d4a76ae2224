import Xinul.Proofs.Freeing
import Xinul.Runs.UserPages

/-!
# The address space of a process

What the tables of a process that holds no shared page look like as long as it lives,
and what the processor finds in them.
-/

namespace Xinul

open Bytes Prog

/-- The frames of a process: its tables, the pages of code and stack, the page of heap and
the interrupt frame; `exec` are the executable pages. -/
structure Space where
  root : Nat
  dir : Nat
  ts : List Nat
  heapTable : Nat
  fs : List Nat
  heap : Nat
  sscratch : Nat
  exec : Nat → Bool

/-- The tables. -/
def Space.tables (x : Space) : List Nat := x.root :: x.dir :: x.heapTable :: x.ts

/-- The pages the program sees. -/
def Space.pages (x : Space) : List Nat := x.heap :: x.fs

/-- All its frames. -/
def Space.frames (x : Space) : List Nat := x.sscratch :: (x.pages ++ x.tables)

/-- The record of the process. -/
def Space.record (x : Space) : ProcessMemory :=
  { ProcessMemory.blank with
    pageTableLevel2 := x.root
    stackShift := x.fs.length % 2 ^ 16
    pageTablesLvl1List := some (.ofPages x.dir x.ts x.heapTable x.fs.length)
    sscratchFrame := x.sscratch }

/-- The tables in memory: `base` is the page table of the kernel. -/
structure Space.Mapped (x : Space) (base : Nat) (mem : Memory) : Prop where
  fits : Fits x.ts x.fs.length
  room : x.ts.length ≤ stackFrameSize
  kernel : ∀ i < ptSize, i ≠ userspace → pteAt mem x.root i = pteAt mem base i
  user : ∃ e, pteAt mem x.root userspace = configurePageEntry e x.dir false false false true .kilo
  linked : ∀ i table, x.ts[i]? = some table →
    pteAt mem x.dir i = configurePageEntry (.ofWord 0) table false false false true .kilo
  heapLinked : pteAt mem x.dir PageType.heap.start = configurePageEntry (.ofWord 0) x.heapTable false false false true .kilo
  unlinked : ∀ i < ptSize, x.ts.length ≤ i → i ≠ PageType.heap.start → pteAt mem x.dir i = .ofWord 0
  page : ∀ k table f, x.ts[k / ptSize]? = some table → x.fs[k]? = some f →
    pteAt mem table (k % ptSize) = configurePageEntry (.ofWord 0) f true true (x.exec k) true .kilo
  noPage : ∀ i table, x.ts[i]? = some table → ∀ j < ptSize, x.fs.length ≤ ptSize * i + j → pteAt mem table j = .ofWord 0
  heapPage : pteAt mem x.heapTable 0 = configurePageEntry (.ofWord 0) x.heap true true false true .kilo
  noHeapPage : ∀ j < ptSize, j ≠ 0 → pteAt mem x.heapTable j = .ofWord 0

variable {x : Space} {base k : Nat} {mem mem' : Memory}

/-- It depends on the tables. -/
theorem Space.Mapped.congr (h : x.Mapped base mem)
    (hmem : ∀ t ∈ base :: x.tables, ∀ i < ptSize, pteAt mem' t i = pteAt mem t i) : x.Mapped base mem' := by
  have hroot : ∀ i < ptSize, pteAt mem' x.root i = pteAt mem x.root i := hmem _ (by simp [tables])
  have hdir : ∀ i < ptSize, pteAt mem' x.dir i = pteAt mem x.dir i := hmem _ (by simp [tables])
  have hheap : ∀ i < ptSize, pteAt mem' x.heapTable i = pteAt mem x.heapTable i := hmem _ (by simp [tables])
  have hts : ∀ (i table : Nat), x.ts[i]? = some table → ∀ j < ptSize, pteAt mem' table j = pteAt mem table j := by
    intro i table ht
    exact hmem _ (by simp [tables, List.mem_of_getElem? ht])
  have hroom := h.room
  constructor
  · exact h.fits
  · exact h.room
  · intro i hi hne
    rw [hroot i hi, hmem base (by simp) i hi, h.kernel i hi hne]
  · rw [hroot userspace (by decide)]
    exact h.user
  · intro i table ht
    have hlt := (List.getElem?_eq_some_iff.1 ht).1
    rw [hdir i (by unfold stackFrameSize ptSize at *; omega), h.linked i table ht]
  · rw [hdir _ (by decide), h.heapLinked]
  · intro i hi hlo hne
    rw [hdir i hi, h.unlinked i hi hlo hne]
  · intro k table f ht hf
    rw [hts _ table ht _ (Nat.mod_lt _ (by decide)), h.page k table f ht hf]
  · intro i table ht j hj hlo
    rw [hts i table ht j hj, h.noPage i table ht j hj hlo]
  · rw [hheap 0 (by decide), h.heapPage]
  · intro j hj hne
    rw [hheap j hj, h.noHeapPage j hj hne]

/-! ## The walk -/

section walk

variable {R : Ram} (h : x.Mapped base mem) (hl : ∀ f ∈ x.frames, f ∈ R.toRegion.frames)

include h hl

theorem Space.Mapped.walk_dir (hk : k < 2 ^ 18) : translateFrom mem 3 x.root (2 ^ 18 + k) = translateFrom mem 2 x.dir (2 ^ 18 + k) := by
  obtain ⟨e, he⟩ := h.user
  have hlink := R.frame_linkable (hl x.dir (by simp [frames, tables]))
  rw [← (user_index hk).1] at he
  exact translateFrom_link he hlink.1 hlink.2

/-- A page of code or stack. -/
theorem Space.Mapped.walk_page {f : Nat} (hf : x.fs[k]? = some f) : translateFrom mem 3 x.root (2 ^ 18 + k) =
    some (configurePageEntry (.ofWord 0) f true true (x.exec k) true .kilo, 1) := by
  have h1 := h.fits.enough
  have h2 := h.room
  have hn := (List.getElem?_eq_some_iff.1 hf).1
  have hlt : k / ptSize < x.ts.length := Nat.div_lt_of_lt_mul (Nat.lt_of_lt_of_le hn h1)
  have hsmall : k < 2 ^ 18 := by
    unfold ptSize stackFrameSize at *
    omega
  obtain ⟨-, hi1, hi0⟩ := user_index hsmall
  obtain ⟨table, ht⟩ : ∃ table, x.ts[k / ptSize]? = some table := ⟨_, List.getElem?_eq_getElem hlt⟩
  have hlink := R.frame_linkable (hl table (by simp [frames, tables, List.mem_of_getElem? ht]))
  have htable := h.linked _ _ ht
  have hpage := h.page k table f ht hf
  rw [← hi1] at htable
  rw [← hi0] at hpage
  rw [h.walk_dir hl hsmall, translateFrom_link htable hlink.1 hlink.2]
  exact translateFrom_leaf hpage

/-- The page of heap. -/
theorem Space.Mapped.walk_heap : translateFrom mem 3 x.root (2 ^ 18 + 2 ^ 16) =
    some (configurePageEntry (.ofWord 0) x.heap true true false true .kilo, 1) := by
  have hsmall : 2 ^ 16 < 2 ^ 18 := by decide
  obtain ⟨-, hi1, hi0⟩ := user_index hsmall
  have hlink := R.frame_linkable (hl x.heapTable (by simp [frames, tables]))
  have htable := h.heapLinked
  have hpage := h.heapPage
  rw [show PageType.heap.start = 2 ^ 16 / ptSize from rfl, ← hi1] at htable
  rw [show (0 : Nat) = 2 ^ 16 % ptSize from rfl, ← hi0] at hpage
  rw [h.walk_dir hl hsmall, translateFrom_link htable hlink.1 hlink.2]
  exact translateFrom_leaf hpage

/-- No other page of the user space. -/
theorem Space.Mapped.walk_none (hk : k < 2 ^ 18) (hn : x.fs.length ≤ k) (hheap : k ≠ 2 ^ 16) :
    translateFrom mem 3 x.root (2 ^ 18 + k) = none := by
  obtain ⟨-, hi1, hi0⟩ := user_index hk
  have hmod : k % ptSize < ptSize := Nat.mod_lt _ (by decide)
  rw [h.walk_dir hl hk]
  by_cases hlt : k / ptSize < x.ts.length
  · -- a table of the code and the stack
    obtain ⟨table, ht⟩ : ∃ table, x.ts[k / ptSize]? = some table := ⟨_, List.getElem?_eq_getElem hlt⟩
    have hlink := R.frame_linkable (hl table (by simp [frames, tables, List.mem_of_getElem? ht]))
    have htable := h.linked _ _ ht
    have hblank := h.noPage _ _ ht (k % ptSize) hmod (by rw [Nat.div_add_mod]; exact hn)
    rw [← hi1] at htable
    rw [← hi0] at hblank
    rw [translateFrom_link htable hlink.1 hlink.2]
    exact translateFrom_blank hblank
  by_cases hdiv : k / ptSize = PageType.heap.start
  · -- the table of the heap
    have hlink := R.frame_linkable (hl x.heapTable (by simp [frames, tables]))
    have htable := h.heapLinked
    have hblank := h.noHeapPage (k % ptSize) hmod (by
      intro hzero
      apply hheap
      have := Nat.div_add_mod k ptSize
      rw [hdiv, hzero] at this
      exact this.symm)
    rw [← hdiv, ← hi1] at htable
    rw [← hi0] at hblank
    rw [translateFrom_link htable hlink.1 hlink.2]
    exact translateFrom_blank hblank
  · have hdivlt : k / ptSize < ptSize := by
      unfold ptSize
      omega
    have hblank := h.unlinked (k / ptSize) hdivlt (Nat.le_of_not_lt hlt) hdiv
    rw [← hi1] at hblank
    exact translateFrom_blank hblank

omit hl in
/-- Outside the user space the walk is the kernel's. -/
theorem Space.Mapped.walk_kernel {page : Nat} (hp : page / ptSize ^ 2 % ptSize ≠ userspace) :
    translateFrom mem 3 x.root page = translateFrom mem 3 base page := by
  have hpte := h.kernel (page / ptSize ^ 2 % ptSize) (Nat.mod_lt _ (by decide)) hp
  unfold translateFrom
  rw [hpte]

end walk

/-! ## Its start -/

section start

variable {r : Region} {s t : MemoryState} {p : Ptr} {held free : List Nat} {m : ProcessMemory}

/-- The level 2 table of a process is that of the kernel but for the user space. -/
def SharesKernel (s t : MemoryState) (p : Ptr) : Prop :=
  ∃ m, t.procs p = some m ∧
    ∀ i < ptSize, i ≠ userspace → pteAt t.pool.mem m.pageTableLevel2 i = pteAt s.pool.mem s.kernelBasePageTable i

/-- `get_frame` writes nothing. -/
theorem wp_takeFrame_mem {Q : Nat → MemoryState → Prop} {E : MemoryFault → Prop}
    (h : ∀ f pool, pool.mem = s.pool.mem → Q f { s with pool := pool }) : wp takeFrame Q E s := by
  simp only [takeFrame, wp_bind, wp_get, wp_modify, wp_pure]
  apply h
  unfold getFrame
  split
  · rfl
  · rfl

-- the elaborator would run it on a symbolic memory
attribute [local irreducible] takePageTable takeFrame

/-- The rest of the allocator leaves the level 2 table alone. -/
theorem wp_allocateLinked_kernel {root dir : Nat} (app : App r) (size : Nat) (env : NodesEnv)
    (hpool : PoolInv r t.pool (dir :: root :: held) free)
    (hprocs : t.procs p = some { m with
      stackShift := 0
      pageTableLevel2 := root
      pageTablesLvl1List := if env.lvl1 then some ⟨dir, [], 0, 0, 0, 0⟩ else none })
    (huser : ∃ e, pteAt t.pool.mem root userspace = configurePageEntry e dir false false false true .kilo)
    (hblank : ∀ i < ptSize, pteAt t.pool.mem dir i = .ofWord 0)
    (hkernel : ∀ i < ptSize, i ≠ userspace → pteAt t.pool.mem root i = pteAt s.pool.mem s.kernelBasePageTable i) :
    wp (do
        if (← addFramesProcess p app.codeSize 1 size env.child) < 0 then pure (-1)
        else if (← processFramesAlloc p app) < 0 then pure (-1)
        else pure 0 : MemoryM Int)
      (fun v u => v = -1 ∨ v = 0 ∧ SharesKernel s u p) (fun _ => False) t := by
  have hne : root ≠ dir := by
    rintro rfl
    have := (List.nodup_append.1 hpool.nodup).2.1
    simp at this
  cases hnode : env.lvl1 with
  | false =>
    rw [hnode, if_neg (by decide)] at hprocs
    rw [wp_bind]
    refine wp_mono (wp_addFramesProcess_none hprocs rfl env.child) (fun v u _ hv => ?_) fun _ _ h => h
    rw [hv, if_pos (by decide), wp_pure]
    exact .inl rfl
  | true =>
    rw [hnode, if_pos rfl] at hprocs
    refine wp_mono (wp_allocatePages app size env.child hpool hprocs rfl (by simp) (by simp) hne huser hblank)
      (fun v u _ hv => ?_) fun _ _ h => h
    obtain ⟨rfl, -⟩ | ⟨rfl, -, ts, heapTable, fs, heap, free', hfree, -, hprocs', hinv', honly, -⟩ := hv
    · exact .inl rfl
    refine .inr ⟨rfl, _, by rw [hprocs', Function.update_self], fun i hi hne' => ?_⟩
    show pteAt u.pool.mem root i = _
    rw [← hkernel i hi hne']
    refine honly.pteAt (fun g hg => ?_) hi
    obtain rfl | hg := List.mem_cons.1 hg
    · exact hpool.apart_held (by simp) (by simp) hne
    · refine (hpool.apart ?_ (by simp)).symm
      rw [hfree]
      simp only [List.mem_append, List.mem_cons, List.not_mem_nil, or_false] at hg ⊢
      tauto

theorem wp_processMemoryAllocator_kernel (app : App r) (size : Nat) (env : NodesEnv) (hinv : PoolInv r s.pool held free)
    (hp : s.procs p = some m) (hbase : ∀ f ∈ free, ApartFrames s.kernelBasePageTable f) :
    wp (processMemoryAllocator p app size env) (fun v t => v = -1 ∨ v = 0 ∧ SharesKernel s t p) (fun _ => False) s := by
  unfold processMemoryAllocator
  split
  next =>
    rw [wp_pure]
    exact .inl rfl
  rw [wp_bind, wp_procMemory hp, wp_bind, wp_setProcMemory, wp_bind]
  refine @wp_takePageTable _ _ _ (s.setProc p _) hinv _ _ (fun hnil => ?_) fun root free1 pool1 hfree1 hroot hpool1 hmem1 _ => ?_
  · rw [if_pos rfl, wp_pure]
    exact .inl rfl
  subst hfree1
  rw [if_neg hroot, wp_bind, wp_setProcMemory, wp_bind, wp_modify, wp_bind]
  have hcopy : OnlyFrames [root] pool1.mem (memcpy pool1.mem root s.kernelBasePageTable frameSize) := onlyFrames_memcpy _
  refine @wp_takePageTable _ _ _ (MemoryState.setMem (MemoryState.setProc { s.setProc p _ with pool := pool1 } p _) _)
    (hpool1.write [root] (by simp) hcopy) _ _ (fun hnil => ?_) fun dir free2 pool2 hfree2 hdir hpool2 hmem2 hblank2 => ?_
  · rw [if_pos rfl, wp_pure]
    exact .inl rfl
  subst hfree2
  rw [if_neg hdir, wp_bind, wp_setProcMemory, wp_bind, wp_modify]
  have hapart : ApartFrames dir root := hpool1.apart (by simp) (by simp)
  have hlink : OnlyFrames [root] pool2.mem (configurePte pool2.mem root userspace dir false false false true .kilo) :=
    onlyFrames_setPte (by decide)
  apply wp_allocateLinked_kernel app size env
  · exact hpool2.write [root] (by simp) hlink
  · exact Function.update_self ..
  · exact ⟨_, pteAt_setPte_self⟩
  · intro i hi
    rw [← hblank2 i hi]
    exact hlink.pteAt (by simpa using hapart) hi
  · intro i hi hne
    show pteAt (configurePte pool2.mem root userspace dir false false false true .kilo) root i = _
    have hset : pteAt (configurePte pool2.mem root userspace dir false false false true .kilo) root i = pteAt pool2.mem root i :=
      pteAt_setPte_index hne
    have hsecond : pteAt pool2.mem root i = pteAt (memcpy pool1.mem root s.kernelBasePageTable frameSize) root i :=
      hmem2.pteAt (by simpa using hapart.symm) hi
    have hfirst : pteAt pool1.mem s.kernelBasePageTable i = pteAt s.pool.mem s.kernelBasePageTable i :=
      hmem1.pteAt (by simpa using hbase root (by simp)) hi
    rw [hset, hsecond, pteAt_memcpy hi, hfirst]

theorem wp_startMemory_kernel (app : App r) (size : Nat) (env : NodesEnv) (contextOk : Bool) (hinv : PoolInv r s.pool held free)
    (hbase : ∀ f ∈ free, ApartFrames s.kernelBasePageTable f) :
    wp (startMemory p app size env contextOk) (fun v t => v = -1 ∨ v = 0 ∧ SharesKernel s t p) (fun _ => False) s := by
  have hp : (s.setProc p .blank).procs p = some .blank := Function.update_self ..
  rw [startMemory, wp_bind, wp_setProcMemory, wp_bind]
  refine wp_mono (wp_processMemoryAllocator_kernel (s := s.setProc p .blank) app size env hinv hp hbase) (fun v u _ hv => ?_)
    fun _ _ h => h
  obtain rfl | ⟨rfl, m', hm', hkernel⟩ := hv
  · rw [if_pos (by decide), wp_pure]
    exact .inl rfl
  rw [if_neg (by decide)]
  split
  next =>
    rw [wp_pure]
    exact .inl rfl
  next =>
  rw [wp_bind]
  apply wp_takeFrame_mem
  intro f pool hmem
  split
  next =>
    rw [wp_pure]
    exact .inl rfl
  next =>
  have hm'' : MemoryState.procs { u with pool := pool } p = some m' := hm'
  rw [wp_bind, wp_procMemory hm'', wp_bind, wp_setProcMemory, wp_pure]
  refine .inr ⟨rfl, _, Function.update_self .., fun i hi hne => ?_⟩
  have h := hkernel i hi hne
  show pteAt pool.mem m'.pageTableLevel2 i = pteAt s.pool.mem s.kernelBasePageTable i
  rw [hmem]
  exact h

variable {app : App r} {n root dir heapTable heap sscratch : Nat} {ts fs free' : List Nat} {u : MemoryState}

/-- The address space a successful `start_virtual` made. -/
def App.space (app : App r) (root dir : Nat) (ts : List Nat) (heapTable : Nat) (fs : List Nat) (heap sscratch : Nat) : Space :=
  ⟨root, dir, ts, heapTable, fs, heap, sscratch,
    fun k => ((Writing.init (some app.start) app.codeSize).after (k + 1)).writingData⟩

theorem Started.space (h : Started app p n held free s u t root dir ts heapTable fs heap sscratch free')
    (hkernel : SharesKernel s t p) (hbase : ∀ f ∈ free, ApartFrames s.kernelBasePageTable f) :
    let x := app.space root dir ts heapTable fs heap sscratch
    t.procs = Function.update s.procs p (some x.record) ∧ x.Mapped s.kernelBasePageTable t.pool.mem ∧
      free.Perm (x.frames ++ free') ∧ PoolInv r t.pool (x.frames ++ held) free' ∧ OnlyFrames x.frames s.pool.mem t.pool.mem ∧
      t = { s with pool := t.pool, procs := t.procs } := by
  intro x
  have hb := h.allocated.built
  have hlen : x.fs.length = n := hb.length
  have htaken := h.allocated.taken
  have hprocs : t.procs = Function.update s.procs p (some x.record) := by
    rw [h.procs, h.allocated.procs, MemoryState.setProc, Function.update_idem, Function.update_idem, ← hlen]
    rfl
  have hsub : ∀ f ∈ takenFrames root dir ts heapTable fs heap, f ∈ x.frames := by
    intro f hf
    simp only [takenFrames, List.mem_cons, List.mem_append, List.not_mem_nil, or_false] at hf
    simp only [Space.frames, Space.pages, Space.tables, List.mem_cons, List.mem_append]
    show f = sscratch ∨ (f = heap ∨ f ∈ fs) ∨ f = root ∨ f = dir ∨ f = heapTable ∨ f ∈ ts
    tauto
  have hperm : (sscratch :: takenFrames root dir ts heapTable fs heap).Perm x.frames := by
    rw [List.perm_iff_count]
    intro a
    show _ = List.count a (sscratch :: ((heap :: fs) ++ (root :: dir :: heapTable :: ts)))
    simp only [takenFrames, List.count_append, List.count_cons, List.count_nil]
    omega
  have honly : OnlyFrames (takenFrames root dir ts heapTable fs heap) s.pool.mem t.pool.mem := by
    rw [h.mem]
    exact h.allocated.only
  refine ⟨hprocs, ?_, ?_, ?_, honly.mono hsub, ?_⟩
  · rw [← hlen] at hb
    obtain ⟨m, hm, hroot⟩ := hkernel
    rw [hprocs, Function.update_self] at hm
    cases hm
    have hmem := h.mem
    constructor
    · exact hb.fits
    · exact hb.room
    · intro i hi hne
      have hsame : pteAt t.pool.mem s.kernelBasePageTable i = pteAt s.pool.mem s.kernelBasePageTable i := by
        refine honly.pteAt (fun f hf => hbase f ?_) hi
        rw [htaken]
        exact List.mem_append_left _ hf
      rw [hsame]
      exact hroot i hi hne
    · rw [hmem]
      exact hb.user
    · rw [hmem]
      exact hb.linked
    · rw [hmem]
      exact hb.heapLinked
    · rw [hmem]
      exact hb.unlinked
    · rw [hmem]
      exact hb.page
    · rw [hmem]
      exact hb.noPage
    · rw [hmem]
      exact hb.heapPage
    · rw [hmem]
      exact hb.noHeapPage
  · rw [htaken]
    have : (takenFrames root dir ts heapTable fs heap ++ sscratch :: free').Perm
        ((sscratch :: takenFrames root dir ts heapTable fs heap) ++ free') := List.perm_middle
    exact this.trans (hperm.append_right free')
  · refine h.pool.perm ?_
    have : (sscratch :: ((takenFrames root dir ts heapTable fs heap).reverse ++ held)).Perm
        ((sscratch :: takenFrames root dir ts heapTable fs heap) ++ held) := by
      rw [List.cons_append]
      exact ((List.reverse_perm _).append_right held).cons sscratch
    exact this.trans (hperm.append_right held)
  · have h1 := h.state
    have h2 := h.allocated.state
    rw [h1, h2]
    rfl

end start

/-! ## Its end -/

section free

variable {R : Ram} {s : MemoryState} {p : Ptr} {held free : List Nat}

/-- The frames in the order `free_process_memory` releases them. -/
def Space.inOrder (x : Space) : List Nat := x.fs ++ ([x.heap] ++ (x.ts ++ ([x.heapTable] ++ [x.dir, x.root, x.sscratch])))

theorem Space.inOrder_perm (x : Space) : x.inOrder.Perm x.frames := by
  unfold inOrder frames pages tables
  rw [List.perm_iff_count]
  intro a
  simp only [List.count_append, List.count_cons, List.count_nil]
  omega

/-- What an entry that maps a page of the region names. -/
theorem Ram.find_configure {f : Nat} (hf : f ∈ R.toRegion.frames) (read write exec userMode : Bool) :
    findPteAdress (configurePageEntry (.ofWord 0) f read write exec userMode .kilo) = f :=
  findPteAdress_configure _ _ _ _ _ (R.frame_linkable hf).1 (R.frame_linkable hf).2

/-- The pages and the tables below the directory are released. -/
theorem Space.Mapped.free_pages {pool : FramePool} (h : x.Mapped base pool.mem)
    (hinv : PoolInv R.toRegion pool (x.inOrder ++ held) free) :
    let rest := x.ts ++ ([x.heapTable] ++ ([x.dir, x.root, x.sscratch] ++ held))
    let pool' := (nodesOf PageType.stackCode.start x.ts x.fs.length ++ nodesOf PageType.heap.start [x.heapTable] 1).foldl
      (freeFramesPageTable R.toRegion) pool
    PoolInv R.toRegion pool' rest (([x.heap].reverse ++ x.fs.reverse) ++ free) ∧
      OnlyFrames (x.fs ++ [x.heap]) pool.mem pool'.mem ∧
      ∀ i < ptSize, pteAt pool'.mem x.dir i = pteAt pool.mem x.dir i := by
  intro rest pool'
  have hframe : ∀ f ∈ x.inOrder, f ∈ R.toRegion.frames := fun f hf => hinv.mem_frames.2 f (List.mem_append_left _ hf)
  have hinv0 : PoolInv R.toRegion pool (x.fs ++ ([x.heap] ++ rest)) free := by
    simpa [inOrder, rest] using hinv
  have hroom := h.room
  obtain ⟨hinv1, honly1⟩ := foldl_freeFramesPageTable x.ts PageType.stackCode.start x.fs pool free hinv0
    (fun t ht => by simp [rest, ht]) h.fits.enough (by
      show 0 + x.ts.length ≤ 256
      unfold stackFrameSize at hroom
      omega) (by
      intro k t f ht hf
      rw [h.page k t f ht hf]
      exact R.find_configure (hframe f (by simp [inOrder, List.mem_of_getElem? hf])) _ _ _ _)
  have hkept : ∀ t ∈ rest, ∀ i < ptSize, pteAt _ t i = pteAt pool.mem t i := fun t ht i hi =>
    hinv0.pteAt_kept _ (List.mem_append_right _ ht) honly1 hi
  obtain ⟨hinv2, honly2⟩ := foldl_freeFramesPageTable [x.heapTable] PageType.heap.start [x.heap] _ _ hinv1
    (fun t ht => by simp [rest, List.mem_singleton.1 ht]) (show 1 ≤ 512 * 1 by decide) (show 128 + 1 ≤ 256 by decide) (by
      intro k t f ht hf
      obtain ⟨rfl, rfl⟩ := getElem?_singleton hf
      obtain ⟨-, rfl⟩ := getElem?_singleton ht
      have := hkept x.heapTable (by simp [rest]) 0 (by decide)
      show findPteAdress (pteAt _ x.heapTable 0) = x.heap
      rw [this, h.heapPage]
      exact R.find_configure (hframe x.heap (by simp [inOrder])) _ _ _ _)
  have hpool : pool' = (nodesOf PageType.heap.start [x.heapTable] [x.heap].length).foldl (freeFramesPageTable R.toRegion)
      ((nodesOf PageType.stackCode.start x.ts x.fs.length).foldl (freeFramesPageTable R.toRegion) pool) := List.foldl_append
  rw [hpool]
  refine ⟨?_, (honly1.mono (by simp)).trans (honly2.mono (by simp)), fun i hi => ?_⟩
  · rw [List.append_assoc]
    exact hinv2
  · rw [hinv1.pteAt_kept x.dir (by simp [rest]) honly2 hi, hkept x.dir (by simp [rest]) i hi]

/-- The tables that the directory links are released. -/
theorem Space.Mapped.free_tables {pool pool₀ : FramePool} (h : x.Mapped base pool₀.mem)
    (hinv : PoolInv R.toRegion pool (x.ts ++ ([x.heapTable] ++ ([x.dir, x.root, x.sscratch] ++ held))) free)
    (hsame : ∀ i < ptSize, pteAt pool.mem x.dir i = pteAt pool₀.mem x.dir i) :
    let pool' := freeFramesPageDirectory R.toRegion pool (.ofPages x.dir x.ts x.heapTable x.fs.length)
    PoolInv R.toRegion pool' ([x.dir, x.root, x.sscratch] ++ held) (([x.heapTable].reverse ++ x.ts.reverse) ++ free) ∧
      OnlyFrames (x.ts ++ [x.heapTable]) pool.mem pool'.mem := by
  intro pool'
  have hframe : ∀ f ∈ x.ts ++ [x.heapTable], f ∈ R.toRegion.frames := fun f hf => by
    apply hinv.mem_frames.2
    rw [List.mem_append] at hf
    simp only [List.mem_append]
    tauto
  have hroom := h.room
  unfold stackFrameSize at hroom
  have hstack : x.ts.length ≤ ptSize := by
    unfold ptSize
    omega
  obtain ⟨hinv1, honly1⟩ := freeFramesIndexed_spec x.dir 0 hinv (by simp) (by rwa [Nat.zero_add]) (by
    intro j t ht
    have hlt := (List.getElem?_eq_some_iff.1 ht).1
    rw [Nat.zero_add, hsame j (by omega), h.linked j t ht]
    exact R.find_configure (hframe t (by simp [List.mem_of_getElem? ht])) _ _ _ _)
  obtain ⟨hinv2, honly2⟩ := freeFramesIndexed_spec x.dir PageType.heap.start hinv1 (by simp)
    (show 128 + 1 ≤ 512 by decide) (by
    intro j t ht
    obtain ⟨rfl, rfl⟩ := getElem?_singleton ht
    rw [Nat.add_zero, hinv.pteAt_kept x.dir (by simp) honly1 (by decide), hsame _ (by decide), h.heapLinked]
    exact R.find_configure (hframe x.heapTable (by simp)) _ _ _ _)
  have hpool : pool' = freeFramesIndexed R.toRegion (freeFramesIndexed R.toRegion pool x.dir 0 (0 + x.ts.length)) x.dir
      PageType.heap.start (PageType.heap.start + [x.heapTable].length) := by
    have hnone : ∀ q : FramePool, freeFramesIndexed R.toRegion q x.dir PageType.shared.start (PageType.shared.start + 0) = q := by
      intro q
      unfold freeFramesIndexed
      split
      · rfl
      · rfl
    show freeFramesPageDirectory R.toRegion pool (.ofPages x.dir x.ts x.heapTable x.fs.length) = _
    unfold freeFramesPageDirectory
    rw [if_neg (by simp [PageDirectory.ofPages])]
    exact hnone _
  rw [hpool]
  refine ⟨?_, (honly1.mono (by simp)).trans (honly2.mono (by simp))⟩
  rw [List.append_assoc]
  exact hinv2

/-- `free_process_memory` on a process that holds no shared page releases its frames, each
of them once. -/
theorem wp_freeMemory_space {user : Strings} {env : Nat → ReleaseEnv} (hp : s.procs p = some x.record)
    (h : x.Mapped base s.pool.mem) (hinv : PoolInv R.toRegion s.pool (x.frames ++ held) free) :
    wp (freeMemory R.toRegion user p env)
      (fun _ t => ∃ pool released, t = { s with pool := pool } ∧ released.Perm x.frames ∧
        PoolInv R.toRegion pool held (released ++ free) ∧ OnlyFrames x.frames s.pool.mem pool.mem)
      (fun _ => False) s := by
  have hinv0 : PoolInv R.toRegion s.pool (x.inOrder ++ held) free := hinv.perm (x.inOrder_perm.symm.append_right held)
  have hroot : x.root ≠ 0 := by
    have := Region.frame_bounds (hinv.mem_frames.2 x.root (by simp [Space.frames, Space.tables]))
    omega
  obtain ⟨hinv1, honly1, hsame⟩ := h.free_pages hinv0
  obtain ⟨hinv2, honly2⟩ := h.free_tables hinv1 hsame
  generalize hpages : List.foldl (freeFramesPageTable R.toRegion) s.pool _ = pool1 at hinv1 honly1 hsame hinv2 honly2
  generalize htables : freeFramesPageDirectory R.toRegion pool1 _ = pool2 at hinv2 honly2
  have hinv3 := PoolInv.release (PoolInv.release (PoolInv.release hinv2))
  have honly3 := onlyFrames_releaseFrame R.toRegion pool2 x.dir
  have honly4 := onlyFrames_releaseFrame R.toRegion (releaseFrame R.toRegion pool2 x.dir) x.root
  have honly5 := onlyFrames_releaseFrame R.toRegion (releaseFrame R.toRegion (releaseFrame R.toRegion pool2 x.dir) x.root)
    x.sscratch
  have hsub : ∀ f ∈ x.inOrder, f ∈ x.frames := fun f hf => x.inOrder_perm.subset hf
  have hnone : x.record.procSharedHashTable.isNone = true := rfl
  have hlvl2 : ¬ x.record.pageTableLevel2 = 0 := hroot
  have hlvl1 : x.record.pageTablesLvl1List = some (.ofPages x.dir x.ts x.heapTable x.fs.length) := rfl
  rw [freeMemory, wp_bind, freeSharedPages, wp_bind, wp_procMemory hp, if_pos hnone, wp_pure, wp_bind, freePageTables, wp_bind,
    wp_procMemory hp, if_neg hlvl2]
  simp only [hlvl1, wp_bind, wp_modify, wp_pure]
  refine ⟨releaseFrame R.toRegion (releaseFrame R.toRegion (releaseFrame R.toRegion pool2 x.dir) x.root) x.sscratch,
    x.inOrder.reverse, ?_, (List.reverse_perm _).trans x.inOrder_perm, ?_, ?_⟩
  · rw [← htables, ← hpages]
    rfl
  · have : x.inOrder.reverse ++ free =
        x.sscratch :: x.root :: x.dir :: (([x.heapTable].reverse ++ x.ts.reverse) ++ (([x.heap].reverse ++ x.fs.reverse) ++ free)) := by
      simp [Space.inOrder]
    rw [this]
    exact hinv3
  · refine ((((honly1.mono ?_).trans (honly2.mono ?_)).trans (honly3.mono ?_)).trans (honly4.mono ?_)).trans (honly5.mono ?_)
    all_goals
      intro f hf
      apply hsub
      simp only [Space.inOrder, List.mem_append, List.mem_cons, List.not_mem_nil, or_false] at hf ⊢
      tauto

end free

end Xinul
