import Xinul.Proofs.Confined
import Xinul.Runs.Accesses

/-!
# Where the frames are

Whatever processes come and go, with starts that succeed and starts that fail, the
frames of the region are divided: some are free, one is the page table of the kernel,
some are lost to starts that failed, and every other one belongs to one live process.
-/

namespace Xinul

open Bytes Prog

variable {R : Ram} {board : Board}

/-! ## The frames of the live processes -/

/-- The frames of some processes. -/
def housing (space : Ptr → Space) (live : List Ptr) : List Nat := live.flatMap fun p => (space p).frames

theorem housing_erase (space : Ptr → Space) {live : List Ptr} {p : Ptr} (hp : p ∈ live) :
    (housing space live).Perm ((space p).frames ++ housing space (live.erase p)) :=
  (List.perm_cons_erase hp).flatMap_right _

/-- A process that is not among them. -/
theorem housing_update (space : Ptr → Space) {live : List Ptr} {p : Ptr} (hp : p ∉ live) (x : Space) :
    housing (Function.update space p x) live = housing space live := by
  unfold housing
  apply List.flatMap_congr
  intro q hq
  rw [Function.update_of_ne]
  rintro rfl
  exact hp hq

/-- Where the frames are: `space p` is the address space of the live process `p`, and `lost`
are the frames of starts that failed. -/
structure Housed (R : Ram) (board : Board) (space : Ptr → Space) (lost free : List Nat) (s : Residents) : Prop where
  nodup : s.live.Nodup
  pool : PoolInv R.toRegion s.memory.pool (s.memory.kernelBasePageTable :: (lost ++ housing space s.live)) free
  kernel : KernelTable board s.memory.kernelBasePageTable s.memory.pool.mem
  record : ∀ p ∈ s.live, s.memory.procs p = some (space p).record
  mapped : ∀ p ∈ s.live, (space p).Mapped s.memory.kernelBasePageTable s.memory.pool.mem

variable {space : Ptr → Space} {lost free fs : List Nat} {s t : Residents} {p q : Ptr} {f g : Nat} {mem : Memory}

section housed

variable (h : Housed R board space lost free s)

theorem housing_held (hp : p ∈ s.live) (hf : f ∈ (space p).frames) :
    f ∈ s.memory.kernelBasePageTable :: (lost ++ housing space s.live) :=
  List.mem_cons_of_mem _ (List.mem_append_right _ (List.mem_flatMap.2 ⟨p, hp, hf⟩))

include h

theorem Housed.mem_frames (hp : p ∈ s.live) : ∀ f ∈ (space p).frames, f ∈ R.toRegion.frames :=
  fun _ hf => h.pool.mem_frames.2 _ (housing_held hp hf)

theorem Housed.nodup_housing : (housing space s.live).Nodup := by
  have hnd := (List.nodup_append.1 h.pool.nodup).2.1
  exact (List.nodup_append.1 (List.nodup_cons.1 hnd).2).2.1

/-- No frame of a process is the table of the kernel. -/
theorem Housed.ne_base (hp : p ∈ s.live) (hf : f ∈ (space p).frames) : f ≠ s.memory.kernelBasePageTable := by
  have hnd := (List.nodup_append.1 h.pool.nodup).2.1
  rintro rfl
  apply (List.nodup_cons.1 hnd).1
  exact List.mem_append_right _ (List.mem_flatMap.2 ⟨p, hp, hf⟩)

/-- The frames of a process are distinct. -/
theorem Housed.nodup_frames (hp : p ∈ s.live) : (space p).frames.Nodup :=
  (List.nodup_flatMap.1 h.nodup_housing).1 p hp

/-- Two processes have no frame in common. -/
theorem Housed.disjoint (hp : p ∈ s.live) (hq : q ∈ s.live) (hne : p ≠ q) (hf : f ∈ (space p).frames)
    (hg : g ∈ (space q).frames) : f ≠ g := by
  have hnd := (housing_erase space hp).nodup_iff.1 h.nodup_housing
  have hq' : q ∈ s.live.erase p := (List.mem_erase_of_ne hne.symm).2 hq
  exact (List.nodup_append.1 hnd).2.2 f hf g (List.mem_flatMap.2 ⟨q, hq', hg⟩)

/-- What the program and the traps write is no table. -/
theorem Housed.not_table (hp : p ∈ s.live) (hf : f ∈ (space p).sscratch :: (space p).pages) (hq : q ∈ s.live) :
    f ∉ (space q).tables := by
  have hmem : f ∈ (space p).frames := by
    simp only [Space.frames, List.mem_cons, List.mem_append] at hf ⊢
    tauto
  intro hg
  by_cases hne : p = q
  · subst hne
    have hnd := h.nodup_frames hp
    have hsplit : (space p).frames = ((space p).sscratch :: (space p).pages) ++ (space p).tables := rfl
    rw [hsplit, List.nodup_append] at hnd
    exact hnd.2.2 f hf f hg rfl
  · apply h.disjoint hp hq hne hmem _ rfl
    simp [Space.frames, hg]

/-- Writes into free frames and into frames that are no table leave the tables. -/
theorem Housed.tables_kept (live : List Ptr) (hlive : live ⊆ s.live) (hmem : OnlyFrames fs s.memory.pool.mem mem)
    (hfs : ∀ f ∈ fs, f ∈ free ∨ f ∈ s.memory.kernelBasePageTable :: (lost ++ housing space s.live) ∧
      f ≠ s.memory.kernelBasePageTable ∧ ∀ q ∈ live, f ∉ (space q).tables) :
    KernelTable board s.memory.kernelBasePageTable mem ∧ ∀ p ∈ live, (space p).Mapped s.memory.kernelBasePageTable mem := by
  have hkept : ∀ t, t = s.memory.kernelBasePageTable ∨ (∃ p ∈ live, t ∈ (space p).tables) → ∀ i < ptSize,
      pteAt mem t i = pteAt s.memory.pool.mem t i := by
    intro t ht i hi
    have hheld : t ∈ s.memory.kernelBasePageTable :: (lost ++ housing space s.live) := by
      obtain rfl | ⟨p, hp, ht⟩ := ht
      · exact List.mem_cons_self
      · exact housing_held (hlive hp) (by simp [Space.frames, ht])
    refine hmem.pteAt (fun f hf => ?_) hi
    obtain hfree | ⟨hf, hbase, htables⟩ := hfs f hf
    · exact (h.pool.apart hfree hheld).symm
    · refine h.pool.apart_held hheld hf ?_
      rintro rfl
      obtain rfl | ⟨p, hp, ht⟩ := ht
      · exact hbase rfl
      · exact htables p hp ht
  constructor
  · intro i hi
    rw [hkept _ (.inl rfl) i hi, h.kernel i hi]
  · intro p hp
    refine (h.mapped p (hlive hp)).congr fun t ht i hi => hkept t ?_ i hi
    obtain rfl | ht := List.mem_cons.1 ht
    · exact .inl rfl
    · exact .inr ⟨p, hp, ht⟩

end housed

/-! ## The steps -/

section steps

variable {m : MemoryState} {app : App R.toRegion} {size : Nat} {env : NodesEnv} {contextOk : Bool}

/-- What a start put into the pages: `mem` is the memory before it. -/
structure Space.Filled (x : Space) (app : App R.toRegion) (size : Nat) (mem mem' : Memory) : Prop where
  length : x.fs.length = pagesOf app.codeSize + pagesOf size
  byte : ∀ k f, x.fs[k]? = some f → ∀ o < frameSize,
    mem' (f + o) = ((Writing.init (some app.start) app.codeSize).after k).filling.byte mem f o
  heapByte : ∀ o < frameSize, mem' (x.heap + o) = 0

/-- A start that succeeds: a process more, with frames that were free. -/
theorem Housed.started (h : Housed R board space lost free s) (fresh : p ∉ s.live)
    (run : startMemory p app size env contextOk s.memory = .ok (0, m)) :
    ∃ x free', x.Filled app size s.memory.pool.mem m.pool.mem ∧ (∀ f ∈ x.frames, f ∈ free) ∧
      OnlyFrames x.frames s.memory.pool.mem m.pool.mem ∧
      Housed R board (Function.update space p x) lost free' ⟨m, p :: s.live⟩ := by
  have hbase : ∀ f ∈ free, ApartFrames s.memory.kernelBasePageTable f := fun f hf =>
    (h.pool.apart hf List.mem_cons_self).symm
  obtain ⟨hv, -⟩ | ⟨-, -, u, root, dir, ts, heapTable, fs, heap, sscratch, free', hstarted⟩ :=
    wp_ok (wp_startMemory app size env contextOk h.pool) run
  · cases hv
  obtain hv | ⟨-, hkernel⟩ := wp_ok (wp_startMemory_kernel app size env contextOk h.pool hbase) run
  · cases hv
  obtain ⟨hprocs, hmapped, hperm, hpool, honly, hstate⟩ := hstarted.space hkernel hbase
  generalize hx : app.space root dir ts heapTable fs heap sscratch = x at hprocs hmapped hperm hpool honly
  have hsame : m.kernelBasePageTable = s.memory.kernelBasePageTable := by rw [hstate]
  have hfree : ∀ f ∈ x.frames, f ∈ free := fun f hf => hperm.mem_iff.2 (List.mem_append_left _ hf)
  obtain ⟨hk, hm⟩ := h.tables_kept s.live (fun _ hq => hq) honly fun f hf => .inl (hfree f hf)
  refine ⟨x, free', ?_, hfree, honly, ?_⟩
  · have hbuilt := hstarted.allocated.built
    rw [← hx]
    constructor
    · exact hbuilt.length
    · rw [hstarted.mem]
      exact hbuilt.byte
    · rw [hstarted.mem]
      exact hbuilt.heapByte
  constructor
  · exact List.nodup_cons.2 ⟨fresh, h.nodup⟩
  · refine hpool.perm ?_
    show (x.frames ++ s.memory.kernelBasePageTable :: (lost ++ housing space s.live)).Perm
      (m.kernelBasePageTable :: (lost ++ housing (Function.update space p x) (p :: s.live)))
    have hcons : housing (Function.update space p x) (p :: s.live) = x.frames ++ housing space s.live := by
      unfold housing
      rw [List.flatMap_cons, Function.update_self]
      exact congrArg _ (housing_update space fresh x)
    rw [hsame, hcons, List.perm_iff_count]
    intro a
    simp only [List.count_append, List.count_cons]
    omega
  · rw [hsame]
    exact hk
  · intro q hq
    show m.procs q = _
    rw [hprocs]
    obtain rfl | hq' := List.mem_cons.1 hq
    · rw [Function.update_self, Function.update_self]
    · have hne : q ≠ p := by
        rintro rfl
        exact fresh hq'
      rw [Function.update_of_ne hne, Function.update_of_ne hne, h.record q hq']
  · intro q hq
    show (Function.update space p x q).Mapped m.kernelBasePageTable m.pool.mem
    rw [hsame]
    obtain rfl | hq' := List.mem_cons.1 hq
    · rw [Function.update_self]
      exact hmapped
    · rw [Function.update_of_ne]
      · exact hm q hq'
      · rintro rfl
        exact fresh hq'

/-- A start that fails: what it took is lost. -/
theorem Housed.refused {v : Int} (h : Housed R board space lost free s) (fresh : p ∉ s.live)
    (run : startMemory p app size env contextOk s.memory = .ok (v, m)) :
    ∃ taken free', (∀ f ∈ taken, f ∈ free) ∧ OnlyFrames taken s.memory.pool.mem m.pool.mem ∧
      Housed R board space (taken ++ lost) free' ⟨m, s.live⟩ := by
  obtain ⟨taken, hconf⟩ := wp_ok (wp_startMemory_confined app size env contextOk h.pool) run
  obtain ⟨free', hperm, hpool⟩ := hconf.pool
  have hstate := hconf.state
  have hsame : m.kernelBasePageTable = s.memory.kernelBasePageTable := by rw [hstate]
  have hfree : ∀ f ∈ taken, f ∈ free := fun f hf => hperm.mem_iff.2 (List.mem_append_left _ hf)
  obtain ⟨hk, hm⟩ := h.tables_kept s.live (fun _ hq => hq) hconf.only fun f hf => .inl (hfree f hf)
  refine ⟨taken, free', hfree, hconf.only, ?_⟩
  constructor
  · exact h.nodup
  · refine hpool.perm ?_
    show (taken ++ s.memory.kernelBasePageTable :: (lost ++ housing space s.live)).Perm
      (m.kernelBasePageTable :: ((taken ++ lost) ++ housing space s.live))
    rw [hsame, List.append_assoc]
    exact List.perm_middle
  · rw [hsame]
    exact hk
  · intro q hq
    have hne : q ≠ p := by
      rintro rfl
      exact fresh hq
    exact (hconf.others q hne).trans (h.record q hq)
  · intro q hq
    show (space q).Mapped m.kernelBasePageTable m.pool.mem
    rw [hsame]
    exact hm q hq

/-- The frames of a process apart from the other ones held. -/
theorem Housed.pool_erase (h : Housed R board space lost free s) (hp : p ∈ s.live) : PoolInv R.toRegion s.memory.pool
    ((space p).frames ++ s.memory.kernelBasePageTable :: (lost ++ housing space (s.live.erase p))) free := by
  refine h.pool.perm ?_
  rw [List.perm_iff_count]
  intro a
  have := (housing_erase space hp).count_eq a
  simp only [List.count_append, List.count_cons] at this ⊢
  omega

/-- A process is freed: its frames are free again. -/
theorem Housed.freed {user : Strings} {release : Nat → ReleaseEnv} {calls : List FreeCall}
    (h : Housed R board space lost free s) (hp : p ∈ s.live)
    (run : freeMemory R.toRegion user p release s.memory = .ok (calls, m)) :
    ∃ free', OnlyFrames (space p).frames s.memory.pool.mem m.pool.mem ∧
      Housed R board space lost free' ⟨m, s.live.erase p⟩ := by
  obtain ⟨pool, released, rfl, hreleased, hpool', honly⟩ :=
    wp_ok (wp_freeMemory_space (h.record p hp) (h.mapped p hp) (h.pool_erase hp)) run
  obtain ⟨hk, hm⟩ := h.tables_kept (s.live.erase p) List.erase_subset honly fun f hf => by
    refine .inr ⟨housing_held hp hf, h.ne_base hp hf, fun q hq hg => ?_⟩
    have hne : p ≠ q := by
      rintro rfl
      exact h.nodup.not_mem_erase hq
    exact h.disjoint hp (List.mem_of_mem_erase hq) hne hf (by simp [Space.frames, hg]) rfl
  refine ⟨released ++ free, honly, ?_⟩
  constructor
  · exact h.nodup.erase p
  · exact hpool'
  · exact hk
  · exact fun q hq => h.record q (List.mem_of_mem_erase hq)
  · exact hm

/-- The program writes a page, or a trap the interrupt frame. -/
theorem Housed.written (h : Housed R board space lost free s) (hp : p ∈ s.live) (hf : f ∈ (space p).sscratch :: (space p).pages)
    (hmem : OnlyFrames [f] s.memory.pool.mem mem) : Housed R board space lost free { s with memory := s.memory.setMem mem } := by
  have hmem' : f ∈ (space p).frames := by
    simp only [Space.frames, List.mem_cons, List.mem_append] at hf ⊢
    tauto
  obtain ⟨hk, hm⟩ := h.tables_kept s.live (fun _ hq => hq) hmem fun g hg => by
    rw [List.mem_singleton.1 hg]
    exact .inr ⟨housing_held hp hmem', h.ne_base hp hmem', fun q hq => h.not_table hp hf hq⟩
  constructor
  · exact h.nodup
  · exact h.pool.write [f] (by simpa using housing_held hp hmem') hmem
  · exact hk
  · exact h.record
  · exact hm

end steps

/-! ## The beginning -/

/-- `set_up_virtual_memory` takes a frame for the table of the kernel. -/
theorem setUpVirtualMemory_spec {r : Region} {pool pool' : FramePool} {vm : VirtualMemory} (hinv : PoolInv r pool [] free)
    (run : setUpVirtualMemory board pool = (vm, pool')) (answer : vm.answer = 0) :
    ∃ free', PoolInv r pool' [vm.kernelBasePageTable] free' ∧ KernelTable board vm.kernelBasePageTable pool'.mem := by
  unfold setUpVirtualMemory initDirectory createPageTable at run
  obtain ⟨-, e⟩ | ⟨f, free', rfl, he, -, hinv'⟩ := hinv.getFrame
  · rw [e] at run
    cases run
    cases answer
  · have hpos := (Region.frame_bounds (hinv.mem_frames.1 f (by simp))).2.2.2.1
    have hne : f ≠ 0 := by omega
    generalize hget : getFrame pool = taken at run he hinv'
    obtain ⟨f', pool1⟩ := taken
    obtain rfl : f' = f := he
    simp only [if_neg hne] at run
    cases run
    have hzero := hinv'.write [f'] (by simp) (onlyFrames_memset 0)
    have hblank : ∀ i < ptSize, pteAt (memset pool1.mem f' 0 frameSize) f' i = .ofWord 0 := fun i hi => pteAt_memset_zero hi
    exact ⟨free', hzero.write [f'] (by simp) (Board.directory_only f'), Board.directory_table hblank⟩

theorem MemoryBoot.housed (h : MemoryBoot R board s) (space : Ptr → Space) : ∃ free, Housed R board space [] free s := by
  obtain ⟨mem, pool, vm, hinit, hset, hanswer, hbase⟩ := h.memory
  obtain ⟨pool', he, hinv⟩ := initFrames_spec R.toRegion mem
  rw [hinit] at he
  cases he
  obtain ⟨free, hpool, hkernel⟩ := setUpVirtualMemory_spec hinv hset hanswer
  rw [← hbase] at hpool hkernel
  refine ⟨free, ?_⟩
  constructor
  · rw [h.live]
    exact List.nodup_nil
  · rw [h.live]
    exact hpool
  · exact hkernel
  · simp [h.live]
  · simp [h.live]

/-! ## What is left for a start -/

/-- The frames a process holds, from the number of its pages of code and stack. -/
def footprint (n : Nat) : Nat := n + tablesOf n + 5

/-- The frames the live processes hold. -/
def Residents.used (s : Residents) : Nat :=
  (s.live.map fun p => ((s.memory.procs p).map fun m => footprint m.stackShift).getD 0).sum

/-- What a start needs apart from frames. -/
structure Suits (app : App R.toRegion) (size : Nat) (env : NodesEnv) (contextOk : Bool) : Prop where
  bounded : size ≤ gigapageSize
  tables : tablesOf (pagesOf app.codeSize + pagesOf size) < stackFrameSize
  lvl1 : env.lvl1 = true
  child : ∀ i < tablesOf (pagesOf app.codeSize + pagesOf size) + 1, env.child i = true
  context : contextOk = true

theorem Space.Mapped.frames_length {x : Space} {base : Nat} (h : x.Mapped base mem) :
    x.frames.length = footprint x.fs.length := by
  have := h.fits.length
  unfold footprint frames pages tables
  simp only [List.length_cons, List.length_append]
  omega

/-- The frames of the processes, counted by their records. -/
theorem Housed.used (h : Housed R board space lost free s) : (housing space s.live).length = s.used := by
  have hfew : ∀ p ∈ s.live, (space p).fs.length < 2 ^ 16 := by
    intro p hp
    have h1 := h.pool.parts.length_eq
    have h2 := (housing_erase space hp).length_eq
    have h3 := (h.mapped p hp).frames_length
    have h4 := R.few
    rw [Region.lendable, List.length_map, List.length_range, List.length_append, List.length_cons, List.length_append] at h1
    rw [List.length_append] at h2
    unfold footprint at h3
    unfold Region.lent frameSize at *
    omega
  unfold housing Residents.used
  rw [List.length_flatMap]
  congr 1
  apply List.map_congr_left
  intro p hp
  rw [h.record p hp, (h.mapped p hp).frames_length, Option.map_some, Option.getD_some]
  congr 1
  exact (Nat.mod_eq_of_lt (hfew p hp)).symm

/-- The free frames, counted. -/
theorem Housed.free_length (h : Housed R board space [] free s) : free.length + 1 + s.used = R.lent := by
  have h1 := h.pool.parts.length_eq
  have h2 := h.used
  rw [Region.lendable, List.length_map, List.length_range, List.length_append, List.length_cons, List.nil_append] at h1
  omega

/-- When a start succeeds. -/
theorem Housed.starts_iff {app : App R.toRegion} {size : Nat} {env : NodesEnv} {contextOk : Bool}
    (h : Housed R board space lost free s) : (∃ m, startMemory p app size env contextOk s.memory = .ok (0, m)) ↔
      Suits app size env contextOk ∧ footprint (pagesOf app.codeSize + pagesOf size) ≤ free.length := by
  obtain ⟨v, m, run, hpost⟩ := wp_returns (wp_startMemory (p := p) app size env contextOk h.pool)
  unfold footprint
  constructor
  · rintro ⟨m', run'⟩
    rw [run] at run'
    cases run'
    obtain ⟨hv, -⟩ | ⟨-, ⟨henough, hcontext, hframes⟩, -⟩ := hpost
    · cases hv
    · exact ⟨⟨henough.size, henough.tables, henough.lvl1, henough.child, hcontext⟩, by omega⟩
  · rintro ⟨hsuits, hframes⟩
    obtain ⟨-, hno⟩ | ⟨rfl, -⟩ := hpost
    · obtain hno | hno | hno := hno
      · exact absurd ⟨hsuits.bounded, hsuits.lvl1, hsuits.child, hsuits.tables, by omega⟩ hno
      · rw [hsuits.context] at hno
        cases hno
      · omega
    · exact ⟨m, run⟩

end Xinul
