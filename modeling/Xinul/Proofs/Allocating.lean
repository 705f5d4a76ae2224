import Xinul.Proofs.Reserving

/-!
# The memory that `process_memory_allocator` builds

The pages reserved are given frames in the order of their addresses, and nothing
else of the user space is mapped.
-/

namespace Xinul

open Bytes Prog

variable {r : Region} {held free free' fs ts : List Nat} {dir start n : Nat} {w : Writing} {s t : MemoryState}

/-! ## One region -/

/-- What is held and no table of these pages stays. -/
theorem PagesFilled.apart (h : PagesFilled r dir start ts n w held free fs free' s t) (hinv : PoolInv r s.pool held free)
    (ht : Tables held dir start ts) {x : Nat} (hx : x ∈ held) (hdir : x ≠ dir) (hts : x ∉ ts) :
    ∀ g ∈ dir :: (ts ++ fs), ApartFrames x g := by
  intro g hg
  obtain rfl | hg := List.mem_cons.1 hg
  · exact hinv.apart_held hx ht.root hdir
  obtain hg | hg := List.mem_append.1 hg
  · apply hinv.apart_held hx (ht.tables g hg)
    rintro rfl
    exact hts hg
  · exact (hinv.apart (h.mem_free g hg) hx).symm

/-- The outer loop does not look behind the nodes it needs. -/
theorem allocateTables_append (k : Nat) (nodes after : List PageTableNode) (hk : nodes.length = k) :
    ∀ (index : Nat) (w : Writing), allocateTables dir k index (nodes ++ after) w = allocateTables dir k index nodes w := by
  subst hk
  induction nodes with
  | nil => exact fun _ _ => rfl
  | cons node nodes ih =>
    intro index w
    simp only [List.cons_append, List.length_cons, allocateTables, ih]

/-- The search for the first table of a region. -/
theorem dropWhile_nodes {before after : List PageTableNode} (hbefore : ∀ node ∈ before, node.index ≠ start) (hts : ts ≠ []) :
    (before ++ (nodesOf start ts n ++ after)).dropWhile (fun node => node.index ≠ start) = nodesOf start ts n ++ after := by
  rw [List.dropWhile_append_of_pos fun node hnode => by simpa using hbefore node hnode]
  cases ts with
  | nil => exact absurd rfl hts
  | cons table ts => simp [nodesOf]

/-- `writing_data`, `data_pointer` and `data_left` at the start of `allocate_memory_final`. -/
def Writing.init (data : Option Nat) (dataSize : Int) : Writing :=
  match data with
  | some a => if dataSize ≠ 0 then ⟨true, a, dataSize⟩ else ⟨false, 0, 0⟩
  | none => ⟨false, 0, 0⟩

/-- `allocate_memory_final` for a region of the directory. -/
theorem wp_allocateMemoryFinal {p : Ptr} {m : ProcessMemory} {d : PageDirectory} {data : Option Nat}
    {dataSize : Int} {stop : Nat} (before after : List PageTableNode) (hp : s.procs p = some m) (hd : m.pageTablesLvl1List = some d)
    (hchildren : d.children = before ++ (nodesOf start ts n ++ after)) (hbefore : ∀ node ∈ before, node.index ≠ start)
    (hts : ts ≠ []) (hstop : stop = start + ts.length) (hinv : PoolInv r s.pool held free)
    (ht : Tables held d.table start ts) (hn : n ≤ ptSize * ts.length) (hw : (Writing.init data dataSize).Below r) :
    wp (allocateMemoryFinal p start stop data dataSize)
      (fun v t => v = -1 ∧ free.length < n ∨
        v = 0 ∧ ∃ fs free', PagesFilled r d.table start ts n (Writing.init data dataSize) held free fs free' s t)
      (fun _ => False) s := by
  have hloop := wp_allocateTables ts start n (Writing.init data dataSize) held free s hinv ht hn hw
  rw [← allocateTables_append ts.length (nodesOf start ts n) after (nodesOf_length n)] at hloop
  have hlen : stop - start = ts.length := by omega
  unfold allocateMemoryFinal
  rw [wp_bind, wp_procMemory hp]
  simp only [hd, hchildren, dropWhile_nodes hbefore hts, hlen]
  have hne : nodesOf start ts n ++ after ≠ [] := by
    cases ts with
    | nil => exact absurd rfl hts
    | cons table ts => simp [nodesOf]
  split
  next hnil => exact absurd hnil hne
  next =>
    refine wp_mono hloop (fun v t _ hv => ?_) fun _ _ h => h
    obtain ⟨hshort, rfl⟩ | ⟨fs, free', rfl, hfilled⟩ := hv
    · exact .inl ⟨rfl, hshort⟩
    · exact .inr ⟨rfl, fs, free', hfilled⟩

/-! ## The whole user space -/

/-- The tables of a process before its pages have frames: empty but for the entry
of the user space. -/
structure Reserved (r : Region) (root dir : Nat) (ts : List Nat) (heapTable n : Nat) (held free : List Nat) (s : MemoryState) :
    Prop where
  pool : PoolInv r s.pool held free
  fits : Fits ts n
  room : ts.length ≤ stackFrameSize
  tables : ∀ x ∈ root :: dir :: heapTable :: ts, x ∈ held
  nodup : (root :: dir :: heapTable :: ts).Nodup
  user : ∃ e, pteAt s.pool.mem root userspace = configurePageEntry e dir false false false true .kilo
  blank : ∀ x ∈ dir :: heapTable :: ts, ∀ i < ptSize, pteAt s.pool.mem x i = .ofWord 0

/-- The tables of a process whose `n` pages of code and stack and whose page of heap
have frames; `mem` is the memory before they had. -/
structure Built (root dir : Nat) (ts : List Nat) (heapTable : Nat) (fs : List Nat) (heap n : Nat) (w : Writing)
    (mem mem' : Memory) : Prop where
  fits : Fits ts n
  room : ts.length ≤ stackFrameSize
  length : fs.length = n
  user : ∃ e, pteAt mem' root userspace = configurePageEntry e dir false false false true .kilo
  linked : ∀ i table, ts[i]? = some table →
    pteAt mem' dir i = configurePageEntry (.ofWord 0) table false false false true .kilo
  heapLinked : pteAt mem' dir PageType.heap.start = configurePageEntry (.ofWord 0) heapTable false false false true .kilo
  unlinked : ∀ i < ptSize, ts.length ≤ i → i ≠ PageType.heap.start → pteAt mem' dir i = .ofWord 0
  page : ∀ k table f, ts[k / ptSize]? = some table → fs[k]? = some f →
    pteAt mem' table (k % ptSize) = configurePageEntry (.ofWord 0) f true true (w.after (k + 1)).writingData true .kilo
  noPage : ∀ i table, ts[i]? = some table → ∀ j < ptSize, n ≤ ptSize * i + j → pteAt mem' table j = .ofWord 0
  heapPage : pteAt mem' heapTable 0 = configurePageEntry (.ofWord 0) heap true true false true .kilo
  noHeapPage : ∀ j < ptSize, j ≠ 0 → pteAt mem' heapTable j = .ofWord 0
  byte : ∀ k f, fs[k]? = some f → ∀ o < frameSize, mem' (f + o) = (w.after k).filling.byte mem f o
  heapByte : ∀ o < frameSize, mem' (heap + o) = 0

variable {root heapTable heap : Nat} {free'' : List Nat} {u : MemoryState}

theorem Reserved.stackTables (h : Reserved r root dir ts heapTable n held free s) : Tables held dir 0 ts where
  root := h.tables dir (by simp)
  tables t ht := h.tables t (by simp [ht])
  nodup := by
    have := h.nodup
    simp only [List.nodup_cons, List.mem_cons, not_or] at this ⊢
    exact ⟨this.2.1.2, this.2.2.2⟩
  room := by
    have := h.room
    unfold stackFrameSize ptSize at *
    omega

theorem Reserved.heapTables (h : Reserved r root dir ts heapTable n held free s) (fs : List Nat) :
    Tables (fs ++ held) dir PageType.heap.start [heapTable] where
  root := List.mem_append_right _ (h.tables dir (by simp))
  tables t ht := by
    rw [List.mem_singleton.1 ht]
    exact List.mem_append_right _ (h.tables heapTable (by simp))
  nodup := by
    have := h.nodup
    simp only [List.nodup_cons, List.mem_cons, not_or] at this
    simp [this.2.1.1]
  room := by
    show 128 + 1 ≤ 512
    omega

/-- The two calls of `allocate_memory_final`. -/
theorem Reserved.fill (h : Reserved r root dir ts heapTable n held free s)
    (hstack : PagesFilled r dir 0 ts n w held free fs free' s t)
    (hheap : PagesFilled r dir PageType.heap.start [heapTable] 1 (Writing.init none 0) (fs.reverse ++ held) free' [heap] free'' t u) :
    Built root dir ts heapTable fs heap n w s.pool.mem u.pool.mem := by
  have hnd := h.nodup
  simp only [List.nodup_cons, List.mem_cons, not_or] at hnd
  obtain ⟨⟨hrd, hrh, hrt⟩, ⟨hdh, hdt⟩, hht, htnd⟩ := hnd
  have hroom := h.room
  have hsize : (128 : Nat) < ptSize := by decide
  have hstart : PageType.heap.start = 128 := rfl
  unfold stackFrameSize at hroom
  have hin : ∀ {x}, x ∈ root :: dir :: heapTable :: ts → x ∈ fs.reverse ++ held :=
    fun hx => List.mem_append_right _ (h.tables _ hx)
  -- the heap's table is not written by the first call, nor the other tables by the second
  have hbefore : ∀ i < ptSize, pteAt t.pool.mem heapTable i = .ofWord 0 := by
    intro i hi
    rw [← h.blank heapTable (by simp) i hi]
    exact hstack.only.pteAt (hstack.apart h.pool h.stackTables (h.tables _ (by simp)) (Ne.symm hdh) hht) hi
  have hafter : ∀ x ∈ root :: ts, ∀ i < ptSize, pteAt u.pool.mem x i = pteAt t.pool.mem x i := by
    intro x hx i hi
    have hmem : x ∈ root :: dir :: heapTable :: ts := by
      simp only [List.mem_cons] at hx ⊢
      tauto
    refine hheap.only.pteAt (hheap.apart hstack.pool (h.heapTables fs.reverse) (hin hmem) ?_ ?_) hi
    · obtain rfl | hx := List.mem_cons.1 hx
      · exact hrd
      · rintro rfl
        exact hdt hx
    · rw [List.mem_singleton]
      obtain rfl | hx := List.mem_cons.1 hx
      · exact hrh
      · rintro rfl
        exact hht hx
  have htable : ∀ {i table}, ts[i]? = some table → table ∈ ts := fun hi => List.mem_of_getElem? hi
  have hdirs : ∀ i < ptSize, i ≠ 128 → pteAt u.pool.mem dir i = pteAt t.pool.mem dir i := by
    intro i hi hne
    exact hheap.unlinked i hi (by rw [List.length_singleton, hstart]; omega)
  have hdirBlank : ∀ i < ptSize, ts.length ≤ i → pteAt t.pool.mem dir i = .ofWord 0 := by
    intro i hi hout
    rw [hstack.unlinked i hi (.inr (by omega))]
    exact h.blank dir (by simp) i hi
  refine ⟨h.fits, h.room, hstack.length, ?_, ?_, ?_, ?_, ?_, ?_, ?_, ?_, ?_, ?_⟩
  · obtain ⟨e, he⟩ := h.user
    refine ⟨e, ?_⟩
    rw [hafter root (by simp) userspace (by decide), ← he]
    exact hstack.only.pteAt (hstack.apart h.pool h.stackTables (h.tables _ (by simp)) hrd hrt) (by decide)
  · intro i table hi
    have hlt := (List.getElem?_eq_some_iff.1 hi).1
    have := hstack.linked i table hi
    rw [Nat.zero_add] at this
    rw [hdirs i (by omega) (by omega), this, h.blank dir (by simp) i (by omega)]
  · have := hheap.linked 0 heapTable rfl
    rw [Nat.add_zero, hstart, hdirBlank 128 hsize hroom] at this
    exact this
  · intro i hi hout hne
    rw [hdirs i hi hne]
    exact hdirBlank i hi hout
  · intro k table f hk hf
    have hmod : k % ptSize < ptSize := Nat.mod_lt _ (by decide)
    rw [hafter table (by simp [htable hk]) _ hmod, hstack.entry k table f hk hf, h.blank table (by simp [htable hk]) _ hmod]
  · intro i table hi j hj hout
    rw [hafter table (by simp [htable hi]) j hj, hstack.others i table hi j hj hout]
    exact h.blank table (by simp [htable hi]) j hj
  · have := hheap.entry 0 heapTable heap rfl rfl
    rw [hbefore _ (by decide)] at this
    exact this
  · intro j hj hne
    rw [hheap.others 0 heapTable rfl j hj (by omega)]
    exact hbefore j hj
  · intro k f hk o ho
    rw [← hstack.byte k f hk o ho]
    have hmem := List.mem_of_getElem? hk
    refine hheap.only.byte (fun g hg => ?_) ho
    simp only [List.mem_cons, List.mem_append, List.not_mem_nil, or_false] at hg
    obtain rfl | rfl | rfl := hg
    · exact h.pool.apart (hstack.mem_free f hmem) (h.tables _ (by simp))
    · exact h.pool.apart (hstack.mem_free f hmem) (h.tables _ (by simp))
    · exact (hstack.pool.apart (hheap.mem_free g (by simp)) (by simp [hmem])).symm
  · exact hheap.byte 0 heap rfl

/-- What is copied from a program lies below the free memory. -/
theorem App.init_below (app : App r) : (Writing.init (some app.start) app.codeSize).Below r := by
  unfold Writing.init
  split
  next a e =>
    cases e
    split
    next =>
      intro _ _
      have h1 := app.below
      have h2 := app.ordered
      unfold App.codeSize
      simp only
      omega
    next =>
      intro h
      cases h
  next => intro h; cases h

theorem Writing.init_none_below : (Writing.init none 0).Below r := by
  intro h
  cases h

/-- `process_frames_alloc`. -/
theorem wp_processFramesAlloc {p : Ptr} {m : ProcessMemory} {d : PageDirectory} (app : App r) (hp : s.procs p = some m)
    (hd : m.pageTablesLvl1List = some d) (hchildren : d.children = nodesOf 0 ts n ++ nodesOf PageType.heap.start [heapTable] 1)
    (hstack : d.stackUsage = ts.length) (hheap : d.heapUsage = 1) (hn : 0 < n)
    (h : Reserved r root d.table ts heapTable n held free s) :
    wp (processFramesAlloc p app)
      (fun v u => v = -1 ∧ free.length < n + 1 ∨ v = 0 ∧ ∃ fs heap free', free = fs ++ heap :: free' ∧ u = { s with pool := u.pool } ∧
        PoolInv r u.pool (heap :: (fs.reverse ++ held)) free' ∧
        OnlyFrames (d.table :: heapTable :: heap :: (ts ++ fs)) s.pool.mem u.pool.mem ∧
        Built root d.table ts heapTable fs heap n (Writing.init (some app.start) app.codeSize) s.pool.mem u.pool.mem)
      (fun _ => False) s := by
  have hts : ts ≠ [] := by
    rintro rfl
    have := h.fits.enough
    simp at this
    omega
  rw [processFramesAlloc, wp_bind, wp_procMemory hp]
  simp only [hd, wp_bind]
  refine wp_mono (wp_allocateMemoryFinal [] (nodesOf PageType.heap.start [heapTable] 1) hp hd hchildren
    (by simp) hts (by rw [hstack]) h.pool h.stackTables h.fits.enough app.init_below) (fun v t _ hv => ?_) fun _ _ h => h
  obtain ⟨rfl, hshort⟩ | ⟨rfl, fs, free', hfilled⟩ := hv
  · rw [if_pos (by decide), wp_pure]
    exact .inl ⟨rfl, by omega⟩
  rw [if_neg (by decide), wp_bind]
  have hp' : t.procs p = some m := by
    rw [hfilled.state]
    exact hp
  have hbefore : ∀ node ∈ nodesOf 0 ts n, node.index ≠ PageType.heap.start := by
    intro node hnode
    have h1 := nodesOf_index hnode
    have h2 := h.room
    simp only [PageType.start, stackFrameSize] at *
    omega
  refine wp_mono (wp_allocateMemoryFinal (nodesOf 0 ts n) [] hp' hd (by rw [hchildren, List.append_nil])
    hbefore (by simp) (by rw [hheap]; rfl) hfilled.pool (h.heapTables fs.reverse) (by show 1 ≤ 512 * 1; omega)
    Writing.init_none_below)
    (fun v u _ hv => ?_) fun _ _ h => h
  obtain ⟨rfl, hshort⟩ | ⟨rfl, hs, free'', hheapFilled⟩ := hv
  · rw [if_pos (by decide), wp_pure]
    have hlen := hfilled.length
    refine .inl ⟨rfl, ?_⟩
    rw [hfilled.taken, List.length_append]
    omega
  rw [if_neg (by decide), wp_pure]
  obtain ⟨heap, rfl⟩ := List.length_eq_one_iff.1 hheapFilled.length
  refine .inr ⟨rfl, fs, heap, free'', ?_, ?_, hheapFilled.pool, ?_, h.fill hfilled hheapFilled⟩
  · rw [hfilled.taken, hheapFilled.taken]
    rfl
  · rw [hheapFilled.state, hfilled.state]
  · refine (hfilled.only.mono fun g hg => ?_).trans (hheapFilled.only.mono fun g hg => ?_)
    all_goals
      simp only [List.mem_cons, List.mem_append, List.not_mem_nil, or_false] at hg ⊢
      tauto

/-! ## The allocator -/

/-- The level 1 node of a process with `n` pages of code and stack and one of heap. -/
def PageDirectory.ofPages (dir : Nat) (ts : List Nat) (heapTable n : Nat) : PageDirectory :=
  ⟨dir, nodesOf PageType.stackCode.start ts n ++ nodesOf PageType.heap.start [heapTable] 1, ts.length + 1, ts.length, 1, 0⟩

/-- The frames of a process that holds no shared page, in the order they were taken. -/
def takenFrames (root dir : Nat) (ts : List Nat) (heapTable : Nat) (fs : List Nat) (heap : Nat) : List Nat :=
  root :: dir :: (ts ++ heapTable :: (fs ++ [heap]))

/-- What `process_memory_allocator` leaves when it returns 0. -/
structure Allocated (app : App r) (p : Ptr) (m : ProcessMemory) (n : Nat) (held free : List Nat) (s t : MemoryState)
    (root dir : Nat) (ts : List Nat) (heapTable : Nat) (fs : List Nat) (heap : Nat) (free' : List Nat) : Prop where
  taken : free = takenFrames root dir ts heapTable fs heap ++ free'
  pool : PoolInv r t.pool ((takenFrames root dir ts heapTable fs heap).reverse ++ held) free'
  state : t = { s with pool := t.pool, procs := t.procs }
  procs : t.procs = Function.update s.procs p (some { m with
    pageTableLevel2 := root
    stackShift := n % 2 ^ 16
    pageTablesLvl1List := some (.ofPages dir ts heapTable n) })
  only : OnlyFrames (takenFrames root dir ts heapTable fs heap) s.pool.mem t.pool.mem
  built : Built root dir ts heapTable fs heap n (Writing.init (some app.start) app.codeSize) s.pool.mem t.pool.mem

/-- What the allocator needs to return 0. -/
structure Enough (env : NodesEnv) (size n : Nat) (free : List Nat) : Prop where
  size : size ≤ gigapageSize
  lvl1 : env.lvl1 = true
  child : ∀ i < tablesOf n + 1, env.child i = true
  tables : tablesOf n < stackFrameSize
  frames : tablesOf n + n + 4 ≤ free.length

theorem PageDirectory.ofPages_eq (dir : Nat) (ts : List Nat) (heapTable n : Nat) :
    (PageDirectory.reserve ⟨dir, [], 0, 0, 0, 0⟩ .stackCode ts n).reserve .heap [heapTable] 1 = .ofPages dir ts heapTable n := by
  simp [reserve, takes, ofPages]

/-- The bytes that the pages were filled with, in terms of a memory before the tables
were written. -/
theorem Built.of_only {mem mem' mem'' : Memory} {gs : List Nat} (h : Built root dir ts heapTable fs heap n w mem' mem'')
    (hmem : OnlyFrames gs mem mem') (hw : w.Below r) (hgs : ∀ g ∈ gs, g ∈ r.frames) (hfs : ∀ f ∈ fs, ∀ g ∈ gs, ApartFrames f g) :
    Built root dir ts heapTable fs heap n w mem mem'' := by
  refine { h with byte := ?_ }
  intro k f hk o ho
  rw [h.byte k f hk o ho]
  exact (hw.after k).byte_congr hmem hgs (hfs f (List.mem_of_getElem? hk)) ho

/-- The tables reserved. -/
theorem Reserving.reserved {p : Ptr} {m : ProcessMemory} (hinv : PoolInv r s.pool held free)
    (hstack : Reserving r p m ⟨dir, [], 0, 0, 0, 0⟩ .stackCode ts n held free free' s t)
    (hheap : Reserving r p m (PageDirectory.reserve ⟨dir, [], 0, 0, 0, 0⟩ .stackCode ts n) .heap [heapTable] 1
      (ts.reverse ++ held) free' free'' t u)
    (hroot : root ∈ held) (hdir : dir ∈ held) (hne : root ≠ dir)
    (huser : ∃ e, pteAt s.pool.mem root userspace = configurePageEntry e dir false false false true .kilo)
    (hblank : ∀ i < ptSize, pteAt s.pool.mem dir i = .ofWord 0) :
    Reserved r root dir ts heapTable n ([heapTable].reverse ++ (ts.reverse ++ held)) free'' u := by
  have hfree : free = ts ++ heapTable :: free'' := by
    rw [hstack.taken, hheap.taken]
    rfl
  have hnd := hinv.nodup
  rw [hfree] at hnd
  have hnew : ∀ x ∈ held, ∀ g ∈ ts ++ [heapTable], ApartFrames x g := by
    intro x hx g hg
    refine (hinv.apart ?_ hx).symm
    rw [hfree]
    simp only [List.mem_append, List.mem_cons] at hg ⊢
    tauto
  have honly : OnlyFrames (ts ++ [heapTable]) s.pool.mem u.pool.mem :=
    (hstack.only.mono (by simp)).trans (hheap.only.mono (by simp))
  refine ⟨hheap.pool, hstack.fits, ?_, ?_, ?_, ?_, ?_⟩
  · have := hstack.room
    simp only [PageType.start, PageType.stop, stackFrameSize] at *
    omega
  · intro x hx
    simp only [List.mem_cons] at hx
    obtain rfl | rfl | rfl | hx := hx
    · simp [hroot]
    · simp [hdir]
    · simp
    · simp [hx]
  · obtain ⟨htaken, -, hdisj⟩ := List.nodup_append.1 hnd
    obtain ⟨hts, -, hlast⟩ := List.nodup_append.1 htaken
    have hold : ∀ x ∈ held, x ≠ heapTable ∧ x ∉ ts := by
      intro x hx
      constructor
      · exact Ne.symm (hdisj heapTable (by simp) x hx)
      · exact fun hm => hdisj x (by simp [hm]) x hx rfl
    have hheapTable : heapTable ∉ ts := fun hm => hlast heapTable hm heapTable (by simp) rfl
    simp only [List.nodup_cons, List.mem_cons, not_or]
    exact ⟨⟨hne, hold root hroot⟩, hold dir hdir, hheapTable, hts⟩
  · obtain ⟨e, he⟩ := huser
    exact ⟨e, (honly.pteAt (hnew root hroot) (by decide)).trans he⟩
  · intro x hx i hi
    simp only [List.mem_cons] at hx
    obtain rfl | rfl | hx := hx
    · exact (honly.pteAt (hnew _ hdir) hi).trans (hblank i hi)
    · exact hheap.blank _ (by simp) i hi
    · rw [← hstack.blank x hx i hi]
      refine hheap.only.pteAt (fun g hg => ?_) hi
      refine (hstack.pool.apart ?_ (by simp [hx])).symm
      rw [hheap.taken]
      exact List.mem_append_left _ hg

/-- The part of the allocator after the directory is linked. -/
theorem wp_allocatePages {p : Ptr} {m : ProcessMemory} (app : App r) (size : Nat) (ok : Nat → Bool)
    (hinv : PoolInv r s.pool held free) (hp : s.procs p = some m) (hd : m.pageTablesLvl1List = some ⟨dir, [], 0, 0, 0, 0⟩)
    (hroot : root ∈ held) (hdir : dir ∈ held) (hne : root ≠ dir)
    (huser : ∃ e, pteAt s.pool.mem root userspace = configurePageEntry e dir false false false true .kilo)
    (hblank : ∀ i < ptSize, pteAt s.pool.mem dir i = .ofWord 0) :
    wp (do
        if (← addFramesProcess p app.codeSize 1 size ok) < 0 then pure (-1)
        else if (← processFramesAlloc p app) < 0 then pure (-1)
        else pure 0)
      (fun (v : Int) t => v = -1 ∧ (Scarce ok (pagesOf app.codeSize + pagesOf size) 1 free ∨
          free.length < tablesOf (pagesOf app.codeSize + pagesOf size) + (pagesOf app.codeSize + pagesOf size) + 2) ∨
        v = 0 ∧ ¬ Scarce ok (pagesOf app.codeSize + pagesOf size) 1 free ∧ ∃ ts heapTable fs heap free',
        free = ts ++ heapTable :: (fs ++ heap :: free') ∧ t = { s with pool := t.pool, procs := t.procs } ∧
        t.procs = Function.update s.procs p (some { m.shifted true (pagesOf app.codeSize + pagesOf size) with
          pageTablesLvl1List := some (.ofPages dir ts heapTable (pagesOf app.codeSize + pagesOf size)) }) ∧
        PoolInv r t.pool ((ts ++ heapTable :: (fs ++ [heap])).reverse ++ held) free' ∧
        OnlyFrames (dir :: (ts ++ heapTable :: (fs ++ [heap]))) s.pool.mem t.pool.mem ∧
        Built root dir ts heapTable fs heap (pagesOf app.codeSize + pagesOf size)
          (Writing.init (some app.start) app.codeSize) s.pool.mem t.pool.mem)
      (fun _ => False) s := by
  rw [wp_bind]
  refine wp_mono (wp_addFramesProcess hinv hp hd ok) (fun v u _ hv => ?_) fun _ _ h => h
  have hone : pagesOf 1 = 1 := by decide
  rw [hone] at hv
  obtain ⟨rfl, hscarce⟩ | ⟨rfl, hplenty, ts, hs, free1, free2, t, hstack, hheap⟩ := hv
  · rw [if_pos (by decide), wp_pure]
    exact .inl ⟨rfl, .inl hscarce⟩
  rw [if_neg (by decide), wp_bind]
  obtain ⟨heapTable, rfl⟩ : ∃ heapTable, hs = [heapTable] := by
    apply List.length_eq_one_iff.1
    have h1 := hheap.fits.enough
    have h2 := hheap.fits.tight
    unfold ptSize at h1 h2
    omega
  have hreserved := hstack.reserved hinv hheap hroot hdir hne huser hblank
  have hproc := hheap.proc
  rw [PageDirectory.ofPages_eq] at hproc
  refine wp_mono (wp_processFramesAlloc app hproc rfl rfl rfl rfl (by have := pagesOf_pos app.codeSize; omega) hreserved)
    (fun v w _ hv => ?_) fun _ _ h => h
  obtain ⟨rfl, hshort⟩ | ⟨rfl, fs, heap, free3, hfree, hstate, hpool, honly, hbuilt⟩ := hv
  · rw [if_pos (by decide), wp_pure]
    have hlen := hstack.fits.length
    refine .inl ⟨rfl, .inr ?_⟩
    rw [hstack.taken, hheap.taken, List.length_append, List.length_append, List.length_singleton]
    omega
  rw [if_neg (by decide), wp_pure]
  have htables : OnlyFrames (ts ++ [heapTable]) s.pool.mem u.pool.mem :=
    (hstack.only.mono (by simp)).trans (hheap.only.mono (by simp))
  refine .inr ⟨rfl, hplenty, ts, heapTable, fs, heap, free3, ?_, ?_, ?_, ?_, ?_, ?_⟩
  · rw [hstack.taken, hheap.taken, hfree]
    rfl
  · rw [hstate, hheap.state, hstack.state]
  · rw [hstate, hheap.procs, hstack.procs, Function.update_idem, PageDirectory.ofPages_eq]
  · have e : (ts ++ heapTable :: (fs ++ [heap])).reverse ++ held =
        heap :: (fs.reverse ++ ([heapTable].reverse ++ (ts.reverse ++ held))) := by simp
    rw [e]
    exact hpool
  · refine (htables.mono fun g hg => ?_).trans (honly.mono fun g hg => ?_)
    all_goals
      simp only [PageDirectory.ofPages, List.mem_cons, List.mem_append, List.not_mem_nil, or_false] at hg ⊢
      tauto
  · refine hbuilt.of_only htables app.init_below (fun g hg => ?_) fun f hf g hg => ?_
    · apply hheap.pool.mem_frames.2
      simp only [List.mem_cons, List.mem_append, List.not_mem_nil, or_false] at hg
      simp only [List.mem_append, List.mem_reverse, List.mem_singleton]
      tauto
    · refine hheap.pool.apart (by simp [hfree, hf]) ?_
      simp only [List.mem_cons, List.mem_append, List.not_mem_nil, or_false] at hg
      simp only [List.mem_append, List.mem_reverse, List.mem_singleton]
      tauto

/-- What it leaves, seen from the start of `process_memory_allocator`. -/
theorem wp_allocateLinked {p : Ptr} {m : ProcessMemory} (app : App r) (size : Nat) (hsize : size ≤ gigapageSize) (env : NodesEnv)
    (hinv : PoolInv r s.pool held (root :: dir :: free)) (hpool : PoolInv r t.pool (dir :: root :: held) free)
    (hstate : t = { s with pool := t.pool, procs := t.procs })
    (hprocs : t.procs = Function.update s.procs p (some { m with
      stackShift := 0
      pageTableLevel2 := root
      pageTablesLvl1List := if env.lvl1 then some ⟨dir, [], 0, 0, 0, 0⟩ else none }))
    (honly : OnlyFrames [root, dir] s.pool.mem t.pool.mem)
    (huser : ∃ e, pteAt t.pool.mem root userspace = configurePageEntry e dir false false false true .kilo)
    (hblank : ∀ i < ptSize, pteAt t.pool.mem dir i = .ofWord 0) :
    wp (do
        if (← addFramesProcess p app.codeSize 1 size env.child) < 0 then pure (-1)
        else if (← processFramesAlloc p app) < 0 then pure (-1)
        else pure 0 : MemoryM Int)
      (fun v u => v = -1 ∧ ¬ Enough env size (pagesOf app.codeSize + pagesOf size) (root :: dir :: free) ∨
        v = 0 ∧ Enough env size (pagesOf app.codeSize + pagesOf size) (root :: dir :: free) ∧ ∃ root' dir' ts heapTable fs heap free',
        Allocated app p m (pagesOf app.codeSize + pagesOf size) held (root :: dir :: free) s u root' dir' ts heapTable fs heap
          free')
      (fun _ => False) t := by
  have hne : dir ≠ root := by
    have := hinv.nodup
    simp only [List.cons_append, List.nodup_cons, List.mem_cons, not_or] at this
    exact Ne.symm this.1.1
  cases hnode : env.lvl1 with
  | false =>
    rw [hnode, if_neg (by decide)] at hprocs
    have hp := congrFun hprocs p
    rw [Function.update_self] at hp
    rw [wp_bind]
    refine wp_mono (wp_addFramesProcess_none hp rfl env.child) (fun v u _ hv => ?_) fun _ _ h => h
    rw [hv, if_pos (by decide), wp_pure]
    refine .inl ⟨rfl, fun h => ?_⟩
    rw [h.lvl1] at hnode
    cases hnode
  | true =>
    rw [hnode, if_pos rfl] at hprocs
    have hp := congrFun hprocs p
    rw [Function.update_self] at hp
    refine wp_mono (wp_allocatePages app size env.child hpool hp rfl (by simp) (by simp) hne.symm huser hblank)
      (fun v u _ hv => ?_) fun _ _ h => h
    have h3 : tablesOf 1 = 1 := by decide
    obtain ⟨rfl, hwhy⟩ | ⟨rfl, hplenty, ts, heapTable, fs, heap, free', hfree, hstate', hprocs', hpool', honly', hbuilt⟩ := hv
    · refine .inl ⟨rfl, fun h => ?_⟩
      have h1 := h.tables
      have h2 := h.frames
      simp only [List.length_cons] at h2
      obtain (⟨i, hi, hok⟩ | hshort | hlimit | hlimit) | hshort := hwhy
      · rw [h.child i (by omega)] at hok
        cases hok
      · omega
      · omega
      · rw [h3, heapFrameSize] at hlimit
        omega
      · omega
    have hframes : (root :: dir :: free).length = ts.length + fs.length + free'.length + 4 := by
      simp only [hfree, List.length_cons, List.length_append]
      omega
    have hfits := hbuilt.fits.length
    have hpages := hbuilt.length
    have henough : Enough env size (pagesOf app.codeSize + pagesOf size) (root :: dir :: free) := by
      simp only [Scarce, not_or, not_exists, not_and, Bool.not_eq_false, h3] at hplenty
      exact ⟨hsize, hnode, hplenty.1, by omega, by omega⟩
    refine .inr ⟨rfl, henough, root, dir, ts, heapTable, fs, heap, free', ?_, ?_, ?_, ?_, ?_, ?_⟩
    · simp [takenFrames, hfree]
    · have e : (takenFrames root dir ts heapTable fs heap).reverse ++ held =
          (ts ++ heapTable :: (fs ++ [heap])).reverse ++ dir :: root :: held := by simp [takenFrames]
      rw [e]
      exact hpool'
    · rw [hstate', hstate]
    · rw [hprocs', hprocs, Function.update_idem]
      simp only [ProcessMemory.shifted, if_true, Nat.zero_add]
    · refine (honly.mono fun g hg => ?_).trans (honly'.mono fun g hg => ?_)
      all_goals
        simp only [takenFrames, List.mem_cons, List.mem_append, List.not_mem_nil, or_false] at hg ⊢
        tauto
    · refine hbuilt.of_only honly app.init_below (fun g hg => ?_) fun f hf g hg => ?_
      · apply hpool.mem_frames.2
        simp only [List.mem_cons, List.not_mem_nil, or_false] at hg
        simp only [List.mem_cons]
        tauto
      · refine hpool.apart (by simp [hfree, hf]) ?_
        simp only [List.mem_cons, List.not_mem_nil, or_false] at hg
        simp only [List.mem_cons]
        tauto

-- the elaborator would run it on a symbolic memory
attribute [local irreducible] takePageTable takeFrame

/-- `process_memory_allocator`. -/
theorem wp_processMemoryAllocator {p : Ptr} {m : ProcessMemory} (app : App r) (size : Nat) (env : NodesEnv)
    (hinv : PoolInv r s.pool held free) (hp : s.procs p = some m) :
    wp (processMemoryAllocator p app size env)
      (fun v t => v = -1 ∧ ¬ Enough env size (pagesOf app.codeSize + pagesOf size) free ∨
        v = 0 ∧ Enough env size (pagesOf app.codeSize + pagesOf size) free ∧ ∃ root dir ts heapTable fs heap free',
        Allocated app p m (pagesOf app.codeSize + pagesOf size) held free s t root dir ts heapTable fs heap free')
      (fun _ => False) s := by
  unfold processMemoryAllocator
  split
  next hsize =>
    rw [wp_pure]
    exact .inl ⟨rfl, fun h => absurd h.size (Nat.not_le_of_gt hsize)⟩
  next hsize =>
  rw [wp_bind, wp_procMemory hp, wp_bind, wp_setProcMemory, wp_bind]
  refine @wp_takePageTable _ _ _ (s.setProc p _) hinv _ _ (fun hnil => ?_) fun root free1 pool1 hfree1 hroot hpool1 hmem1 _ => ?_
  · rw [if_pos rfl, wp_pure]
    refine .inl ⟨rfl, fun h => ?_⟩
    have := h.frames
    rw [hnil, List.length_nil] at this
    omega
  subst hfree1
  rw [if_neg hroot, wp_bind, wp_setProcMemory, wp_bind, wp_modify, wp_bind]
  have hcopy : OnlyFrames [root] pool1.mem (memcpy pool1.mem root s.kernelBasePageTable frameSize) := onlyFrames_memcpy _
  refine @wp_takePageTable _ _ _ (MemoryState.setMem (MemoryState.setProc { s.setProc p _ with pool := pool1 } p _) _)
    (hpool1.write [root] (by simp) hcopy) _ _ (fun hnil => ?_) fun dir free2 pool2 hfree2 hdir hpool2 hmem2 hblank2 => ?_
  · rw [if_pos rfl, wp_pure]
    refine .inl ⟨rfl, fun h => ?_⟩
    have := h.frames
    rw [hnil, List.length_singleton] at this
    omega
  subst hfree2
  rw [if_neg hdir, wp_bind, wp_setProcMemory, wp_bind, wp_modify]
  have hne : root ≠ dir := Ne.symm (hpool1.disjoint (by simp) (by simp))
  have hapart : ApartFrames dir root := hpool1.apart (by simp) (by simp)
  have hlink : OnlyFrames [root] pool2.mem (configurePte pool2.mem root userspace dir false false false true .kilo) :=
    onlyFrames_setPte (by decide)
  apply wp_allocateLinked app size (Nat.le_of_not_gt hsize) env hinv
  · exact hpool2.write [root] (by simp) hlink
  · rfl
  · simp only [MemoryState.setProc, MemoryState.setMem, Function.update_idem]
  · have h1 : OnlyFrames [root, dir] _ _ := hmem1.mono (by simp)
    have h2 : OnlyFrames [root, dir] _ _ := hcopy.mono (by simp)
    have h3 : OnlyFrames [root, dir] _ _ := hmem2.mono (by simp)
    exact ((h1.trans h2).trans h3).trans (hlink.mono (by simp))
  · exact ⟨_, pteAt_setPte_self⟩
  · intro i hi
    rw [← hblank2 i hi]
    exact hlink.pteAt (by simpa using hapart) hi

/-- What the part of `start_virtual` about memory leaves when it returns 0; `u` is the state
after `process_memory_allocator`. -/
structure Started (app : App r) (p : Ptr) (n : Nat) (held free : List Nat) (s u t : MemoryState)
    (root dir : Nat) (ts : List Nat) (heapTable : Nat) (fs : List Nat) (heap sscratch : Nat) (free' : List Nat) : Prop where
  allocated : Allocated app p .blank n held free (s.setProc p .blank) u root dir ts heapTable fs heap (sscratch :: free')
  pool : PoolInv r t.pool (sscratch :: ((takenFrames root dir ts heapTable fs heap).reverse ++ held)) free'
  mem : t.pool.mem = u.pool.mem
  state : t = { u with pool := t.pool, procs := t.procs }
  procs : t.procs = Function.update u.procs p (some { ProcessMemory.blank with
    pageTableLevel2 := root
    stackShift := n % 2 ^ 16
    pageTablesLvl1List := some (.ofPages dir ts heapTable n)
    sscratchFrame := sscratch })

/-- The part of `start_virtual` about memory. -/
theorem wp_startMemory {p : Ptr} (app : App r) (size : Nat) (env : NodesEnv) (contextOk : Bool)
    (hinv : PoolInv r s.pool held free) :
    wp (startMemory p app size env contextOk)
      (fun v t => v = -1 ∧ (¬ Enough env size (pagesOf app.codeSize + pagesOf size) free ∨ contextOk = false ∨
          free.length ≤ tablesOf (pagesOf app.codeSize + pagesOf size) + (pagesOf app.codeSize + pagesOf size) + 4) ∨
        v = 0 ∧ (Enough env size (pagesOf app.codeSize + pagesOf size) free ∧ contextOk = true ∧
          tablesOf (pagesOf app.codeSize + pagesOf size) + (pagesOf app.codeSize + pagesOf size) + 4 < free.length) ∧ ∃ u root dir ts heapTable fs heap sscratch free',
          Started app p (pagesOf app.codeSize + pagesOf size) held free s u t root dir ts heapTable fs heap sscratch free')
      (fun _ => False) s := by
  have hp : (s.setProc p .blank).procs p = some .blank := Function.update_self ..
  rw [startMemory, wp_bind, wp_setProcMemory, wp_bind]
  refine wp_mono (wp_processMemoryAllocator (s := s.setProc p .blank) app size env hinv hp) (fun v u _ hv => ?_) fun _ _ h => h
  obtain ⟨rfl, hnot⟩ | ⟨rfl, henough, root, dir, ts, heapTable, fs, heap, free', h⟩ := hv
  · rw [if_pos (by decide), wp_pure]
    exact .inl ⟨rfl, .inl hnot⟩
  rw [if_neg (by decide)]
  split
  next hcontext =>
    rw [wp_pure]
    exact .inl ⟨rfl, .inr (.inl hcontext)⟩
  next hcontext =>
  have h1 := congrArg List.length h.taken
  have h2 := h.built.length
  have h3 := h.built.fits.length
  simp only [takenFrames, List.length_append, List.length_cons, List.length_nil] at h1
  rw [wp_bind]
  apply wp_takeFrame h.pool
  · intro hnil
    rw [if_pos rfl, wp_pure]
    rw [hnil, List.length_nil] at h1
    exact .inl ⟨rfl, .inr (.inr (by omega))⟩
  intro sscratch free'' pool hfree hne hpool hmem
  subst hfree
  rw [List.length_cons] at h1
  have hroom : tablesOf (pagesOf app.codeSize + pagesOf size) + (pagesOf app.codeSize + pagesOf size) + 4 < free.length := by omega
  have hproc := congrFun h.procs p
  rw [Function.update_self] at hproc
  have hproc' : MemoryState.procs { u with pool := pool } p = some _ := hproc
  rw [if_neg hne, wp_bind, wp_procMemory hproc', wp_bind, wp_setProcMemory, wp_pure]
  exact .inr ⟨rfl, ⟨henough, by simpa using hcontext, hroom⟩, u, root, dir, ts, heapTable, fs, heap, sscratch, free'', h, hpool,
    hmem, rfl, rfl⟩

end Xinul
