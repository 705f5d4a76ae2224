import Xinul.Proofs.Releasing
import Xinul.Runs.UserPages
import Xinul.Runs.HashFailures

/-!
# What `free_process_memory` frees

The loop over `released_pages_list` frees the head as often as the list is long, and every
shared page that is still held leaves one more node there. So the lists may hold one
node together, and no more.
-/

namespace Xinul

open Prog

/-- `free` is called on a node of one of the lists. -/
def FreeCall.isNode : FreeCall → Bool
  | .releasedPage _ | .sharedPagesProc _ | .pageTableNode _ => true
  | _ => false

/-- `free` is called on a `shared_pages_proc_t`. -/
def FreeCall.isSharedPagesProc : FreeCall → Bool
  | .sharedPagesProc _ => true
  | _ => false

/-- The nodes of the level 0 tables. -/
def ProcessMemory.tableNodes (m : ProcessMemory) : List PageTableNode := (m.pageTablesLvl1List.map (·.children)).getD []

/-- A process with the record `m` is freed: `free` is called exactly once on each node of its
lists, where `m'` has the list of holes when it is taken down, and on no node twice. -/
structure FreedOnce (m m' : ProcessMemory) (freed : List FreeCall) : Prop where
  holes : ∀ i < m'.releasedPagesList.length, freed.count (.releasedPage i) = 1
  pages : ∀ page ∈ m.sharedPages.getD [], freed.count (.sharedPagesProc page.node) = 1
  tables : ∀ i < m.tableNodes.length, freed.count (.pageTableNode i) = 1
  once : ∀ f ∈ freed, f.isNode = true → freed.count f = 1

/-- `shm_release` of the page gets to its end: the tables know the page, and there is
memory for the hole and for the tables it asks for. -/
structure Releasable (user : Strings) (env : ReleaseEnv) (s : MemoryState) (m : ProcessMemory) (page : SharedPagesProc) :
    Prop where
  hole : env.hole = true
  found : ∃ a q, FoundPage user s m page.key a page ∧ s.pages a = some q ∧
    (q.usage = 1 → (hashDel lookupTurns (s.view user) env.sharedHeap s.sharedMemoryHashTable page.key).isSome)
  unbound : ∃ del table, hashDel lookupTurns (s.view user) env.procHeap m.procSharedHashTable page.key = some (del, table) ∧ 0 ≤ del

/-- The process has its tables, and at most one shared page or hole. -/
structure HoldsOne (user : Strings) (env : Nat → ReleaseEnv) (s : MemoryState) (m : ProcessMemory) : Prop where
  bare : m.pageTableLevel2 = 0 → m.tableNodes = []
  built : m.pageTableLevel2 ≠ 0 → m.pageTablesLvl1List ≠ none
  shared : (m.procSharedHashTable = none ∧ m.sharedPages.getD [] = [] ∧ m.releasedPagesList = []) ∨
    (m.procSharedHashTable ≠ none ∧ ∃ pages, m.sharedPages = some pages ∧ pages.length + m.releasedPagesList.length ≤ 1 ∧
      ∀ page ∈ pages, Releasable user (env 0) s m page)

variable {r : Region} {user : Strings} {p : Ptr} {key : Word} {s t : MemoryState} {m m' m'' : ProcessMemory}
  {freed freed' calls : List FreeCall}

/-! ## Releasing the pages -/

/-- Releasing pages keeps the tables, and leaves a hole for every node it frees. -/
structure Releasing (m m' : ProcessMemory) (freed : List FreeCall) : Prop where
  level2 : m'.pageTableLevel2 = m.pageTableLevel2
  level1 : m'.pageTablesLvl1List = m.pageTablesLvl1List
  holeNone : ∀ i, FreeCall.releasedPage i ∉ freed
  tableNone : ∀ i, FreeCall.pageTableNode i ∉ freed
  holes : freed.countP FreeCall.isSharedPagesProc + m.releasedPagesList.length ≤ m'.releasedPagesList.length

theorem Releasing.refl (m : ProcessMemory) : Releasing m m [] :=
  ⟨rfl, rfl, fun _ => List.not_mem_nil, fun _ => List.not_mem_nil, by simp⟩

theorem Releasing.trans (h : Releasing m m' freed) (h' : Releasing m' m'' freed') : Releasing m m'' (freed ++ freed') where
  level2 := h'.level2.trans h.level2
  level1 := h'.level1.trans h.level1
  holeNone i := by simp [h.holeNone i, h'.holeNone i]
  tableNone i := by simp [h.tableNone i, h'.tableNone i]
  holes := by
    have := h.holes
    have := h'.holes
    rw [List.countP_append]
    omega

/-- Each outcome of `shm_release`. -/
theorem Released.releasing {env : ReleaseEnv} (hm : s.procs p = some m) (h : Released r user p env key s m freed t) :
    ∃ m', t.procs p = some m' ∧ Releasing m m' freed := by
  cases h with
  | absent => exact ⟨m, hm, .refl m⟩
  | refused found hole delete neg =>
    exact ⟨_, Function.update_self .., rfl, rfl, by simp, by simp, by simp [ProcessMemory.unlink]⟩
  | kept found hole delete nonneg live others =>
    refine ⟨_, Function.update_self .., rfl, rfl, by simp, by simp, ?_⟩
    simp [ProcessMemory.unlink, FreeCall.isSharedPagesProc, Nat.add_comm]
  | @last a page del del' table shared q found hole delete nonneg live last forget =>
    refine ⟨_, Function.update_self .., rfl, rfl, fun i => ?_, fun i => ?_, ?_⟩
    · split <;> simp
    · split <;> simp
    · simp [ProcessMemory.unlink, FreeCall.isSharedPagesProc, List.countP_cons, List.countP_append, Nat.add_comm]

/-- The whole loop. -/
theorem wp_releaseSharedPages {env : Nat → ReleaseEnv} (pages : List SharedPagesProc) (turn : Nat) (hm : s.procs p = some m) :
    wp (releaseSharedPages r user p env turn pages) (fun freed t => ∃ m', t.procs p = some m' ∧ Releasing m m' freed)
      (fun _ => True) s := by
  induction pages generalizing turn s m with
  | nil => exact ⟨m, hm, .refl m⟩
  | cons page pages ih =>
    rw [releaseSharedPages, wp_bind]
    refine wp_mono (wp_shmRelease r user (env turn) page.key hm) (fun freed u _ h => ?_) fun _ _ h => h
    obtain ⟨m₁, hm₁, hfirst⟩ := h.releasing hm
    rw [wp_bind]
    refine wp_mono (ih (turn + 1) hm₁) (fun freed' t _ h => ?_) fun _ _ h => h
    obtain ⟨m₂, hm₂, hrest⟩ := h
    exact ⟨m₂, hm₂, hfirst.trans hrest⟩

/-- One page. -/
theorem Released.releasable {env : ReleaseEnv} {page : SharedPagesProc} (hpages : m.sharedPages = some [page])
    (h : Released r user p env page.key s m freed t) (hmem : FreeCall.sharedPagesProc page.node ∈ freed) :
    Releasable user env s m page := by
  have honly : ∀ {a : Word} {found : SharedPagesProc}, FoundPage user s m page.key a found → found = page := by
    intro a found h
    have hlisted := h.listed
    rw [hpages, Option.bind_some] at hlisted
    exact List.mem_singleton.1 (List.mem_of_find?_eq_some hlisted)
  cases h with
  | absent => cases hmem
  | refused found hole delete neg => cases hmem
  | kept found hole delete nonneg live others =>
    cases honly found
    exact ⟨hole, ⟨_, _, found, live, fun h => absurd h others⟩, _, _, delete, nonneg⟩
  | last found hole delete nonneg live last forget =>
    cases honly found
    refine ⟨hole, ⟨_, _, found, live, fun _ => ?_⟩, _, _, delete, nonneg⟩
    rw [forget]
    rfl

/-- The loop over all the pages, and what it tells about a page that is alone. -/
theorem wp_releasePages {env : Nat → ReleaseEnv} {pages : List SharedPagesProc} (hm : s.procs p = some m)
    (hpages : m.sharedPages = some pages) :
    wp (releaseSharedPages r user p env 0 pages) (fun calls t => ∃ m', t.procs p = some m' ∧ Releasing m m' calls ∧
      ∀ page, pages = [page] → .sharedPagesProc page.node ∈ calls → Releasable user (env 0) s m page) (fun _ => True) s := by
  match pages with
  | [page] =>
    rw [releaseSharedPages, wp_bind]
    refine wp_mono (wp_shmRelease r user (env 0) page.key hm) (fun calls t _ h => ?_) fun _ _ h => h
    obtain ⟨m', hm', hrel⟩ := h.releasing hm
    rw [releaseSharedPages, wp_bind, wp_pure, List.append_nil]
    refine ⟨m', hm', hrel, fun page' hone hmem => ?_⟩
    cases hone
    exact h.releasable hpages hmem
  | [] =>
    refine wp_mono (wp_releaseSharedPages [] 0 hm) (fun calls t _ h => ?_) fun _ _ h => h
    obtain ⟨m', hm', hrel⟩ := h
    exact ⟨m', hm', hrel, fun _ h => by cases h⟩
  | page :: page' :: pages =>
    refine wp_mono (wp_releaseSharedPages (page :: page' :: pages) 0 hm) (fun calls t _ h => ?_) fun _ _ h => h
    obtain ⟨m', hm', hrel⟩ := h
    exact ⟨m', hm', hrel, fun _ h => by cases h⟩

/-! ## The lists -/

theorem freeReleasedPages_eq (holes : List ReleasedPage) :
    freeReleasedPages holes = List.replicate holes.length (.releasedPage (holes.length - 1)) := List.map_const' ..

/-- The calls for the nodes of the tables. -/
def ProcessMemory.freedTables (m : ProcessMemory) : List FreeCall :=
  if m.pageTableLevel2 = 0 then [] else (List.range m.tableNodes.length).map .pageTableNode ++ [.pageDirectory]

theorem wp_freePageTables (hm : s.procs p = some m) :
    wp (freePageTables r p) (fun freed t => t.procs = s.procs ∧ freed = m.freedTables ∧
      (m.pageTableLevel2 ≠ 0 → m.pageTablesLvl1List ≠ none))
      (fun _ => m.pageTableLevel2 ≠ 0 ∧ m.pageTablesLvl1List = none) s := by
  rw [freePageTables, wp_bind, wp_procMemory hm, ProcessMemory.freedTables, ProcessMemory.tableNodes]
  split
  next hzero => exact ⟨rfl, rfl, fun h => absurd hzero h⟩
  next hnz =>
    cases hd : m.pageTablesLvl1List with
    | none => exact ⟨hnz, rfl⟩
    | some d => exact ⟨rfl, rfl, fun _ h => by cases h⟩

/-- What the part about the shared pages does. -/
theorem wp_freeSharedPages {env : Nat → ReleaseEnv} (hm : s.procs p = some m) :
    wp (freeSharedPages r user p env) (fun freed t => ∃ m', t.procs p = some m' ∧
      ((m.procSharedHashTable = none ∧ m' = m ∧ freed = []) ∨
        (m.procSharedHashTable ≠ none ∧ ∃ pages calls, m.sharedPages = some pages ∧ Releasing m m' calls ∧
          freed = calls ++ freeReleasedPages m'.releasedPagesList ∧
          ∀ page, pages = [page] → .sharedPagesProc page.node ∈ calls → Releasable user (env 0) s m page)))
      (fun _ => True) s := by
  rw [freeSharedPages, wp_bind, wp_procMemory hm]
  split
  next hnone => exact ⟨m, hm, .inl ⟨Option.isNone_iff_eq_none.1 hnone, rfl, rfl⟩⟩
  next hsome =>
    rw [Option.isNone_iff_eq_none] at hsome
    cases hpages : m.sharedPages with
    | none => trivial
    | some pages =>
      rw [wp_bind]
      refine wp_mono (wp_releasePages hm hpages) (fun calls t _ h => ?_) fun _ _ h => h
      obtain ⟨m', hm', hrel, hone⟩ := h
      rw [wp_bind, wp_procMemory hm']
      exact ⟨m', hm', .inr ⟨hsome, pages, calls, rfl, hrel, rfl, hone⟩⟩

theorem ProcessMemory.count_freedTables (m : ProcessMemory) (i : Nat) :
    m.freedTables.count (.pageTableNode i) = if m.pageTableLevel2 ≠ 0 ∧ i < m.tableNodes.length then 1 else 0 := by
  have hnodup : ((List.range m.tableNodes.length).map FreeCall.pageTableNode).Nodup :=
    List.nodup_range.map fun _ _ h => FreeCall.pageTableNode.inj h
  rw [freedTables]
  split
  next hzero => simp [hzero]
  next hnz => simp [hnz, hnodup.count]

theorem ProcessMemory.notMem_freedTables (m : ProcessMemory) :
    (∀ i, FreeCall.releasedPage i ∉ m.freedTables) ∧ ∀ node, FreeCall.sharedPagesProc node ∉ m.freedTables := by
  unfold freedTables
  constructor
  · intro i
    split <;> simp
  · intro node
    split <;> simp

/-- What one `free_process_memory` calls, for the pages and holes it has found. -/
def allCalls (m m' : ProcessMemory) (calls : List FreeCall) : List FreeCall :=
  (calls ++ freeReleasedPages m'.releasedPagesList) ++ m.freedTables

theorem Releasing.count_hole (h : Releasing m m' calls) (i : Nat) :
    (allCalls m m' calls).count (.releasedPage i) =
      if i = m'.releasedPagesList.length - 1 then m'.releasedPagesList.length else 0 := by
  rw [allCalls, List.count_append, List.count_append, List.count_eq_zero.2 (h.holeNone i),
    List.count_eq_zero.2 (m.notMem_freedTables.1 i), freeReleasedPages_eq, List.count_replicate]
  simp only [Nat.zero_add, Nat.add_zero, beq_iff_eq, FreeCall.releasedPage.injEq, @eq_comm _ i]

theorem Releasing.count_page (node : Word) :
    (allCalls m m' calls).count (.sharedPagesProc node) = calls.count (.sharedPagesProc node) := by
  rw [allCalls, List.count_append, List.count_append, List.count_eq_zero.2 (m.notMem_freedTables.2 node),
    freeReleasedPages_eq, List.count_replicate]
  simp

theorem Releasing.count_table (h : Releasing m m' calls) (i : Nat) :
    (allCalls m m' calls).count (.pageTableNode i) = if m.pageTableLevel2 ≠ 0 ∧ i < m.tableNodes.length then 1 else 0 := by
  rw [allCalls, List.count_append, List.count_append, List.count_eq_zero.2 (h.tableNone i), m.count_freedTables,
    freeReleasedPages_eq, List.count_replicate]
  simp

/-- Every page that was freed has left a hole, and more than one hole is too many. -/
theorem FreedOnce.few (h : FreedOnce m m' (allCalls m m' calls)) (hrel : Releasing m m' calls)
    (hnodes : ((m.sharedPages.getD []).map (·.node)).Nodup) :
    (m.sharedPages.getD []).length + m.releasedPagesList.length ≤ 1 := by
  have hholes : m'.releasedPagesList.length ≤ 1 := by
    by_contra hmany
    have hhead := h.holes (m'.releasedPagesList.length - 1) (by omega)
    rw [hrel.count_hole, if_pos rfl] at hhead
    omega
  have hsubset : ((m.sharedPages.getD []).map fun page => FreeCall.sharedPagesProc page.node) ⊆
      calls.filter FreeCall.isSharedPagesProc := by
    intro f hf
    obtain ⟨page, hpage, rfl⟩ := List.mem_map.1 hf
    have hcount := h.pages page hpage
    rw [Releasing.count_page] at hcount
    exact List.mem_filter.2 ⟨List.count_pos_iff.1 (by omega), rfl⟩
  have hnodup : ((m.sharedPages.getD []).map fun page => FreeCall.sharedPagesProc page.node).Nodup := by
    have hmap := hnodes.map fun _ _ h => FreeCall.sharedPagesProc.inj h
    rwa [List.map_map] at hmap
  have hlength := (List.subperm_of_subset hnodup hsubset).length_le
  rw [List.length_map, ← List.countP_eq_length_filter] at hlength
  have := hrel.holes
  omega

/-- The nodes of tables are freed with their level 2 table. -/
theorem FreedOnce.bare (h : FreedOnce m m' (allCalls m m' calls)) (hrel : Releasing m m' calls)
    (hzero : m.pageTableLevel2 = 0) : m.tableNodes = [] := by
  by_contra hne
  have hfirst := h.tables 0 (List.length_pos_iff.2 hne)
  rw [hrel.count_table, if_neg (fun h => h.1 hzero)] at hfirst
  omega

/-- Without a table of its own the process has neither pages nor holes. -/
theorem FreedOnce.holdsOne_of_none {env : Nat → ReleaseEnv} (h : FreedOnce m m m.freedTables) (hnone : m.procSharedHashTable = none)
    (hbuilt : m.pageTableLevel2 ≠ 0 → m.pageTablesLvl1List ≠ none) : HoldsOne user env s m := by
  have hholes : m.releasedPagesList = [] := by
    by_contra hne
    have hfirst := h.holes 0 (List.length_pos_iff.2 hne)
    rw [List.count_eq_zero.2 (m.notMem_freedTables.1 0)] at hfirst
    omega
  have hpages : m.sharedPages.getD [] = [] := by
    refine List.eq_nil_iff_forall_not_mem.2 fun page hpage => ?_
    have hcount := h.pages page hpage
    rw [List.count_eq_zero.2 (m.notMem_freedTables.2 page.node)] at hcount
    omega
  refine ⟨fun hzero => ?_, hbuilt, .inl ⟨hnone, hpages, hholes⟩⟩
  have hcalls : FreedOnce m m (allCalls m m []) := by
    rwa [allCalls, hholes]
  exact hcalls.bare (.refl m) hzero

/-- With one hole at most, and every page freed once. -/
theorem Releasing.freedOnce (h : Releasing m m' calls) (hholes : m'.releasedPagesList.length ≤ 1)
    (hpages : ∀ page ∈ m.sharedPages.getD [], calls.count (.sharedPagesProc page.node) = 1)
    (honce : ∀ node, .sharedPagesProc node ∈ calls → calls.count (.sharedPagesProc node) = 1)
    (hbare : m.pageTableLevel2 = 0 → m.tableNodes = []) : FreedOnce m m' (allCalls m m' calls) where
  holes i hi := by
    rw [h.count_hole, if_pos (by omega)]
    omega
  pages page hpage := by
    rw [Releasing.count_page]
    exact hpages page hpage
  tables i hi := by
    have hnz : m.pageTableLevel2 ≠ 0 := by
      intro hzero
      rw [hbare hzero] at hi
      exact Nat.not_lt_zero i hi
    rw [h.count_table, if_pos ⟨hnz, hi⟩]
  once f hf hnode := by
    have hpos := List.count_pos_iff.2 hf
    cases f with
    | releasedPage i =>
      rw [h.count_hole] at hpos ⊢
      split at hpos
      next hi =>
        rw [if_pos hi]
        omega
      next => omega
    | sharedPagesProc node =>
      rw [Releasing.count_page] at hpos ⊢
      exact honce node (List.count_pos_iff.1 hpos)
    | pageTableNode i =>
      rw [h.count_table] at hpos ⊢
      split at hpos
      next hi => rw [if_pos hi]
      next => omega
    | pageDirectory => cases hnode
    | key string => cases hnode
    | sharedPage page => cases hnode

theorem Releasing.freedTables (h : Releasing m m' calls) : m'.freedTables = m.freedTables := by
  simp only [ProcessMemory.freedTables, ProcessMemory.tableNodes, h.level1, h.level2]

/-- What `free_process_memory` calls. -/
theorem wp_freeMemory {env : Nat → ReleaseEnv} (hm : s.procs p = some m) :
    wp (freeMemory r user p env) (fun freed t => ∃ m' calls, t.procs p = some m' ∧ Releasing m m' calls ∧
      (m.pageTableLevel2 ≠ 0 → m.pageTablesLvl1List ≠ none) ∧
      ((m.procSharedHashTable = none ∧ m' = m ∧ freed = m.freedTables) ∨
        (m.procSharedHashTable ≠ none ∧ ∃ pages, m.sharedPages = some pages ∧ freed = allCalls m m' calls ∧
          ∀ page, pages = [page] → .sharedPagesProc page.node ∈ calls → Releasable user (env 0) s m page)))
      (fun _ => True) s := by
  rw [freeMemory, wp_bind]
  refine wp_mono (wp_freeSharedPages hm) (fun shared u _ h => ?_) fun _ _ h => h
  obtain ⟨m', hm', h⟩ := h
  rw [wp_bind]
  refine wp_mono (wp_freePageTables hm') (fun tables t _ ht => ?_) fun _ _ _ => trivial
  obtain ⟨hprocs, rfl, hbuilt⟩ := ht
  rw [wp_pure, hprocs]
  obtain ⟨hnone, rfl, rfl⟩ | ⟨hsome, pages, calls, hpages, hrel, rfl, hone⟩ := h
  · exact ⟨m', [], hm', .refl m', hbuilt, .inl ⟨hnone, rfl, rfl⟩⟩
  · rw [hrel.level1, hrel.level2] at hbuilt
    exact ⟨m', calls, hm', hrel, hbuilt, .inr ⟨hsome, pages, hpages, by rw [allCalls, hrel.freedTables], hone⟩⟩

/-- The tables are freed after the pages. -/
theorem wp_freeMemory_of_shared {env : Nat → ReleaseEnv} (hbuilt : m.pageTableLevel2 ≠ 0 → m.pageTablesLvl1List ≠ none)
    (h : wp (freeSharedPages r user p env) (fun shared t => ∃ m' calls, t.procs p = some m' ∧ Releasing m m' calls ∧
      FreedOnce m m' (shared ++ m.freedTables)) (fun _ => False) s) :
    wp (freeMemory r user p env) (fun freed t => ∃ m', t.procs p = some m' ∧ FreedOnce m m' freed) (fun _ => False) s := by
  rw [freeMemory, wp_bind]
  refine wp_mono h (fun shared u _ h => ?_) fun _ _ h => h
  obtain ⟨m', calls, hm', hrel, honce⟩ := h
  rw [wp_bind]
  refine wp_mono (wp_freePageTables hm') (fun tables t _ ht => ?_) fun _ _ hno => ?_
  · obtain ⟨hprocs, rfl, -⟩ := ht
    rw [wp_pure, hprocs, hrel.freedTables]
    exact ⟨m', hm', honce⟩
  · rw [hrel.level1, hrel.level2] at hno
    exact hbuilt hno.1 hno.2

/-- The last part of `shm_release` frees no node. -/
theorem wp_dropSharedPage_returns {env : ReleaseEnv} {a keyFree : Word} {q : SharedPage} (hlive : s.pages a = some q)
    (hforget : q.usage = 1 → (hashDel lookupTurns (s.view user) env.sharedHeap s.sharedMemoryHashTable key).isSome) :
    wp (dropSharedPage r user env a key keyFree) (fun calls t => t.procs = s.procs ∧ ∀ node, .sharedPagesProc node ∉ calls)
      (fun _ => False) s := by
  rw [dropSharedPage, wp_bind, sharedPage, wp_bind, wp_get, hlive, wp_pure]
  split
  next hlast =>
    obtain ⟨⟨v, shared⟩, hdel⟩ := Option.isSome_iff_exists.1 (hforget (by omega))
    have hdel' : hashDel lookupTurns (({ s with pool := releaseFrame r s.pool q.pageAddress } : MemoryState).view user)
        env.sharedHeap s.sharedMemoryHashTable key = some (v, shared) := hdel
    rw [wp_bind, wp_modify, wp_bind, wp_get, wp_bind, hdel', hashed, wp_pure]
    refine ⟨rfl, fun node => ?_⟩
    split <;> simp
  next => exact ⟨rfl, fun node => List.not_mem_nil⟩

/-- `shm_release` of a page frees its node and leaves a hole. -/
theorem Releasable.wp_shmRelease {env : ReleaseEnv} {page : SharedPagesProc} (h : Releasable user env s m page)
    (hm : s.procs p = some m) :
    wp (shmRelease r user (some p) env page.key) (fun calls t =>
      (∀ m', t.procs p = some m' → m'.releasedPagesList.length = m.releasedPagesList.length + 1) ∧
        ∀ node, calls.count (.sharedPagesProc node) = if node = page.node then 1 else 0) (fun _ => False) s := by
  obtain ⟨a, q, hfound, hlive, hforget⟩ := h.found
  obtain ⟨del, table, hdel, hnonneg⟩ := h.unbound
  rw [wp_shmRelease_found hm hfound h.hole hdel hnonneg]
  refine wp_mono (wp_dropSharedPage_returns hlive hforget) (fun calls t _ hdrop => ?_) fun _ _ h => h
  obtain ⟨hprocs, hnone⟩ := hdrop
  refine ⟨fun m' hm' => ?_, fun node => ?_⟩
  · rw [hprocs] at hm'
    cases (Function.update_self ..).symm.trans hm'
    rfl
  · rw [List.count_append, List.count_eq_zero.2 (hnone node), Nat.zero_add]
    simp only [List.count_singleton, beq_iff_eq, FreeCall.sharedPagesProc.injEq, @eq_comm _ node]

/-- A page that is alone leaves one hole. -/
theorem Releasable.wp_releaseSharedPages {env : Nat → ReleaseEnv} {page : SharedPagesProc} (h : Releasable user (env 0) s m page)
    (hm : s.procs p = some m) :
    wp (releaseSharedPages r user p env 0 [page]) (fun calls t => ∃ m', t.procs p = some m' ∧ Releasing m m' calls ∧
      m'.releasedPagesList.length = m.releasedPagesList.length + 1 ∧
      ∀ node, calls.count (.sharedPagesProc node) = if node = page.node then 1 else 0) (fun _ => False) s := by
  rw [releaseSharedPages, wp_bind]
  refine wp_mono (wp_and (h.wp_shmRelease hm) (Xinul.wp_shmRelease r user (env 0) page.key hm)) (fun calls t _ hp => ?_)
    fun _ _ h => h
  obtain ⟨⟨hholes, hcount⟩, hrel⟩ := hp
  obtain ⟨m', hm', hreleasing⟩ := hrel.releasing hm
  rw [releaseSharedPages, wp_bind, wp_pure, List.append_nil]
  exact ⟨m', hm', hreleasing, hholes m' hm', hcount⟩

/-- With one page or hole at most, it returns. -/
theorem HoldsOne.returns {env : Nat → ReleaseEnv} (h : HoldsOne user env s m) (hm : s.procs p = some m) :
    ∃ freed t m', freeMemory r user p env s = .ok (freed, t) ∧ t.procs p = some m' ∧ FreedOnce m m' freed := by
  have hspec : wp (freeMemory r user p env) (fun freed t => ∃ m', t.procs p = some m' ∧ FreedOnce m m' freed)
      (fun _ => False) s := by
    refine wp_freeMemory_of_shared h.built ?_
    rw [freeSharedPages, wp_bind, wp_procMemory hm]
    obtain ⟨hnone, hpages, hholes⟩ | ⟨hsome, pages, hpages, hfew, hrel⟩ := h.shared
    · rw [if_pos (by simp [hnone])]
      have honce := (Releasing.refl m).freedOnce (by simp [hholes]) (by simp [hpages]) (fun _ h => by cases h) h.bare
      rw [allCalls, hholes] at honce
      exact ⟨m, [], hm, .refl m, honce⟩
    · rw [if_neg (by simpa using hsome), hpages]
      dsimp only
      rw [wp_bind]
      match pages with
      | [] =>
        rw [releaseSharedPages, wp_pure, wp_bind, wp_procMemory hm]
        exact ⟨m, [], hm, .refl m, (Releasing.refl m).freedOnce (by simpa using hfew) (by simp [hpages]) (fun _ h => by cases h) h.bare⟩
      | [page] =>
        refine wp_mono ((hrel page (List.mem_singleton_self _)).wp_releaseSharedPages hm) (fun calls t _ hp => ?_) fun _ _ h => h
        obtain ⟨m', hm', hreleasing, hholes, hcount⟩ := hp
        rw [wp_bind, wp_procMemory hm']
        refine ⟨m', calls, hm', hreleasing, hreleasing.freedOnce ?_ ?_ ?_ h.bare⟩
        · rw [hholes]
          simpa [Nat.add_comm] using hfew
        · simp [hpages, hcount]
        · intro node hnode
          have hpos := List.count_pos_iff.2 hnode
          rw [hcount] at hpos ⊢
          split at hpos
          next hsame => rw [if_pos hsame]
          next => omega
      | page :: page' :: pages =>
        simp only [List.length_cons] at hfew
        omega
  obtain ⟨freed, t, hfree, m', hm', honce⟩ := wp_returns hspec
  exact ⟨freed, t, m', hfree, hm', honce⟩

/-- **The nodes of a process**: `free_process_memory` calls `free` exactly once on each node
of the lists of a process if and only if there is at most one shared page or hole. -/
theorem nodes_freed_once_iff (r : Region) (user : Strings) (env : Nat → ReleaseEnv) (hm : s.procs p = some m)
    (hnodes : ((m.sharedPages.getD []).map (·.node)).Nodup) :
    (∃ freed t m', freeMemory r user p env s = .ok (freed, t) ∧ t.procs p = some m' ∧ FreedOnce m m' freed) ↔
      HoldsOne user env s m := by
  constructor
  · rintro ⟨freed, t, m', hfree, hm', honce⟩
    obtain ⟨m₁, calls, hm₁, hrel, hbuilt, h⟩ := wp_ok (wp_freeMemory hm) hfree
    cases hm'.symm.trans hm₁
    obtain ⟨hnone, rfl, rfl⟩ | ⟨hsome, pages, hpages, rfl, hone⟩ := h
    · exact honce.holdsOne_of_none hnone hbuilt
    · have hfew := honce.few hrel hnodes
      rw [hpages] at hfew
      refine ⟨honce.bare hrel, hbuilt, .inr ⟨hsome, pages, hpages, hfew, fun page hpage => ?_⟩⟩
      have hsingle : pages = [page] := by
        match pages with
        | [page'] => rw [List.mem_singleton.1 hpage]
        | page₁ :: page₂ :: rest =>
          simp only [Option.getD_some, List.length_cons] at hfew
          omega
      have hcount := honce.pages page (by rw [hpages]; exact hpage)
      rw [Releasing.count_page] at hcount
      exact hone page hsingle (List.count_pos_iff.1 (by omega))
  · intro h
    exact h.returns hm

/-- A process that has created as many shared pages as there are holes, and has released
them all. -/
def pastSharer (holes : List ReleasedPage) : ProcessMemory where
  pageTableLevel2 := 0x80100000
  pageTablesLvl1List :=
    some ⟨0x80101000, [⟨0x80102000, 3, 0⟩, ⟨0x80103000, 1, 128⟩, ⟨0x80109000, holes.length, 256⟩], 3, 1, 1, 1⟩
  stackShift := 3
  procSharedHashTable := some ⟨holes.length, 0, 7,
    List.replicate holes.length ⟨0, 0, 0, .deleted⟩ ++ List.replicate (8 - holes.length) emptySlot,
    hashStringHfunc, hashStringCmp⟩
  sharedPages := some []
  releasedPagesList := holes
  sscratchFrame := 0x80108000

/-- The state with that process, the frames behind its tables free. -/
def pastSharing (holes : List ReleasedPage) : MemoryState :=
  (bootMemory ⟨fun _ => 0, 0x8010a000⟩).setProc 1 (pastSharer holes)

/-- There is memory for the holes, and the tables need none. -/
def holesEnv : Nat → ReleaseEnv := fun _ => ⟨true, Heap.exhausted, Heap.exhausted⟩

/-- One hole. -/
theorem nodes_freed_once_hole : ∃ user freed t m',
    freeMemory smallRam.toRegion user 1 holesEnv (pastSharing [⟨1, 256, 0, 0x80109000⟩]) = .ok (freed, t) ∧
      t.procs 1 = some m' ∧ FreedOnce (pastSharer [⟨1, 256, 0, 0x80109000⟩]) m' freed :=
  ⟨fun _ => ⟨[], fun _ h => by cases h⟩, (nodes_freed_once_iff smallRam.toRegion _ holesEnv rfl (by decide)).2
    ⟨by decide, (fun _ h => by cases h), .inr ⟨(fun h => by cases h), [], rfl, by decide, (fun _ h => by cases h)⟩⟩⟩

/-- Two holes: the head of the list is freed twice, the node behind it never. -/
theorem head_freed_twice : ∃ user freed t,
    freeMemory smallRam.toRegion user 1 holesEnv
        (pastSharing [⟨1, 256, 1, 0x80109000⟩, ⟨1, 256, 0, 0x80109000⟩]) = .ok (freed, t) ∧
      freed.count (.releasedPage 1) = 2 ∧ freed.count (.releasedPage 0) = 0 :=
  ⟨fun _ => ⟨[], fun _ h => by cases h⟩, _, _, rfl, by decide, by decide⟩

end Xinul
