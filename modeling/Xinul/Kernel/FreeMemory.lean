import Xinul.Kernel.SharedMemory

/-!
# Releasing: `shm_release` and the memory part of `free_process_memory`

The functions return the calls of `free` they make, in order. The record itself,
its context and its name are freed in the scheduling model.
-/

namespace Xinul

open Bytes

/-- What `free` is called on. A `released_pages_t` is known by the number of nodes behind
it in its list, and the `page_table_link_list_t` of a level 0 table by the number of
nodes before it. -/
inductive FreeCall where
  | releasedPage (behind : Nat)
  | sharedPagesProc (node : Word)
  | pageTableNode (before : Nat)
  | pageDirectory
  | key (string : Word)
  | sharedPage (page : Word)
  deriving DecidableEq, Repr

/-! ## `shm_release` -/

/-- What the allocators answer during one `shm_release`: whether there is memory for the
`released_pages_t`, and what the tables are granted. -/
structure ReleaseEnv where
  hole : Bool
  procHeap : Heap
  sharedHeap : Heap

/-- The hole a page leaves. -/
def SharedPagesProc.hole (page : SharedPagesProc) : ReleasedPage :=
  ⟨page.lvl2Index, page.lvl1Index, page.lvl0Index, page.pageTable⟩

/-- The node at an address: the table of a process holds nodes of its list. -/
def sharedPagesProc (p : Ptr) (node : Word) : MemoryM SharedPagesProc := do
  match (← procMemory p).sharedPages.bind (·.find? (·.node = node)) with
  | some page => pure page
  | none => throw .nullPointer

/-- The middle of `shm_release`: the place of the page becomes a hole, its node leaves
the list, and the entry is cleared. -/
def unlinkSharedPage (p : Ptr) (page : SharedPagesProc) : MemoryM Unit := do
  let m ← procMemory p
  setProcMemory p { m with
    releasedPagesList := page.hole :: m.releasedPagesList
    sharedPages := m.sharedPages.map (·.eraseP (·.node = page.node)) }
  modify fun s => s.setMem
    (setPte s.pool.mem page.pageTable page.lvl0Index (setInvalid (pteAt s.pool.mem page.pageTable page.lvl0Index)))
  modify fun s => s.setMem (configurePte s.pool.mem page.pageTable page.lvl0Index 0 false false false false .kilo)

/-- The end of `shm_release`: one user less, and after the last one the page goes. -/
def dropSharedPage (r : Region) (user : Strings) (env : ReleaseEnv) (pageInfo key keyFree : Word) :
    MemoryM (List FreeCall) := do
  let page ← sharedPage pageInfo
  if page.usage - 1 = 0 then
    modify fun s => { s with pool := releaseFrame r s.pool page.pageAddress }
    let s ← get
    let (_, table) ← hashed (hashDel lookupTurns (s.view user) env.sharedHeap s.sharedMemoryHashTable key)
    modify fun s => { s with sharedMemoryHashTable := table }
    modify (·.setPage pageInfo none)
    pure (.key keyFree :: (if page.pageKey = 0 then [] else [.key page.pageKey]) ++ [.sharedPage pageInfo])
  else
    modify (·.setPage pageInfo (some { page with usage := page.usage - 1 }))
    pure []

/-- `shm_release`; `current` is the custom process, or the running one. -/
def shmRelease (r : Region) (user : Strings) (current : Option Ptr) (env : ReleaseEnv) (key : Word) :
    MemoryM (List FreeCall) := do
  if key = 0 then pure []
  else
    let pageInfo ← getSharedPage user key
    if pageInfo = 0 then pure []
    else match current with
      | none => pure []
      | some p =>
        let node ← getSharedPageProc user p key
        if node = 0 then pure []
        else if env.hole = false then throw .nullPointer
        else
          let page ← sharedPagesProc p node
          unlinkSharedPage p page
          let m ← procMemory p
          let (del, table) ← hashed (hashDel lookupTurns ((← get).view user) env.procHeap m.procSharedHashTable key)
          setProcMemory p { m with procSharedHashTable := table }
          if del < 0 then pure []
          else
            let freed ← dropSharedPage r user env pageInfo key page.key
            pure (freed ++ [.sharedPagesProc page.node])

/-! ## `free_process_memory` -/

/-- The loop of `free_frames_indexed`, over `n` entries from `index` on. -/
def freeFramesLoop (r : Region) (table : Nat) : Nat → Nat → FramePool → FramePool
  | 0, _, pool => pool
  | n + 1, index, pool =>
    freeFramesLoop r table n (index + 1) (releaseFrame r pool (findPteAdress (pteAt pool.mem table index)))

/-- `free_frames_indexed`. -/
def freeFramesIndexed (r : Region) (pool : FramePool) (table startIndex endIndex : Nat) : FramePool :=
  if table = 0 then pool else freeFramesLoop r table (endIndex - startIndex) startIndex pool

/-- `free_frames_page_table` on the node of a level 0 table. -/
def freeFramesPageTable (r : Region) (pool : FramePool) (node : PageTableNode) : FramePool :=
  if node.index ≥ PageType.shared.start then pool else freeFramesIndexed r pool node.table 0 node.usage

/-- `free_frames_page_table` on the node of the level 1 table, whose index is `USERSPACE`. -/
def freeFramesPageDirectory (r : Region) (pool : FramePool) (d : PageDirectory) : FramePool :=
  if d.stackUsage = 0 ∧ d.heapUsage = 0 ∧ d.sharedMemoryUsage = 0 then freeFramesIndexed r pool d.table 0 d.usage
  else
    let free (type : PageType) (pool : FramePool) : FramePool :=
      freeFramesIndexed r pool d.table type.start (type.start + d.usageOf type)
    free .shared (free .heap (free .stackCode pool))

/-- The first loop of `free_process_memory`, over the shared pages from the `turn`th on. -/
def releaseSharedPages (r : Region) (user : Strings) (p : Ptr) (env : Nat → ReleaseEnv) :
    Nat → List SharedPagesProc → MemoryM (List FreeCall)
  | _, [] => pure []
  | turn, page :: pages => do
    let freed ← shmRelease r user (some p) (env turn) page.key
    let rest ← releaseSharedPages r user p env (turn + 1) pages
    pure (freed ++ rest)

/-- The loop over `released_pages_list`: `released_iter_prev` stays at the head. -/
def freeReleasedPages (holes : List ReleasedPage) : List FreeCall := holes.map fun _ => .releasedPage (holes.length - 1)

/-- The part of `free_process_memory` about the shared pages; `env` has the answers
for each `shm_release`. -/
def freeSharedPages (r : Region) (user : Strings) (p : Ptr) (env : Nat → ReleaseEnv) : MemoryM (List FreeCall) := do
  let m ← procMemory p
  if m.procSharedHashTable.isNone then pure []
  else match m.sharedPages with
    | none => throw .nullPointer
    | some pages =>
      let freed ← releaseSharedPages r user p env 0 pages
      pure (freed ++ freeReleasedPages (← procMemory p).releasedPagesList)

/-- The part of `free_process_memory` about the tables and their frames. -/
def freePageTables (r : Region) (p : Ptr) : MemoryM (List FreeCall) := do
  let m ← procMemory p
  if m.pageTableLevel2 = 0 then pure []
  else match m.pageTablesLvl1List with
    | none => throw .nullPointer
    | some d =>
      modify fun s =>
        let pool := d.children.foldl (freeFramesPageTable r) s.pool
        let pool := releaseFrame r (freeFramesPageDirectory r pool d) d.table
        { s with pool := releaseFrame r (releaseFrame r pool m.pageTableLevel2) m.sscratchFrame }
      pure ((List.range d.children.length).map .pageTableNode ++ [.pageDirectory])

/-- The part of `free_process_memory` about memory. -/
def freeMemory (r : Region) (user : Strings) (p : Ptr) (env : Nat → ReleaseEnv) : MemoryM (List FreeCall) := do
  let shared ← freeSharedPages r user p env
  let tables ← freePageTables r p
  pure (shared ++ tables)

end Xinul
