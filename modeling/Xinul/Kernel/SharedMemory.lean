import Xinul.Kernel.ProcessMemory

/-!
# Shared pages: `memory_api.c`

The keys of the calls are addresses in the memory of the caller, whose strings
are an argument of every call; the copies that the kernel makes are its own. The
page counter is left out: nothing reads it.
-/

namespace Xinul

open Bytes

/-- The address is one of the user space. -/
def inUserspace (a : Word) : Bool := 0x40000000 ≤ a.toNat && a.toNat < 0x80000000

/-- The strings as a call sees them when the memory of its caller holds `user`. -/
def MemoryState.view (s : MemoryState) (user : Strings) : Strings :=
  fun a => if inUserspace a then user a else s.strings a

/-- More slots than the largest table of the heap has: a lookup that has not
stopped by then goes on forever. -/
def lookupTurns : Nat := 13 + 2 ^ 21

/-- The result of a function of `hash.c`. -/
def hashed {α : Type} : Option α → MemoryM α
  | some x => pure x
  | none => throw .hang

/-- The `shared_page_t` at an address. -/
def sharedPage (a : Word) : MemoryM SharedPage := do
  match (← get).pages a with
  | some page => pure page
  | none => throw .nullPointer

/-- The state with the `shared_page_t` at `a` written, or freed. -/
def MemoryState.setPage (s : MemoryState) (a : Word) (page : Option SharedPage) : MemoryState :=
  { s with pages := Function.update s.pages a page }

/-- `get_shared_page`: 0 is `NULL`. -/
def getSharedPage (user : Strings) (pageString : Word) : MemoryM Word := do
  let s ← get
  hashed (hashGet lookupTurns (s.view user) s.sharedMemoryHashTable pageString 0)

/-- `get_shared_page_proc`. -/
def getSharedPageProc (user : Strings) (p : Ptr) (pageString : Word) : MemoryM Word := do
  match (← procMemory p).procSharedHashTable with
  | none => pure 0
  | some table => hashed (hashGet lookupTurns ((← get).view user) (some table) pageString 0)

/-- `map_address_for_process`. -/
def mapAddressForProcess (lvl2Index lvl1Index lvl0Index : Nat) : Nat :=
  lvl2Index * gigaSize + lvl1Index * megaSize + lvl0Index * kiloSize

/-- What the allocators answer during one `shm_create` or `shm_acquire`: the
addresses of the copy of the key, of the `shared_page_t` and of the
`shared_pages_proc_t` with its key; whether there is memory for the table of the
process, for its wrapper and for a `page_table_link_list_t`; what the tables are
granted; and what the memory of a new table holds. -/
structure ShmEnv where
  key : Word
  page : Word
  sharedHeap : Heap
  table : Bool
  garbage : HashTable
  tableHeap : Heap
  wrapper : Bool
  node : Word
  nodeKey : Word
  child : Bool
  procHeap : Heap

/-- `create_shared_page`. -/
def createSharedPage (r : Region) (user : Strings) (env : ShmEnv) (key : Word) : MemoryM Word := do
  let frame ← takeFrame
  if env.page = 0 then pure 0
  else
    modify (·.setPage env.page (some ⟨key, frame, 0⟩))
    let s ← get
    let (set, table) ← hashed (hashSet lookupTurns (s.view user) env.sharedHeap s.sharedMemoryHashTable key env.page)
    modify fun s => { s with sharedMemoryHashTable := table }
    if set < 0 then
      modify fun s => { s with pool := releaseFrame r s.pool frame }
      pure 0
    else pure env.page

/-- The new node of `link_shared_page_to_process` takes the hole of a released page. -/
def SharedPagesProc.fillHole (page : SharedPagesProc) (hole : ReleasedPage) : SharedPagesProc :=
  { page with
    lvl0Index := hole.lvl0Index
    lvl1Index := hole.lvl1Index
    lvl2Index := hole.lvl2Index
    pageTable := hole.pageTable }

/-- Where `link_shared_page_to_process` puts the page whose node is the tail of
the list: in the hole left last, or in a new place. -/
def placeSharedPage (p : Ptr) (childOk : Bool) : MemoryM Int := do
  let m ← procMemory p
  match m.releasedPagesList with
  | hole :: holes =>
    match m.sharedPages.bind (·.getLast?) with
    | none => throw .nullPointer
    | some tail =>
      setProcMemory p { m with
        releasedPagesList := holes
        sharedPages := m.sharedPages.map fun pages => pages.dropLast ++ [tail.fillHole hole] }
      pure 0
  | [] => addFrameToProcess p .shared childOk

/-- The node at the tail of the shared pages of a process. -/
def tailSharedPage (p : Ptr) : MemoryM SharedPagesProc := do
  match (← procMemory p).sharedPages.bind (·.getLast?) with
  | some tail => pure tail
  | none => throw .nullPointer

/-- The end of `link_shared_page_to_process`, once the page has its place: the
result of `hash_set` is dropped. -/
def mapSharedPage (user : Strings) (p : Ptr) (env : ShmEnv) (pageInfo pageName : Word) : MemoryM Unit := do
  let tail ← tailSharedPage p
  let m ← procMemory p
  let s ← get
  let (_, table) ← hashed (hashSet lookupTurns (s.view user) env.procHeap m.procSharedHashTable pageName tail.node)
  setProcMemory p { m with procSharedHashTable := table }
  let page ← sharedPage pageInfo
  modify (·.setPage pageInfo (some { page with usage := page.usage + 1 }))
  modify fun s => s.setMem (configurePte s.pool.mem tail.pageTable tail.lvl0Index page.pageAddress true true false true .kilo)

/-- `link_shared_page_to_process`. -/
def linkSharedPageToProcess (user : Strings) (p : Ptr) (env : ShmEnv) (pageInfo pageName : Word) : MemoryM Int := do
  let m ← procMemory p
  match m.sharedPages with
  | none => pure (-1)
  | some pages =>
    if pageInfo = 0 ∨ pageName = 0 then pure (-1)
    else if env.node = 0 then throw .nullPointer
    else if env.nodeKey = 0 then pure (-1)
    else
      -- `strcpy`
      modify fun s => { s with strings := Function.update s.strings env.nodeKey (s.view user pageName) }
      setProcMemory p { m with sharedPages := some (pages ++ [⟨env.node, env.nodeKey, 0, 0, 0, 0⟩]) }
      if (← placeSharedPage p env.child) < 0 then pure (-1)
      else
        mapSharedPage user p env pageInfo pageName
        pure 0

/-- `create_hash_table_and_shared_pages_wrapper`. -/
def createHashTableAndSharedPagesWrapper (p : Ptr) (env : ShmEnv) : MemoryM Int := do
  let m ← procMemory p
  if m.procSharedHashTable = none ∧ env.table = false then pure (-1)
  else
    let (init, table) := match m.procSharedHashTable with
      | some table => (0, table)
      | none => hashInitString env.tableHeap env.garbage
    let m := { m with procSharedHashTable := some table }
    setProcMemory p m
    if init ≠ 0 then pure (-1)
    else match m.sharedPages with
      | some _ => pure 0
      | none =>
        if env.wrapper = false then pure (-1)
        else
          setProcMemory p { m with sharedPages := some [] }
          pure 0

/-- The address that `shm_create` and `shm_acquire` return for the tail of the list. -/
def mappedAddress (p : Ptr) : MemoryM Nat := do
  let tail ← tailSharedPage p
  pure (mapAddressForProcess tail.lvl2Index tail.lvl1Index tail.lvl0Index)

/-- `shm_create`, called by the process `current` if it has a record: 0 is `NULL`. -/
def shmCreate (r : Region) (user : Strings) (current : Option Ptr) (env : ShmEnv) (key : Word) : MemoryM Nat := do
  if key = 0 then pure 0
  else if env.key = 0 then throw .nullPointer
  else
    -- `strcpy`
    modify fun s => { s with strings := Function.update s.strings env.key (s.view user key) }
    if (← getSharedPage user env.key) ≠ 0 then pure 0
    else
      let pageInfo ← createSharedPage r user env env.key
      if pageInfo = 0 then pure 0
      else match current with
        | none => pure 0
        | some p =>
          if (← createHashTableAndSharedPagesWrapper p env) < 0 then pure 0
          else if (← linkSharedPageToProcess user p env pageInfo env.key) < 0 then pure 0
          else mappedAddress p

/-- `shm_acquire`. -/
def shmAcquire (user : Strings) (current : Option Ptr) (env : ShmEnv) (key : Word) : MemoryM Nat := do
  if key = 0 then pure 0
  else
    let pageInfo ← getSharedPage user key
    if pageInfo = 0 then pure 0
    else match current with
      | none => pure 0
      | some p =>
        if (← createHashTableAndSharedPagesWrapper p env) < 0 then pure 0
        else if (← getSharedPageProc user p key) ≠ 0 then pure 0
        else if (← linkSharedPageToProcess user p env pageInfo key) < 0 then pure 0
        else mappedAddress p

end Xinul
