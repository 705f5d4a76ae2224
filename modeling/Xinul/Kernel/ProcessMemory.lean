import Xinul.Kernel.Hash
import Xinul.Kernel.Pages
import Xinul.Kernel.Process

/-!
# The memory of processes: `process_memory.c`

The fields of `process` that the scheduling model leaves out, the physical memory
with its free frames, and the tables of shared pages. The list nodes that
`malloc` returns hold no pointers to each other that matter but the order of a
list, so lists of nodes are lists; the answers of `malloc` are arguments.
-/

namespace Xinul

open Bytes

/-- The memory of the linker scripts under `boot/`: at most 256M, and within the
physical addresses of Sv39. -/
structure Ram extends Region where
  physical : stop ≤ 2 ^ 56
  few : stop - start < 65536 * frameSize

/-- `struct uapps`, without the name. The programs are linked into the kernel, and
its heap, of at least 2M, lies between them and the free memory; the kernel is
smaller than 2G. -/
structure App (r : Region) where
  start : Nat
  stop : Nat
  nonnull : 0 < start
  ordered : start ≤ stop
  small : stop - start < 2 ^ 31
  below : stop + frameSize ≤ r.start

/-- The size of a program. -/
def App.codeSize {r : Region} (app : App r) : Nat := app.stop - app.start

/-- `page_t`. -/
inductive PageType where
  | stackCode
  | heap
  | shared
  deriving DecidableEq, Repr

/-- `STACK_CODE_SPACE_START`, `HEAP_SPACE_START` and `SHARED_MEMORY_START`. -/
def PageType.start : PageType → Nat
  | .stackCode => 0
  | .heap => 128
  | .shared => 256

/-- `STACK_CODE_SPACE_END`, `HEAP_SPACE_END` and `SHARED_MEMORY_END`. -/
def PageType.stop : PageType → Nat
  | .stackCode => 127
  | .heap => 255
  | .shared => 511

/-- `STACK_FRAME_SIZE`, `HEAP_FRAME_SIZE` and `SHARED_FRAME_SIZE`. -/
def stackFrameSize : Nat := 128
def heapFrameSize : Nat := 128
def sharedFrameSize : Nat := 256

/-- `USERSPACE`. -/
def userspace : Nat := 1

/-- `page_table_link_list_t` of a level 0 table. -/
structure PageTableNode where
  table : Nat
  usage : Nat
  index : Nat
  deriving DecidableEq, Repr

/-- `page_table_link_list_t` of the level 1 table, with its children from
`head_page` to `tail_page`. -/
structure PageDirectory where
  table : Nat
  children : List PageTableNode
  usage : Nat
  stackUsage : Nat
  heapUsage : Nat
  sharedMemoryUsage : Nat
  deriving DecidableEq, Repr

/-- The level 1 indices of a type that are taken. -/
def PageDirectory.usageOf (d : PageDirectory) : PageType → Nat
  | .stackCode => d.stackUsage
  | .heap => d.heapUsage
  | .shared => d.sharedMemoryUsage

/-- One more of them. -/
def PageDirectory.take (d : PageDirectory) : PageType → PageDirectory
  | .stackCode => { d with usage := d.usage + 1, stackUsage := d.stackUsage + 1 }
  | .heap => { d with usage := d.usage + 1, heapUsage := d.heapUsage + 1 }
  | .shared => { d with usage := d.usage + 1, sharedMemoryUsage := d.sharedMemoryUsage + 1 }

/-- `shared_pages_proc_t`, at the address `node`. -/
structure SharedPagesProc where
  node : Word
  key : Word
  lvl2Index : Nat
  lvl1Index : Nat
  lvl0Index : Nat
  pageTable : Nat
  deriving DecidableEq, Repr

/-- `released_pages_t`. -/
structure ReleasedPage where
  lvl2Index : Nat
  lvl1Index : Nat
  lvl0Index : Nat
  pageTable : Nat
  deriving DecidableEq, Repr

/-- The fields of `process` about its memory. `sharedPages` is the list of the
wrapper, from the head to the tail. -/
structure ProcessMemory where
  pageTableLevel2 : Nat
  pageTablesLvl1List : Option PageDirectory
  stackShift : Nat
  procSharedHashTable : Option HashTable
  sharedPages : Option (List SharedPagesProc)
  releasedPagesList : List ReleasedPage
  sscratchFrame : Nat

/-- `shared_page_t`, without the counter value it was given. -/
structure SharedPage where
  pageKey : Word
  pageAddress : Nat
  usage : Int
  deriving DecidableEq, Repr

/-- The physical memory, the memory fields of the processes, and the globals of
`memory_api.c`. `strings` is what the kernel's own strings hold. -/
structure MemoryState where
  pool : FramePool
  kernelBasePageTable : Nat
  procs : Ptr → Option ProcessMemory
  sharedMemoryHashTable : Option HashTable
  pages : Word → Option SharedPage
  strings : Strings

/-- Why the memory code cannot go on. -/
inductive MemoryFault where
  | nullPointer
  | assert
  | hang
  deriving DecidableEq, Repr

/-- A function of the memory code. -/
abbrev MemoryM := StateT MemoryState (Except MemoryFault)

/-- The memory fields of a process. -/
def procMemory (p : Ptr) : MemoryM ProcessMemory := do
  match (← get).procs p with
  | some m => pure m
  | none => throw .nullPointer

/-- The state with the memory fields of a process written. -/
def MemoryState.setProc (s : MemoryState) (p : Ptr) (m : ProcessMemory) : MemoryState :=
  { s with procs := Function.update s.procs p (some m) }

/-- The memory fields of a process are written. -/
def setProcMemory (p : Ptr) (m : ProcessMemory) : MemoryM Unit := modify (·.setProc p m)

/-- The state with the bytes of the memory written. -/
def MemoryState.setMem (s : MemoryState) (mem : Memory) : MemoryState := { s with pool := { s.pool with mem := mem } }

/-- `get_frame` on the state. -/
def takeFrame : MemoryM Nat := do
  let (frame, pool) := getFrame (← get).pool
  modify fun s => { s with pool := pool }
  pure frame

/-- `create_page_table` on the state. -/
def takePageTable : MemoryM Nat := do
  let (table, pool) := createPageTable (← get).pool
  modify fun s => { s with pool := pool }
  pure table

/-! ## Reserving -/

/-- The loop of `add_frame_to_process`: the first table of the type with a free
entry, and the children with that entry taken. -/
def findRoom (type : PageType) : List PageTableNode → Option (PageTableNode × List PageTableNode)
  | [] => none
  | node :: rest =>
    if type.start ≤ node.index ∧ node.index ≤ type.stop ∧ node.usage < ptSize then
      some (node, { node with usage := node.usage + 1 } :: rest)
    else (findRoom type rest).map fun (found, rest) => (found, node :: rest)

/-- `add_child_node_page_table`, with `configure_page_table_linked_list_entry`;
`nodeOk` tells whether `malloc` has the memory for the node. The new child, or
`none` for -1. -/
def addChildNodePageTable (d : PageDirectory) (type : PageType) (nodeOk : Bool) :
    MemoryM (Option (PageTableNode × PageDirectory)) := do
  if d.usage ≥ ptSize ∨ d.stackUsage ≥ stackFrameSize ∨ d.heapUsage ≥ heapFrameSize ∨
      d.sharedMemoryUsage ≥ sharedFrameSize then pure none
  else
    let table ← takePageTable
    if table = 0 then pure none
    else if nodeOk = false then pure none
    else
      let node := ⟨table, 0, type.start + d.usageOf type⟩
      pure (some (node, { d.take type with children := d.children ++ [node] }))

/-- The indices `add_frame_to_process` writes into the tail of the shared pages. -/
def SharedPagesProc.place (page : SharedPagesProc) (node : PageTableNode) : SharedPagesProc :=
  { page with
    lvl0Index := node.usage
    lvl1Index := node.index
    lvl2Index := userspace
    pageTable := node.table }

/-- The shared pages with the tail placed; `none` if there is no tail. -/
def placeTail (node : PageTableNode) : Option (List SharedPagesProc) → Option (List SharedPagesProc)
  | none => none
  | some pages => match pages.getLast? with
    | none => none
    | some tail => some (pages.dropLast ++ [tail.place node])

/-- `add_frame_to_process`. -/
def addFrameToProcess (p : Ptr) (type : PageType) (nodeOk : Bool) : MemoryM Int := do
  let m ← procMemory p
  match m.pageTablesLvl1List with
  | none => pure (-1)
  | some d =>
    match findRoom type d.children with
    | some (node, children) =>
      if type = .shared then
        match placeTail node m.sharedPages with
        | none => pure (-1)
        | some pages =>
          setProcMemory p { m with
            pageTablesLvl1List := some { d with children := children }, sharedPages := some pages }
          pure 0
      else
        setProcMemory p { m with pageTablesLvl1List := some { d with children := children } }
        pure 0
    | none =>
      match ← addChildNodePageTable d type nodeOk with
      | none => pure (-1)
      | some (node, d') =>
        let used := { d' with children := d.children ++ [{ node with usage := 1 }] }
        if type = .shared then
          match placeTail node m.sharedPages with
          | none =>
            setProcMemory p { m with pageTablesLvl1List := some d' }
            pure (-1)
          | some pages =>
            -- `link_lvl1_table_shared_page`
            modify fun s => s.setMem
              (configurePte s.pool.mem d.table node.index node.table false false false true .kilo)
            setProcMemory p { m with pageTablesLvl1List := some used, sharedPages := some pages }
            pure 0
        else
          setProcMemory p { m with pageTablesLvl1List := some used }
          pure 0

/-- One of the loops of `add_frames_process`: at least one frame, and more until
`size` is used up. `shift` tells whether the frames count for the stack pointer;
`nodeOk n` is the answer of `malloc` for the node of the `n`th child. -/
def addFramesLoop (p : Ptr) (type : PageType) (shift : Bool) (nodeOk : Nat → Bool) (size : Int) : MemoryM Int := do
  let children := ((← procMemory p).pageTablesLvl1List.map (·.children.length)).getD 0
  if (← addFrameToProcess p type (nodeOk children)) < 0 then pure (-1)
  else
    if shift then
      let m ← procMemory p
      setProcMemory p { m with stackShift := (m.stackShift + 1) % 2 ^ 16 }
    if size - frameSize > 0 then addFramesLoop p type shift nodeOk (size - frameSize)
    else pure 0
termination_by size.toNat
decreasing_by
  unfold frameSize at *
  omega

/-- `add_frames_process`, with `USER_PROCESSES_ON`. -/
def addFramesProcess (p : Ptr) (codeSize heapSize sizeStack : Int) (nodeOk : Nat → Bool) : MemoryM Int := do
  if (← addFramesLoop p .stackCode true nodeOk codeSize) < 0 then pure (-1)
  else if (← addFramesLoop p .stackCode true nodeOk sizeStack) < 0 then pure (-1)
  else if (← addFramesLoop p .heap false nodeOk heapSize) < 0 then pure (-1)
  else pure 0

/-! ## Allocating -/

/-- `writing_data`, `data_pointer` and `data_left`. -/
structure Writing where
  writingData : Bool
  dataPointer : Nat
  dataLeft : Int
  deriving DecidableEq, Repr

/-- What the inner loop of `allocate_memory_final` does to the bytes of a frame.
In the turn that finds that everything was written, it does nothing. -/
def fillFrame (w : Writing) (mem : Memory) (frame : Nat) : Writing × Memory :=
  if w.writingData then
    if w.dataLeft < 0 then ({ w with writingData := false }, mem)
    else (⟨true, w.dataPointer + frameSize, w.dataLeft - frameSize⟩, memcpy mem frame w.dataPointer frameSize)
  else (w, memset mem frame 0 frameSize)

/-- The inner loop of `allocate_memory_final`, over the entries of one table from
`index` on; `none` for -1. -/
def allocateEntries (table : Nat) : Nat → Nat → Writing → MemoryM (Option Writing)
  | 0, _, w => pure (some w)
  | n + 1, index, w => do
    let frame ← takeFrame
    if frame = 0 then pure none
    else
      let (w, mem) := fillFrame w (← get).pool.mem frame
      modify (·.setMem (configurePte mem table index frame true true w.writingData true .kilo))
      allocateEntries table n (index + 1) w

/-- The outer loop of `allocate_memory_final`, over the level 0 tables from the
level 1 index `index` on. -/
def allocateTables (directory : Nat) : Nat → Nat → List PageTableNode → Writing → MemoryM Int
  | 0, _, _, _ => pure 0
  | _ + 1, _, [], _ => throw .nullPointer
  | n + 1, index, node :: rest, w => do
    if node.index ≠ index then throw .assert
    else if node.table = 0 then pure (-1)
    else
      modify fun s => s.setMem (configurePte s.pool.mem directory index node.table false false false true .kilo)
      match ← allocateEntries node.table node.usage 0 w with
      | none => pure (-1)
      | some w => allocateTables directory n (index + 1) rest w

/-- `allocate_memory_final`; `data` is `NULL` or where the code is. -/
def allocateMemoryFinal (p : Ptr) (startIndex endIndex : Nat) (data : Option Nat) (dataSize : Int) : MemoryM Int := do
  match (← procMemory p).pageTablesLvl1List with
  | none => pure (-1)
  | some d =>
    let w : Writing := match data with
      | some a => if dataSize ≠ 0 then ⟨true, a, dataSize⟩ else ⟨false, 0, 0⟩
      | none => ⟨false, 0, 0⟩
    match d.children.dropWhile (fun node => node.index ≠ startIndex) with
    | [] => pure (-1)
    | nodes => allocateTables d.table (endIndex - startIndex) startIndex nodes w

/-- `process_frames_alloc`, with `USER_PROCESSES_ON`. -/
def processFramesAlloc {r : Region} (p : Ptr) (app : App r) : MemoryM Int := do
  match (← procMemory p).pageTablesLvl1List with
  | none => throw .nullPointer
  | some d =>
    if (← allocateMemoryFinal p PageType.stackCode.start (PageType.stackCode.start + d.stackUsage) (some app.start)
        app.codeSize) < 0 then pure (-1)
    else if (← allocateMemoryFinal p PageType.heap.start (PageType.heap.start + d.heapUsage) none 0) < 0 then pure (-1)
    else pure 0

/-- The answers of `malloc` during `process_memory_allocator`: for the level 1
node, and for the node of the `n`th child. -/
structure NodesEnv where
  lvl1 : Bool
  child : Nat → Bool

/-- `process_memory_allocator`, with `USER_PROCESSES_ON`. -/
def processMemoryAllocator {r : Region} (p : Ptr) (app : App r) (size : Nat) (env : NodesEnv) : MemoryM Int := do
  if size > gigapageSize then pure (-1)
  else
    let m ← procMemory p
    setProcMemory p { m with stackShift := 0 }
    let level2 ← takePageTable
    if level2 = 0 then pure (-1)
    else
      setProcMemory p { m with stackShift := 0, pageTableLevel2 := level2 }
      modify fun s => s.setMem (memcpy s.pool.mem level2 s.kernelBasePageTable frameSize)
      let level1 ← takePageTable
      if level1 = 0 then pure (-1)
      else
        setProcMemory p { m with
          stackShift := 0
          pageTableLevel2 := level2
          pageTablesLvl1List := if env.lvl1 then some ⟨level1, [], 0, 0, 0, 0⟩ else none }
        modify fun s => s.setMem (configurePte s.pool.mem level2 userspace level1 false false false true .kilo)
        if (← addFramesProcess p app.codeSize 1 size env.child) < 0 then pure (-1)
        else if (← processFramesAlloc p app) < 0 then pure (-1)
        else pure 0

/-- The record of a process as `start_virtual` hands it to the allocator. -/
def ProcessMemory.blank : ProcessMemory := ⟨0, none, 0, none, none, [], 0⟩

/-- The part of `start_virtual` about memory, for the process `p`: the pages, the
context and the interrupt frame. -/
def startMemory {r : Region} (p : Ptr) (app : App r) (size : Nat) (env : NodesEnv) (contextOk : Bool) : MemoryM Int := do
  setProcMemory p .blank
  if (← processMemoryAllocator p app size env) < 0 then pure (-1)
  else if contextOk = false then pure (-1)
  else
    let frame ← takeFrame
    if frame = 0 then pure (-1)
    else
      let m ← procMemory p
      setProcMemory p { m with sscratchFrame := frame }
      pure 0

end Xinul
