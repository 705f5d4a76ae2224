import Mathlib.Algebra.Group.Nat.Defs
import Mathlib.Algebra.Group.Int.Defs
import Mathlib.Logic.Function.Basic
import Xinul.Lib.Wp

/-!
# The kernel's data model

The records of `process.h`, `semaphore_api.h` and `msgqueue.h`, the globals of
`src/kernel`, and the state-and-fault programs the kernel functions become.

Pointers to `process` records are numbers handed out in increasing order and
never reused; `heap p = none` is a record that was freed or never allocated,
and reading it is a fault, so a run stops at its first access to a freed
record. The pair `next_prev` of a record is `none` for two `NULL` links and
otherwise the head of the one list the record is chained in; the lists
themselves are kept in `queue`, in `next` order from the head. The nodes of
a semaphore's blocked list are records of their own, and a read of a freed node
through a stale `head_blocked` sees what the node held. `fREe` of `malloc.c`
writes its list pointer over `blocked_process`, which no run reads in which
nobody is killed in the middle of a blocked list.

The page tables, frames and shared pages of a process are the subject of
another model; here a process record ends where scheduling does.
-/

namespace Xinul

/-- A `process *`. -/
abbrev Ptr := Nat

/-- A `blocked_process_semaphore_t *`. -/
abbrev NodePtr := Nat

/-- A `msg_queue_t *`. -/
abbrev QueuePtr := Nat

/-- `process_state`. -/
inductive ProcessState where
  | actif
  | activatable
  | blockedSemaphore
  | blockedIo
  | blockedQueue
  | blockedWaitChild
  | asleep
  | zombie
  | killed
  deriving DecidableEq, Repr

/-- The states `validate_action_process_valid` refuses. -/
def ProcessState.dead : ProcessState → Bool
  | .zombie => true
  | .killed => true
  | _ => false

/-- The `link` heads a process can be chained to: the four of `scheduler.c` and
the two of every message queue. -/
inductive QueueHead where
  | activatable
  | asleep
  | blockedIo
  | dead
  | blockedCons (q : QueuePtr)
  | blockedProd (q : QueuePtr)
  deriving DecidableEq, Repr

/-- `message_status`. -/
inductive MessageStatus where
  | received
  | error
  | sent
  deriving DecidableEq, Repr

/-- An `int *` of a user program: `NULL`, to memory it may write, or to a page it does
not have. -/
inductive UserPtr where
  | null
  | mapped
  | unmapped
  deriving DecidableEq, Repr

/-- `message_t`. -/
structure Message where
  value : Int
  status : MessageStatus
  blockedHead : Option QueueHead
  deriving DecidableEq, Repr

/-- What a system call gives the user: the value of `a0`, and what it stored
through its result pointer. -/
structure Answer where
  value : Int
  written : List Int
  deriving DecidableEq, Repr

/-- `context_process`: where the process goes on when it is switched to. A
kernel function that called `scheduler` goes on after the call. -/
inductive Context where
  /-- Back to user mode, with the answer of a system call if there was one. -/
  | user (answer : Option Answer)
  /-- `start_virtual`, after the `scheduler` at its end, with `new_process`. -/
  | start (newProcess : Ptr)
  /-- `psend`, after the `scheduler` of its full branch. -/
  | psend
  /-- `preceive`, after the `scheduler` of its empty branch. -/
  | preceive (message : UserPtr)
  /-- `wait`, after its `scheduler`. -/
  | wait
  /-- `waitpid` with a negative pid, at the end of a turn of its loop. -/
  | waitpidAny (retvalp : Bool)
  /-- `waitpid` for one child, with the two pointers it holds. -/
  | waitpidChild (tempProcess tempProcessBefore : Ptr) (retvalp : Bool)
  /-- `cons_read`, at the end of a turn of its loop. -/
  | consRead (length : Nat)
  /-- `strap_handler`, between the two timer handlers it runs on `virt`. -/
  | stimer
  /-- `exit_process`, after its `scheduler`. -/
  | exitProcess
  /-- `kill` of the running process, after `exit_process`. -/
  | killSelf (processPid : Ptr) (pid : Int)
  /-- The same `kill`, called by `strap_handler` on a page fault. -/
  | pageFault (processPid : Ptr) (pid : Int)
  deriving DecidableEq, Repr

/-- `process`, without the fields of the memory model. Two fields are history
variables: `stamp` is the number of the insertion that put the process in the
waiting list it is in, `started` tells whether `start_virtual` came to its end for
the record. -/
structure Process where
  pid : Int
  state : ProcessState
  prio : Nat
  context : Context
  parent : Option Ptr
  childrenHead : Option Ptr
  childrenTail : Option Ptr
  nextSibling : Option Ptr
  nextPrev : Option QueueHead
  returnValue : Int
  wakeTime : Int
  message : Message
  semSignal : Int
  semaphoreId : Int
  stamp : Nat
  started : Bool
  deriving DecidableEq, Repr

/-- `blocked_process_semaphore_t`. -/
structure Node where
  blockedProcess : Ptr
  nextBlockStruct : Option NodePtr
  deriving DecidableEq, Repr

/-- `list_semaphore_header_t`. -/
structure SemaphoreHeader where
  headBlocked : Option NodePtr
  tailBlocked : Option NodePtr
  deriving DecidableEq, Repr

/-- `semaphore_t`; `count` is an `int16_t`. -/
structure Semaphore where
  count : Int
  listHeaderProcess : Option SemaphoreHeader
  deriving DecidableEq, Repr

/-- `msg_queue_t`; its two list heads are `QueueHead.blockedCons` and
`QueueHead.blockedProd`. `accepted` and `delivered` are history variables: the
messages the queue took and the messages it handed to a receiver, in order,
since it was created or last reset. A message that is taken off the queue for a
receiver whose pointer leads nowhere is not delivered. -/
structure MsgQueue where
  msgArr : Nat → Int
  size : Nat
  numberOfMsgs : Nat
  iffc : Nat
  accepted : List Int
  delivered : List Int

/-- The part of `console_device_t` the ring of typed characters lives in. -/
structure Console where
  buffer : Nat → UInt8
  lastWrittenCharIndex : Int
  startOfBufferIndex : Int
  echo : Bool

/-- The ways the kernel stops. -/
inductive Fault where
  /-- A read or write of a `process` record that was freed. -/
  | useAfterFree (p : Ptr)
  /-- A read or write through a null pointer. -/
  | nullPointer
  /-- The assertion of `queue_add`: both links of the element are null. -/
  | queueAddAssert (p : Ptr)
  /-- The assertion of `queue_del`: both links of the element are non-null. -/
  | queueDelAssert (p : Ptr)
  /-- The assertion of `get_next_wake_time`. -/
  | wakeTimeAssert
  /-- The assertion of `copy` in `cons_read.c`. -/
  | copyAssert
  /-- A use of a message queue that was freed or never filled in. -/
  | badQueue
  /-- Signed overflow of an `int` counter. -/
  | overflow
  /-- `exit(-1)`. -/
  | exit
  /-- A loop that does not end. -/
  | hang
  deriving DecidableEq, Repr

/-- The globals. `symbolsTable` holds the names of the programs the build links
in, `virt` is `VIRTMACHINE`, and `insertions` counts insertions in waiting
lists for `Process.stamp`. -/
structure Kernel where
  heap : Ptr → Option Process
  nextPtr : Ptr
  pidProcessHashTable : Int → Option Ptr
  currentRunningProcessPid : Int
  pidIterator : Int
  nbProcRunning : Int
  processIdList : List Int
  queue : QueueHead → List Ptr
  startedUserProcess : Bool
  semaphoreTable : Int → Option Semaphore
  semaphoreIdCounter : Int
  currentlyRunningSemaphores : Int
  parentBlock : Bool
  node : NodePtr → Option Node
  nextNode : NodePtr
  allQueues : Nat → Option QueuePtr
  msgQueue : QueuePtr → Option MsgQueue
  nextQueue : QueuePtr
  counter : Nat
  console : Console
  symbolsTable : List (List UInt8)
  virt : Bool
  insertions : Nat

/-- A kernel function: it runs from the globals and returns or stops. -/
abbrev KernelM := StateT Kernel (Except Fault)

/-! ## Constants -/

/-- `MAXPRIO`. -/
def maxPrio : Int := 256
/-- `MINPRIO`. -/
def minPrio : Int := 1
/-- `MAX_NB_PROCESS`. -/
def maxNbProcess : Int := 1000
/-- `MAX_SIZE_NAME`. -/
def maxSizeName : Nat := 256
/-- `PROCESS_SETUP_SIZE`. -/
def processSetupSize : Nat := 2
/-- `idleId`. -/
def idleId : Int := 1
/-- `kernelId`. -/
def kernelId : Int := 0
/-- `GIGAPAGE_SIZE`. -/
def gigapageSize : Nat := 2 ^ 30
/-- `MAX_COUNT` of a semaphore. -/
def maxCount : Int := 32767
/-- `MIN_COUNT` of a semaphore. -/
def minCount : Int := -32768
/-- `NB_MAX_SEMS`. -/
def nbMaxSems : Int := 10000
/-- `NBQUEUES`. -/
def nbQueues : Nat := 100
/-- The limit of `secmalloc`. -/
def secmallocLimit : Nat := 2147483647
/-- `BUFFER_SIZE` of the console. -/
def bufferSize : Nat := 20
/-- `TIC_PER`. -/
def ticPer : Nat := 50

/-- A register read as an `int`. -/
def toInt32 (a : Int) : Int := Int.bmod a (2 ^ 32)
/-- A register or an `int` read as an `int16_t`. -/
def toInt16 (a : Int) : Int := Int.bmod a (2 ^ 16)

/-! ## Records -/

/-- Reading `*p`. -/
def deref (p : Ptr) : KernelM Process := do
  match (← get).heap p with
  | some r => pure r
  | none => throw (.useAfterFree p)

/-- Reading `*p` where `p` may be `NULL`. -/
def derefOpt (p : Option Ptr) : KernelM Process :=
  match p with
  | some p => deref p
  | none => throw .nullPointer

/-- The globals with `*p` replaced by `f *p`. -/
def Kernel.mapProc (s : Kernel) (p : Ptr) (f : Process → Process) : Kernel :=
  { s with heap := Function.update s.heap p ((s.heap p).map f) }

/-- Writing fields of `*p`. -/
def modifyProc (p : Ptr) (f : Process → Process) : KernelM Unit := do
  let _ ← deref p
  modify (·.mapProc p f)

/-- `hash_get(pid_process_hash_table, pid, NULL)`: the table is a finite map. -/
def getProcessStructOfPid (pid : Int) : KernelM (Option Ptr) := do
  pure ((← get).pidProcessHashTable pid)

/-- `getpid`. -/
def getpid : KernelM Int := do
  pure (← get).currentRunningProcessPid

/-- `get_current_process`. -/
def getCurrentProcess : KernelM (Option Ptr) := do
  getProcessStructOfPid (← getpid)

/-- `validate_action_process_valid`. -/
def validateActionProcessValid (p : Option Ptr) : KernelM Int := do
  match p with
  | none => pure (-1)
  | some p =>
    let r ← deref p
    if r.state = .zombie ∨ r.state = .killed then pure (-1) else pure 0

/-! ## `queue.h` -/

/-- The walk of `queue_add` over the list: it passes the elements whose field is
smaller than the new element's and stops before the first that is not. -/
def queueWalk (priofield : Process → Int) (e : Ptr) (v : Int) : List Ptr → KernelM (List Ptr)
  | [] => pure [e]
  | c :: l => do
    let r ← deref c
    if priofield r < v then
      let l' ← queueWalk priofield e v l
      pure (c :: l')
    else pure (e :: c :: l)

/-- The globals after the element `e` was chained into the list of `head`, which
is `l` now. -/
def Kernel.link (s : Kernel) (e : Ptr) (head : QueueHead) (l : List Ptr) : Kernel :=
  { s.mapProc e (fun r => { r with nextPrev := some head, stamp := s.insertions }) with
    queue := Function.update s.queue head l
    insertions := s.insertions + 1 }

/-- `queue_add`. -/
def queueAdd (e : Ptr) (head : QueueHead) (priofield : Process → Int) : KernelM Unit := do
  let r ← deref e
  if r.nextPrev ≠ none then throw (.queueAddAssert e)
  let l ← queueWalk priofield e (priofield r) ((← get).queue head)
  modify (·.link e head l)

/-- The globals after the element `e` was unchained from the list of `head`. -/
def Kernel.unlink (s : Kernel) (e : Ptr) (head : QueueHead) : Kernel :=
  { s.mapProc e (fun r => { r with nextPrev := none }) with
    queue := Function.update s.queue head ((s.queue head).erase e) }

/-- `queue_del`. -/
def queueDel (e : Ptr) : KernelM Unit := do
  let r ← deref e
  match r.nextPrev with
  | none => throw (.queueDelAssert e)
  | some head => modify (·.unlink e head)

/-- `queue_top`: the element before the head, the last in `next` order. -/
def queueTop (head : QueueHead) : KernelM (Option Ptr) := do
  pure ((← get).queue head).getLast?

/-- `queue_out`. -/
def queueOut (head : QueueHead) : KernelM (Option Ptr) := do
  match ((← get).queue head).getLast? with
  | none => pure none
  | some e =>
    let _ ← deref e
    modify (·.unlink e head)
    pure (some e)

/-- `queue_empty`. -/
def queueEmpty (head : QueueHead) : KernelM Bool := do
  pure ((← get).queue head).isEmpty

/-- The `prio` field, as the lists compare it. -/
def Process.prioField (r : Process) : Int := r.prio

end Xinul
