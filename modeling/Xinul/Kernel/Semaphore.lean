import Xinul.Kernel.Scheduler

/-!
# `semaphore_api.c`

The blocked list of a semaphore is built of nodes with a head and a tail
pointer; the functions below follow the pointers as the source does.
-/

namespace Xinul

/-- The values of `awake_signal_t`; `KILL_CALL` follows `SRESET_CALL = -4` in the
enumeration, so it is `-3`. -/
def signalCall : Int := 0
def sdeleteCall : Int := -3
def sresetCall : Int := -4
def killCall : Int := -3

/-- `get_semaphore_struct`. -/
def getSemaphoreStruct (sem : Int) : KernelM (Option Semaphore) := do
  pure ((← get).semaphoreTable sem)

/-- Reading `*sem_struct`. -/
def derefSem (sem : Int) : KernelM Semaphore := do
  match (← get).semaphoreTable sem with
  | some st => pure st
  | none => throw .nullPointer

/-- The globals with the semaphore `sem` replaced. -/
def Kernel.setSem (s : Kernel) (sem : Int) (st : Option Semaphore) : Kernel :=
  { s with semaphoreTable := Function.update s.semaphoreTable sem st }

/-- Writing fields of `*sem_struct`. -/
def modifySem (sem : Int) (f : Semaphore → Semaphore) : KernelM Unit := do
  let st ← derefSem sem
  modify (·.setSem sem (some (f st)))

/-- Reading a node of a blocked list. -/
def derefNode (n : NodePtr) : KernelM Node := do
  match (← get).node n with
  | some nd => pure nd
  | none => throw .nullPointer

/-- The globals with the node `n` replaced. -/
def Kernel.setNode (s : Kernel) (n : NodePtr) (nd : Node) : Kernel :=
  { s with node := Function.update s.node n (some nd) }

/-- `iter->next_block_struct = next`. -/
def setNextBlockStruct (n : NodePtr) (next : Option NodePtr) : KernelM Unit := do
  let nd ← derefNode n
  modify (·.setNode n { nd with nextBlockStruct := next })

/-- Writing `head_blocked` and `tail_blocked`. -/
def setHeader (sem : Int) (head tail : Option NodePtr) : KernelM Unit :=
  modifySem sem fun st => { st with listHeaderProcess := some ⟨head, tail⟩ }

/-- `malloc` of a node, which is taken to have the memory for it and for the header of the list,
and the node's two fields. -/
def newNode (p : Ptr) : KernelM NodePtr := do
  let n := (← get).nextNode
  modify fun s => { s.setNode n ⟨p, none⟩ with nextNode := n + 1 }
  pure n

/-- `while (iter->next_block_struct != tail) iter = iter->next_block_struct;` -/
def beforeTail (tail : Option NodePtr) : Nat → NodePtr → KernelM NodePtr
  | 0, _ => throw .hang
  | n + 1, iter => do
    let nd ← derefNode iter
    if nd.nextBlockStruct = tail then pure iter
    else match nd.nextBlockStruct with
      | none => throw .nullPointer
      | some next => beforeTail tail n next

/-- The last loop of `remove_proc_queue`: it stops at the first node whose
process does *not* have the pid, and unlinks it from its predecessor. -/
def removeMiddle (pid : Int) : Nat → Option NodePtr → NodePtr → KernelM (Option NodePtr)
  | 0, _, _ => throw .hang
  | _ + 1, none, _ => pure none
  | n + 1, some iter, iterPrev => do
    let nd ← derefNode iter
    if (← deref nd.blockedProcess).pid ≠ pid then
      setNextBlockStruct iterPrev nd.nextBlockStruct
      pure (some iter)
    else removeMiddle pid n nd.nextBlockStruct iter

/-- The end of `remove_proc_queue`, once the node was unlinked; its `free` is not seen. -/
def removeFinish (signal : Int) (blockedProc : NodePtr) : KernelM Int := do
  let p := (← derefNode blockedProc).blockedProcess
  modifyProc p fun r => { r with state := .activatable }
  if signal ≠ killCall then
    queueAdd p .activatable Process.prioField
  modifyProc p fun r => { r with semSignal := signal }
  pure 0

/-- `remove_proc_queue`. -/
def removeProcQueue (sem : Int) (signal pid : Int) : KernelM Int := do
  match (← derefSem sem).listHeaderProcess with
  | none => pure 1
  | some ⟨none, _⟩ => pure 1
  | some ⟨some head, tail⟩ =>
    let hd ← derefNode head
    if some head = tail then
      if (← deref hd.blockedProcess).pid = pid then
        setHeader sem none none
        removeFinish signal head
      else pure (-1)
    else if (← deref hd.blockedProcess).pid = pid then
      setHeader sem hd.nextBlockStruct tail
      removeFinish signal head
    else
      match tail with
      | none => throw .nullPointer
      | some tl =>
        if (← deref (← derefNode tl).blockedProcess).pid = pid then
          let iter ← beforeTail tail (← get).nextNode head
          setNextBlockStruct iter none
          setHeader sem (some head) (some iter)
          removeFinish signal tl
        else
          match ← removeMiddle pid ((← get).nextNode + 1) (some head) head with
          | none => pure (-1)
          | some blockedProc => removeFinish signal blockedProc

/-- `unblock_process_sem`. -/
def unblockProcessSem (sem : Int) (signal : Int) : KernelM Int := do
  match (← derefSem sem).listHeaderProcess with
  | none => pure 1
  | some ⟨none, _⟩ => pure 1
  | some ⟨some head, tail⟩ =>
    let hd ← derefNode head
    if some head = tail then setHeader sem none none
    else setHeader sem hd.nextBlockStruct tail
    modifyProc hd.blockedProcess fun r => { r with state := .activatable }
    queueAdd hd.blockedProcess .activatable Process.prioField
    modifyProc hd.blockedProcess fun r => { r with semSignal := signal }
    pure 0

/-- `while(unblock_process_sem(sem_struct, signal) != 1);` -/
def unblockAll (sem : Int) (signal : Int) : Nat → KernelM Unit
  | 0 => throw .hang
  | n + 1 => do
    if (← unblockProcessSem sem signal) ≠ 1 then unblockAll sem signal n else pure ()

/-- `scount`: the count as 16 bits. -/
def scount (sem : Int) : KernelM Unit := do
  match ← getSemaphoreStruct sem with
  | none => answer (-1) []
  | some st => answer (st.count % 2 ^ 16) []

/-- `screate`; `semOk` tells whether `malloc` has the memory for the `semaphore_t`. -/
def screate (count : Int) (semOk : Bool) : KernelM Unit := do
  if count < 0 then answer (-1) []
  else if (← get).currentlyRunningSemaphores = nbMaxSems then answer (-1) []
  else if semOk = false then answer (-1) []
  else
    let id := (← get).semaphoreIdCounter
    if id = 2 ^ 31 - 1 then throw .overflow
    modify fun s => { s.setSem (id + 1) (some ⟨toInt16 count, none⟩) with
      parentBlock := false
      semaphoreIdCounter := id + 1
      currentlyRunningSemaphores := s.currentlyRunningSemaphores + 1 }
    answer (id + 1) []

/-- The walk of `wait` to the first blocked process of a smaller priority, with
its predecessor. -/
def waitWalk (currentPrio : Nat) : Nat → Option NodePtr → NodePtr →
    KernelM (Option (NodePtr × NodePtr))
  | 0, _, _ => throw .hang
  | _ + 1, none, _ => pure none
  | n + 1, some iter, iterPrev => do
    let nd ← derefNode iter
    if currentPrio > (← deref nd.blockedProcess).prio then pure (some (iter, iterPrev))
    else waitWalk currentPrio n nd.nextBlockStruct iter

/-- The insertion of the node `blocked` in the list of `sem`. -/
def waitInsert (sem : Int) (blocked : NodePtr) (currentPrio : Nat) : KernelM Unit := do
  let st ← derefSem sem
  let h := st.listHeaderProcess.getD ⟨none, none⟩
  if h.headBlocked = none ∧ h.tailBlocked = none then
    setHeader sem (some blocked) (some blocked)
  else match h.headBlocked with
    | none => match h.tailBlocked with
      | none => throw .nullPointer
      | some tail =>
        setNextBlockStruct tail (some blocked)
        setHeader sem none (some blocked)
    | some head =>
      match ← waitWalk currentPrio ((← get).nextNode + 1) (some head) head with
      | some (iter, iterPrev) =>
        setNextBlockStruct blocked (some iter)
        if iter = head then setHeader sem (some blocked) h.tailBlocked
        else setNextBlockStruct iterPrev (some blocked)
      | none => match h.tailBlocked with
        | none => throw .nullPointer
        | some tail =>
          setNextBlockStruct tail (some blocked)
          setHeader sem (some head) (some blocked)

/-- The globals with the process `p` marked as blocked on the semaphore `sem`. -/
def Kernel.markBlocked (s : Kernel) (p : Ptr) (sem : Int) : Kernel :=
  { s.mapProc p (fun r => { r with semaphoreId := sem, state := .blockedSemaphore, stamp := s.insertions }) with
    insertions := s.insertions + 1 }

/-- `wait`, up to its `scheduler`. -/
def wait (sem : Int) : KernelM Unit := do
  match ← getSemaphoreStruct sem with
  | none => answer (-1) []
  | some st =>
    match ← getCurrentProcess with
    | none => answer (-1) []
    | some p =>
      modifyProc p fun r => { r with semSignal := 0 }
      if st.count = minCount then answer (-2) []
      else
        modifySem sem fun st => { st with count := st.count - 1 }
        if st.count - 1 < 0 then
          let blocked ← newNode p
          waitInsert sem blocked (← deref p).prio
          modify (·.markBlocked p sem)
        schedule .wait

/-- `wait`, after its `scheduler`. -/
def waitResume : KernelM Unit := do
  let r ← derefOpt (← getCurrentProcess)
  answer r.semSignal []

/-- `proc_kill_diag`. -/
def procKillDiag (sem : Int) (pid : Int) : KernelM Int := do
  match ← getSemaphoreStruct sem with
  | none => pure (-1)
  | some st =>
    if st.count = maxCount then pure (-2)
    else
      modifySem sem fun st => { st with count := st.count + 1 }
      if st.count + 1 ≤ 0 then
        let _ ← removeProcQueue sem killCall pid
      pure 0

/-- `signal`, up to its `scheduler`. -/
def signalStep (sem : Int) : KernelM Int := do
  match ← getSemaphoreStruct sem with
  | none => pure (-1)
  | some st =>
    if st.count = maxCount then pure (-2)
    else
      modifySem sem fun st => { st with count := st.count + 1 }
      if st.count + 1 ≤ 0 then
        let _ ← unblockProcessSem sem signalCall
      pure 0

/-- `signal`. -/
def signal (sem : Int) : KernelM Unit := do
  let v ← signalStep sem
  if v ≠ 0 then answer v []
  else if (← get).parentBlock = false then scheduleAnswer 0 []
  else answer 0 []

/-- `sdelete`. -/
def sdelete (sem : Int) : KernelM Unit := do
  match ← getSemaphoreStruct sem with
  | none => answer (-1) []
  | some _ =>
    unblockAll sem sdeleteCall ((← get).nextNode + 1)
    modify fun s => { s.setSem sem none with
      currentlyRunningSemaphores := s.currentlyRunningSemaphores - 1 }
    scheduleAnswer 0 []

/-- `sreset`. -/
def sreset (sem count : Int) : KernelM Unit := do
  match ← getSemaphoreStruct sem with
  | none => answer (-1) []
  | some _ =>
    if count < 0 then answer (-1) []
    else
      unblockAll sem sresetCall ((← get).nextNode + 1)
      modifySem sem fun st => { st with count := toInt16 count }
      scheduleAnswer 0 []

/-- `try_wait`. -/
def tryWait (sem : Int) : KernelM Unit := do
  match ← getSemaphoreStruct sem with
  | none => answer (-1) []
  | some st =>
    if st.count > 0 then
      modifySem sem fun st => { st with count := st.count - 1 }
      scheduleAnswer 0 []
    else answer (-3) []

/-- The loop of `signaln`; `parent_block` keeps `signal` from calling `scheduler`. -/
def signalnLoop (sem : Int) : Nat → KernelM Int
  | 0 => pure 0
  | n + 1 => do
    let val ← signalStep sem
    if val ≠ 0 then pure val else signalnLoop sem n

/-- `signaln`. -/
def signaln (sem count : Int) : KernelM Unit := do
  match ← getSemaphoreStruct sem with
  | none => answer (-1) []
  | some st =>
    if count < 0 then answer (-1) []
    else if st.count + count > maxCount then answer (-2) []
    else
      modify fun s => { s with parentBlock := true }
      let val ← signalnLoop sem count.toNat
      if val ≠ 0 then answer val []
      else
        modify fun s => { s with parentBlock := false }
        scheduleAnswer 0 []

end Xinul
