import Xinul.Kernel.Semaphore

/-!
# `process_api.c`
-/

namespace Xinul

/-! ## Priorities -/

/-- `getprio`. -/
def getprio (pid : Int) : KernelM Int := do
  let p ← getProcessStructOfPid pid
  if (← validateActionProcessValid p) < 0 then pure (-1)
  else pure (← derefOpt p).prio

/-- A list head is used. The heads of a message queue lie inside the `msg_queue_t`,
which may have been freed. -/
def touchHead : QueueHead → KernelM Unit
  | .blockedCons q | .blockedProd q => do
    match (← get).msgQueue q with
    | some _ => pure ()
    | none => throw .badQueue
  | _ => pure ()

/-- `chprio`. The case `ACTIVATABLE` falls through to `ACTIF`. -/
def chprio (pid newprio : Int) : KernelM Unit := do
  match ← getProcessStructOfPid pid with
  | none => answer (-1) []
  | some p =>
    if newprio > maxPrio ∨ newprio < minPrio then answer (-1) []
    else if (← validateActionProcessValid (some p)) < 0 then answer (-1) []
    else
      let old := (← deref p).prio
      modifyProc p fun r => { r with prio := newprio.toNat }
      let r ← deref p
      match r.state with
      | .activatable =>
        queueDel p
        queueAdd p .activatable Process.prioField
        scheduleAnswer old []
      | .actif => scheduleAnswer old []
      | .blockedQueue =>
        queueDel p
        match r.message.blockedHead with
        | none => throw .nullPointer
        | some head =>
          touchHead head
          queueAdd p head Process.prioField
          answer old []
      | .blockedIo =>
        queueDel p
        queueAdd p .blockedIo Process.prioField
        answer old []
      | _ => answer old []

/-! ## Termination -/

/-- `leave_queue_process_if_needed`. -/
def leaveQueueProcessIfNeeded (p : Ptr) : KernelM Int := do
  let r ← deref p
  if r.state = .blockedSemaphore then
    if (← procKillDiag r.semaphoreId r.pid) < 0 then pure (-1) else pure 0
  else
    queueDel p
    pure 0

/-- `free_child_zombie_process`. -/
def freeChildZombieProcess (p : Ptr) : KernelM Int := do
  let r ← deref p
  if r.state ≠ .zombie then pure (-1)
  else if r.pid = (← getpid) then
    modifyProc p fun r => { r with state := .killed }
    pure 0
  else freeProcessMemory p

/-- The loop of `make_children_orphans_and_kill_zombies` from the child `temp` on,
with the recursive call on each zombie. The result of that call is dropped, and
so is everything the parent keeps about its children. -/
def killZombies : Nat → Option Ptr → KernelM Int
  | 0, _ => throw .hang
  | _ + 1, none => pure 0
  | n + 1, some temp => do
    let r ← deref temp
    if r.state = .zombie then
      let _ ← if r.childrenHead = none ∧ r.childrenTail = none then pure 0
        else killZombies n r.childrenHead
      let next := (← deref temp).nextSibling
      if (← freeChildZombieProcess temp) < 0 then pure (-1)
      else killZombies n next
    else killZombies n r.nextSibling

/-- `make_children_orphans_and_kill_zombies`; a sibling or a child is younger than
the record that points to it, which bounds the walk. -/
def makeChildrenOrphansAndKillZombies (p : Ptr) : KernelM Int := do
  let r ← deref p
  if r.childrenHead = none ∧ r.childrenTail = none then pure 0
  else killZombies ((← get).nextPtr + 1) r.childrenHead

/-- `turn_current_process_into_a_zombie_or_kill_it`. -/
def turnCurrentProcessIntoAZombieOrKillIt (currentOrCustom : Bool) (pid : Int) : KernelM Int := do
  let running ← getpid
  match ← getProcessStructOfPid (if currentOrCustom then running else pid) with
  | none => pure (-1)
  | some p =>
    if (← makeChildrenOrphansAndKillZombies p) < 0 then pure (-1)
    else
      modifyProc p fun r => { r with state := .zombie }
      match (← deref p).parent with
      | none => freeChildZombieProcess p
      | some parent =>
        let pr ← deref parent
        if pr.state = .zombie then freeChildZombieProcess p
        else if pr.state = .blockedWaitChild then
          modifyProc parent fun r => { r with state := .activatable }
          queueAdd parent .activatable Process.prioField
          pure 0
        else pure 0

/-- `exit_process`, its caller going on in `after`. -/
def exitProcess (retval : Int) (after : Context) : KernelM Unit := do
  if (← validateActionProcessValid (← getCurrentProcess)) < 0 then throw .exit
  else if (← turnCurrentProcessIntoAZombieOrKillIt true 0) < 0 then throw .exit
  else match ← getCurrentProcess with
    | none => throw .nullPointer
    | some p =>
      modifyProc p fun r => { r with returnValue := retval }
      schedule after

/-- `kill`, once it is not the running process that is killed. -/
def killOther (processPid : Ptr) (pid : Int) : KernelM Int := do
  if (← leaveQueueProcessIfNeeded processPid) < 0 then pure (-1)
  else if (← turnCurrentProcessIntoAZombieOrKillIt false pid) < 0 then pure (-1)
  else
    modifyProc processPid fun r => { r with returnValue := 0 }
    pure 0

/-- `kill`, with what follows it: `after` in the running process's place if that
is the one killed, else `finish` on its result. -/
def killWith (pid : Int) (after : Ptr → Context) (finish : Int → KernelM Unit) : KernelM Unit := do
  if pid = idleId ∨ pid = kernelId then finish (-1)
  else match ← getProcessStructOfPid pid with
    | none => finish (-1)
    | some p =>
      if (← validateActionProcessValid (some p)) < 0 then finish (-1)
      else if (← deref p).pid = (← getpid) then exitProcess 0 (after p)
      else finish (← killOther p pid)

/-- `kill`. -/
def kill (pid : Int) : KernelM Unit :=
  killWith pid (fun p => .killSelf p pid) (fun v => answer v [])

/-- A page fault of the running process: `kill(getpid()); scheduler();`. -/
def pageFault : KernelM Unit := do
  let pid ← getpid
  killWith pid (fun p => .pageFault p pid) (fun _ => schedule (.user none))

/-! ## Children -/

/-- The two loops of `waitpid` over the children: from `temp` to the first one
that satisfies `found`, with the child before it. -/
def findChild (found : Process → Bool) : Nat → Option Ptr → Ptr → KernelM (Option (Ptr × Ptr))
  | 0, _, _ => throw .hang
  | _ + 1, none, _ => pure none
  | n + 1, some temp, before => do
    let r ← deref temp
    if found r then pure (some (temp, before))
    else findChild found n r.nextSibling temp

/-- The loop over all children of the running process. -/
def findCurrentChild (found : Process → Bool) : KernelM (Option (Ptr × Ptr)) := do
  match (← derefOpt (← getCurrentProcess)).childrenHead with
  | none => pure none
  | some head => findChild found ((← get).nextPtr + 1) (some head) head

/-- `free_process_arg_and_fix_tree_link`. -/
def freeProcessArgAndFixTreeLink (p before : Ptr) : KernelM Int := do
  let r ← deref p
  match r.parent with
  | none => pure (-1)
  | some parent =>
    let pr ← deref parent
    if pr.childrenHead = none ∨ pr.childrenTail = none then pure (-1)
    else
      if some p = pr.childrenHead ∧ some p = pr.childrenTail then
        modifyProc parent fun r => { r with childrenTail := none, childrenHead := none }
      else if some p = pr.childrenHead then
        modifyProc parent fun q => { q with childrenHead := r.nextSibling }
      else if some p = pr.childrenTail then
        modifyProc before fun q => { q with nextSibling := none }
        modifyProc parent fun q => { q with childrenTail := some before }
      else
        modifyProc before fun q => { q with nextSibling := r.nextSibling }
      freeChildZombieProcess p

/-- The end of `waitpid`: the child `temp` is a zombie. -/
def waitpidFinish (temp before : Ptr) (retvalp : Bool) : KernelM Unit := do
  let r ← deref temp
  if (← freeProcessArgAndFixTreeLink temp before) < 0 then
    answer (-1) (if retvalp then [r.returnValue] else [])
  else answer r.pid (if retvalp then [r.returnValue] else [])

/-- The running process waits for a child. -/
def waitForChild (k : Context) : KernelM Unit := do
  match ← getCurrentProcess with
  | none => throw .nullPointer
  | some c =>
    modifyProc c fun r => { r with state := .blockedWaitChild }
    schedule k

/-- A turn of the loop of `waitpid` with a negative pid. -/
def waitpidAny (retvalp : Bool) : KernelM Unit := do
  match ← findCurrentChild (fun r => r.state = .zombie) with
  | some (temp, before) => waitpidFinish temp before retvalp
  | none => waitForChild (.waitpidAny retvalp)

/-- A turn of the loop of `waitpid` for the child `temp`. -/
def waitpidChild (temp before : Ptr) (retvalp : Bool) : KernelM Unit := do
  if (← deref temp).state = .zombie then waitpidFinish temp before retvalp
  else waitForChild (.waitpidChild temp before retvalp)

/-- `waitpid`. -/
def waitpid (pid : Int) (retvalp : Bool) : KernelM Unit := do
  let c ← derefOpt (← getCurrentProcess)
  if c.childrenHead = none ∧ c.childrenTail = none then answer (-1) []
  else if pid < 0 then waitpidAny retvalp
  else match ← findCurrentChild (fun r => r.pid = pid) with
    | none => answer (-1) []
    | some (temp, before) => waitpidChild temp before retvalp

/-! ## Creation -/

/-- What the memory allocators answer during one `start_virtual`: the record
`malloc` returns, with whatever its memory holds, and whether the name, the
pages, the context and the interrupt frame can be had. -/
structure StartEnv where
  record : Option Process
  nameOk : Bool
  memoryOk : Bool
  contextOk : Bool
  frameOk : Bool
  deriving DecidableEq, Repr

/-- `increment_pid_and_get_new_pid`. -/
def incrementPidAndGetNewPid : KernelM Int := do
  match (← get).processIdList with
  | id :: rest =>
    modify fun s => { s with processIdList := rest }
    pure id
  | [] =>
    modify fun s => { s with pidIterator := s.pidIterator + 1 }
    pure (← get).pidIterator

/-- `malloc` of the record, its first fields and `hash_set`. -/
def newRecord (garbage : Process) (prio : Int) : KernelM Ptr := do
  let pid ← incrementPidAndGetNewPid
  let p := (← get).nextPtr
  modify fun s => { s with
    heap := Function.update s.heap p (some { garbage with
      pid := pid, prio := prio.toNat, nextPrev := none, started := false })
    nextPtr := p + 1
    pidProcessHashTable := Function.update s.pidProcessHashTable pid (some p) }
  pure p

/-- The part of `start_virtual` after the record is in the table that can still
fail; `ssize` is a `uint32_t` in the record. -/
def startAllocs (name : List UInt8) (ssize : Nat) (env : StartEnv) : Bool :=
  name.length ≤ maxSizeName && env.nameOk &&
    decide ((ssize + processSetupSize) % 2 ^ 32 ≤ gigapageSize) && env.memoryOk &&
    env.contextOk && env.frameOk

/-- Tree management: the new process becomes the last child of the running one. -/
def attachToParent (p : Ptr) : KernelM Unit := do
  match ← getCurrentProcess with
  | none => modifyProc p fun r => { r with parent := none }
  | some parent =>
    modifyProc p fun r => { r with parent := some parent }
    match (← deref parent).childrenTail with
    | some tail =>
      modifyProc tail fun r => { r with nextSibling := some p }
      modifyProc parent fun r => { r with childrenTail := some p }
    | none =>
      modifyProc parent fun r => { r with childrenHead := some p, childrenTail := some p }

/-- The rest of `start_virtual` once everything was allocated. -/
def startFinish (p : Ptr) (prio : Int) : KernelM Unit := do
  attachToParent p
  modifyProc p fun r =>
    { r with
      context := .user none
      childrenHead := none
      childrenTail := none
      nextSibling := none
      returnValue := 0
      semSignal := 0
      state := .activatable
      started := true }
  queueAdd p .activatable Process.prioField
  -- `check_if_new_prio_is_higher_and_call_scheduler`
  let running ← getprio (← getpid)
  if 0 ≤ running ∧ running < prio then schedule (.start p)
  else answer (← deref p).pid []

/-- `start_virtual`. -/
def startVirtual (name : Option (List UInt8)) (ssize : Nat) (prio : Int) (env : StartEnv) :
    KernelM Unit := do
  match name with
  | none => answer (-1) []
  | some name =>
    if (← get).nbProcRunning + 1 > maxNbProcess then answer (-1) []
    else
      modify fun s => { s with nbProcRunning := s.nbProcRunning + 1 }
      if (← getpid) ≠ -1 ∧ (← validateActionProcessValid (← getCurrentProcess)) < 0 then
        answer (-1) []
      else if ¬ (prio ≤ maxPrio ∧ prio ≥ minPrio) then answer (-1) []
      else if ssize = 0 then answer (-1) []
      else if name ∉ (← get).symbolsTable then answer (-1) []
      else match env.record with
        | none => answer (-1) []
        | some garbage =>
          let p ← newRecord garbage prio
          if startAllocs name ssize env then startFinish p prio
          else answer (-1) []

/-- `start_virtual`, after the `scheduler` at its end. -/
def startResume (p : Ptr) : KernelM Unit := do
  answer (← deref p).pid []

end Xinul
