import Xinul.Kernel.State

/-!
# `scheduler.c`

`context_switch` ends the kernel function that called `scheduler` and resumes the
one the next process was in. Here a function that calls `scheduler` first
stores what it does afterwards as the `context` of the running process
(`schedule`); `scheduler` then only decides which process runs next.
-/

namespace Xinul

/-- The globals after `free_process_memory(p)`, `pid` being the pid in the record:
the pid goes back to `process_id_list` and out of the table. `save_pid` is taken to
get the memory for the node of the list. -/
def Kernel.freeRecord (s : Kernel) (p : Ptr) (pid : Int) : Kernel :=
  { s with
    nbProcRunning := s.nbProcRunning - 1
    pidProcessHashTable := Function.update s.pidProcessHashTable pid none
    processIdList := pid :: s.processIdList
    heap := Function.update s.heap p none }

/-- `free_process_memory`, without the pages and frames of the process. -/
def freeProcessMemory (p : Ptr) : KernelM Int := do
  let r ← deref p
  modify (·.freeRecord p r.pid)
  pure 0

/-- The globals with the process of the pid `k` running. -/
def Kernel.setRunning (s : Kernel) (k : Int) : Kernel := { s with currentRunningProcessPid := k }

/-- `setpid`. -/
def setpid (newPid : Int) : KernelM Int := do
  match ← getProcessStructOfPid newPid with
  | none => pure (-1)
  | some _ =>
    modify (·.setRunning newPid)
    pure newPid

/-- `get_next_wake_time`; negation is on 64 bits. -/
def getNextWakeTime : KernelM Nat := do
  match ← queueTop .asleep with
  | none => pure 0
  | some p =>
    let r ← deref p
    let t := Int.bmod (-r.wakeTime) (2 ^ 64)
    if t < 0 then throw .wakeTimeAssert
    pure t.toNat

/-- The loop of `awake_sleeping_process`. -/
def awakeSleepingLoop : Nat → KernelM Unit
  | 0 => throw .hang
  | n + 1 => do
    let wakeTime ← getNextWakeTime
    if wakeTime ≠ 0 ∧ (← get).counter > wakeTime then
      match ← queueOut .asleep with
      | none => throw .nullPointer
      | some awake =>
        queueAdd awake .activatable Process.prioField
        awakeSleepingLoop n
    else pure ()

/-- `awake_sleeping_process`; each turn takes one process off the asleep queue. -/
def awakeSleepingProcess : KernelM Unit := do
  awakeSleepingLoop (((← get).queue .asleep).length + 1)

/-- The loop of `free_dead_process`. -/
def freeDeadLoop : Nat → KernelM Unit
  | 0 => throw .hang
  | n + 1 => do
    match ← queueOut .dead with
    | none => pure ()
    | some top =>
      let _ ← freeProcessMemory top
      freeDeadLoop n

/-- `free_dead_process`. -/
def freeDeadProcess : KernelM Unit := do
  freeDeadLoop (((← get).queue .dead).length + 1)

/-- The switch at the end of each branch of `scheduler`: `top` leaves the
activatable queue, becomes the running process and goes on in its own context. -/
def dispatch (top : Ptr) (whenSet : KernelM Unit) : KernelM Unit := do
  let _ ← queueOut .activatable
  if (← setpid (← deref top).pid) < 0 then return
  whenSet

/-- `scheduler`, once sleepers were woken and the dead freed. -/
def scheduleNext : KernelM Unit := do
  if (← getpid) = -1 then
    match ← queueTop .activatable with
    | none => pure ()
    | some top =>
      dispatch top do
        modifyProc top fun r => { r with state := .actif }
        modify fun s => { s with startedUserProcess := true }
  else if (← get).startedUserProcess = false then
    match ← getCurrentProcess with
    | none => pure ()
    | some _ => modify fun s => { s with startedUserProcess := true }
  else
    match ← getCurrentProcess, ← queueTop .activatable with
    | some current, some top =>
      let c ← deref current
      if c.state = .actif then
        if (← deref top).prio ≥ c.prio then
          dispatch top do
            modifyProc current fun r => { r with state := .activatable }
            modifyProc top fun r => { r with state := .actif }
            queueAdd current .activatable Process.prioField
        else pure ()
      else if c.state = .killed then
        queueAdd current .dead Process.prioField
        dispatch top do
          modifyProc top fun r => { r with state := .actif }
      else
        dispatch top do
          modifyProc top fun r => { r with state := .actif }
    | _, _ => pure ()

/-- `scheduler`. -/
def scheduler : KernelM Unit := do
  awakeSleepingProcess
  freeDeadProcess
  scheduleNext

/-- The running process will go on in `k`. -/
def saveContext (k : Context) : KernelM Unit := do
  match ← getCurrentProcess with
  | none => pure ()
  | some c => modifyProc c fun r => { r with context := k }

/-- A call of `scheduler` after which the running process goes on in `k`. -/
def schedule (k : Context) : KernelM Unit := do
  saveContext k
  scheduler

/-- A system call returns `value`, having stored `written` for the user. -/
def answer (value : Int) (written : List Int) : KernelM Unit :=
  saveContext (.user (some ⟨value, written⟩))

/-- A system call calls `scheduler` and then returns `value`. -/
def scheduleAnswer (value : Int) (written : List Int) : KernelM Unit :=
  schedule (.user (some ⟨value, written⟩))

end Xinul
