import Xinul.Kernel.Process
import Xinul.Kernel.MsgQueue
import Xinul.Kernel.Input

/-!
# The kernel as a machine

`supervisor_trap.c` and `timer.c`: the running process makes a system call or
is interrupted, and the handler runs to its end or to a switch, with
interrupts off. When the process switched to was itself inside a kernel
function, that function goes on next (`Event.resume`).

The idle program makes no system call and has no page fault: it is an empty
loop (`user/idle/idle.c`).
-/

namespace Xinul

/-- The system calls of `syscall_handler` that touch this state, with the
registers they read. Pointer arguments are given by whether they are `NULL`, and
otherwise taken to point to pages of the program; the pointer of `preceive`, which
the kernel stores through in the middle of its work, may also be unmapped. A call of
`waitpid` or `pcount` whose pointer is not mapped is an `Event.pageFault`. -/
inductive Syscall where
  | start (name : Option (List UInt8)) (ssize : Nat) (prio : Int) (env : StartEnv)
  | getpid
  | getprio (pid : Int)
  | chprio (pid newprio : Int)
  | kill (pid : Int)
  | waitpid (pid : Int) (retvalp : Bool)
  | exit (retval : Int)
  | consRead (length : Nat)
  | consEcho (on : Int)
  | pcount (fid : Int) (count : Bool)
  | pcreate (count : Int) (queueOk arrOk : Bool)
  | pdelete (fid : Int)
  | preceive (fid : Int) (message : UserPtr)
  | preset (fid : Int)
  | psend (fid message : Int)
  | sleep (nbrMs : Nat)
  | waitClock (clock : Nat)
  | currentClock
  | scount (sem : Int)
  | screate (count : Int) (semOk : Bool)
  | sdelete (sem : Int)
  | signal (sem : Int)
  | signaln (sem count : Int)
  | sreset (sem count : Int)
  | tryWait (sem : Int)
  | wait (sem : Int)
  deriving DecidableEq, Repr

/-- `wait_clock`; the sum and its negation are on 64 bits. -/
def waitClock (clock : Nat) : KernelM Unit := do
  match ← getCurrentProcess with
  | none => throw .nullPointer
  | some c =>
    let now := (← get).counter
    modifyProc c fun r => { r with wakeTime := Int.bmod (-(now + clock : Nat)) (2 ^ 64), state := .asleep }
    queueAdd c .asleep Process.wakeTime
    scheduleAnswer 0 []

/-- `syscall_handler`. -/
def syscallHandler : Syscall → KernelM Unit
  | .start name ssize prio env => startVirtual name ssize (toInt32 prio) env
  | .getpid => do answer (← getpid) []
  | .getprio pid => do answer (← getprio (toInt32 pid)) []
  | .chprio pid newprio => chprio (toInt32 pid) (toInt32 newprio)
  | .kill pid => kill (toInt32 pid)
  | .waitpid pid retvalp => waitpid (toInt32 pid) retvalp
  | .exit retval => exitProcess (toInt32 retval) .exitProcess
  | .consRead length => consRead length
  | .consEcho on => consEcho (toInt32 on)
  | .pcount fid count => pcount (toInt32 fid) count
  | .pcreate count queueOk arrOk => pcreate (toInt32 count) queueOk arrOk
  | .pdelete fid => pdelete (toInt32 fid)
  | .preceive fid message => preceive (toInt32 fid) message
  | .preset fid => preset (toInt32 fid)
  | .psend fid message => psend (toInt32 fid) (toInt32 message)
  | .sleep nbrMs => waitClock (nbrMs / ticPer)
  | .waitClock clock => waitClock clock
  | .currentClock => do answer (← get).counter []
  | .scount sem => scount (toInt32 sem)
  | .screate count semOk => screate (toInt16 count) semOk
  | .sdelete sem => sdelete (toInt32 sem)
  | .signal sem => signal (toInt32 sem)
  | .signaln sem count => signaln (toInt32 sem) (toInt16 count)
  | .sreset sem count => sreset (toInt32 sem) (toInt32 count)
  | .tryWait sem => tryWait (toInt32 sem)
  | .wait sem => wait (toInt32 sem)

/-- `handle_stimer_interrupt`, in the context `after`. -/
def handleStimerInterrupt (after : Context) : KernelM Unit := do
  modify fun s => { s with counter := (s.counter + 1) % 2 ^ 64 }
  schedule after

/-- What happens to the processor. -/
inductive Event where
  /-- The running process makes a system call. -/
  | syscall (c : Syscall)
  /-- A timer interrupt. -/
  | timer
  /-- A key is typed. -/
  | keyboard (k : UInt8)
  /-- The running process touches a page it does not have, or the kernel does for it: at the
  pointer of a call that has done nothing yet, or where `waitpid` stores through `retvalp`. -/
  | pageFault
  /-- The kernel function the running process was switched out of goes on. -/
  | resume
  deriving DecidableEq, Repr

/-- The kernel function behind the context of the running process. -/
def resume : KernelM Unit := do
  let r ← derefOpt (← getCurrentProcess)
  match r.context with
  | .user _ => pure ()
  | .start p => startResume p
  | .psend => psendResume
  | .preceive message => preceiveResume message
  | .wait => waitResume
  | .waitpidAny retvalp => waitpidAny retvalp
  | .waitpidChild temp before retvalp => waitpidChild temp before retvalp
  | .consRead length => consReadLoop length
  | .stimer => handleStimerInterrupt (.user none)
  | .exitProcess => answer 0 []
  | .killSelf p pid => do answer (← killOther p pid) []
  | .pageFault p pid => do
    let _ ← killOther p pid
    schedule (.user none)

/-- `strap_handler`. With `VIRTMACHINE` the case of the timer falls through to
the next one, which handles the timer again. -/
def step : Event → KernelM Unit
  | .syscall c => syscallHandler c
  | .timer => do handleStimerInterrupt (if (← get).virt then .stimer else .user none)
  | .keyboard k => handleKeyboardInterrupt k (.user none)
  | .pageFault => pageFault
  | .resume => resume

/-- The running process, as a record. -/
def Kernel.current (s : Kernel) : Option Process :=
  s.pidProcessHashTable s.currentRunningProcessPid >>= s.heap

/-- The processor is in user mode, or waits in `kernel_start` for the first
interrupt. -/
def Kernel.inUserMode (s : Kernel) : Bool :=
  match s.current with
  | none => s.currentRunningProcessPid = -1
  | some r => match r.context with
    | .user _ => true
    | _ => false

/-- The running process goes on in a `waitpid` that has found its child, and stores through
`retvalp`. -/
def Kernel.storesRetval (s : Kernel) : Bool :=
  match s.current with
  | none => false
  | some r => match r.context with
    | .waitpidAny true => match findCurrentChild (fun r => r.state = .zombie) s with
      | .ok (some _, _) => true
      | _ => false
    | .waitpidChild temp _ true => match s.heap temp with
      | some child => child.state = .zombie
      | none => false
    | _ => false

/-- What can happen next: a switched-out kernel function goes on before anything
else, and before the first interrupt no process runs. Whether `retvalp` is mapped is
not recorded, so that the store of a `waitpid` that waited may fault or not. -/
def Event.enabled (s : Kernel) : Event → Bool
  | .syscall _ => s.inUserMode && s.currentRunningProcessPid ≠ -1 && s.currentRunningProcessPid ≠ idleId
  | .pageFault => (s.inUserMode || s.storesRetval) && s.currentRunningProcessPid ≠ -1 && s.currentRunningProcessPid ≠ idleId
  | .timer => s.inUserMode
  | .keyboard _ => s.inUserMode
  | .resume => !s.inUserMode

/-- The globals before `initialize_process_workflow`. -/
def Kernel.empty (symbolsTable : List (List UInt8)) (virt : Bool) : Kernel where
  heap _ := none
  nextPtr := 0
  pidProcessHashTable _ := none
  currentRunningProcessPid := -1
  pidIterator := 0
  nbProcRunning := 0
  processIdList := []
  queue _ := []
  startedUserProcess := false
  semaphoreTable _ := none
  semaphoreIdCounter := 0
  currentlyRunningSemaphores := 0
  parentBlock := false
  node _ := none
  nextNode := 0
  allQueues _ := none
  msgQueue _ := none
  nextQueue := 0
  counter := 0
  console := ⟨fun _ => 0, -1, 0, true⟩
  symbolsTable := symbolsTable
  virt := virt
  insertions := 0

/-- `"idle"` and `"shell"`. -/
def idleName : List UInt8 := [105, 100, 108, 101]
def shellName : List UInt8 := [115, 104, 101, 108, 108]

/-- `initialize_process_workflow`: the idle process and the shell are started;
`idle` and `shell` are what `malloc` returns for their records. -/
def initializeProcessWorkflow (idle shell : Process) : KernelM Unit := do
  startVirtual (some idleName) 4000 1 ⟨some idle, true, true, true, true⟩
  startVirtual (some shellName) 4000 2 ⟨some shell, true, true, true, true⟩

/-- A state the kernel starts in. -/
def Boot (s : Kernel) : Prop :=
  ∃ symbols virt idle shell, idleName ∈ symbols ∧ shellName ∈ symbols ∧
    initializeProcessWorkflow idle shell (Kernel.empty symbols virt) = .ok ((), s)

/-- The events the processor can meet in `s` take it to `t`. -/
def Step (s : Kernel) (e : Event) (t : Kernel) : Prop :=
  e.enabled s = true ∧ step e s = .ok ((), t)

/-- The kernel stops on the event `e` with the fault `f`. -/
def Faults (s : Kernel) (e : Event) (f : Fault) : Prop :=
  e.enabled s = true ∧ step e s = .error f

end Xinul
