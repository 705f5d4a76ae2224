import Xinul.Proofs.Faulting

/-!
# Who changes a count

The counts of the semaphores, and the flag that keeps `signal` from calling `scheduler`,
are written by a few functions of `semaphore_api.c`. Every other function of the kernel
keeps them, from any state, whatever became of the lists.
-/

namespace Xinul

open Prog

/-- The count of every semaphore. -/
def Kernel.counts (s : Kernel) (i : Int) : Option Int := (s.semaphoreTable i).map (·.count)

/-- The counts, and whether `signal` leaves `scheduler` to its caller. -/
def Kernel.counting (s : Kernel) : (Int → Option Int) × Bool := (s.counts, s.parentBlock)

/-- The function keeps the counts and the flag. -/
abbrev Recounts {α : Type} (m : KernelM α) : Prop := Keeps Kernel.counting m

section

variable {α : Type} {p : Ptr} {sem fid : Int} {m : KernelM α}

theorem Recounts.of_rest (h : Keeps Kernel.rest m) : Recounts m := by
  intro s
  refine wp_mono (h s) (fun _ t _ ht => ?_) (fun _ _ h => h)
  simp only [Kernel.rest, Prod.mk.injEq] at ht
  simp [Kernel.counting, Kernel.counts, ht.1.1, ht.1.2.2.2.2, funext_iff]

/-! ## Reading and chaining -/

theorem recounts_derefOpt (o : Option Ptr) : Recounts (derefOpt o) := by
  cases o with
  | none => exact .throw _
  | some p => exact keeps_deref p

theorem recounts_getpid : Recounts getpid := .bind .get fun _ => .pure _

theorem recounts_validate (o : Option Ptr) : Recounts (validateActionProcessValid o) := by
  cases o with
  | none => exact .pure _
  | some p => exact .bind (keeps_deref p) fun _ => .ite (.pure _) (.pure _)

theorem recounts_modifyProc {f : Process → Process} : Recounts (modifyProc p f) := keeps_modifyProc fun _ => rfl

theorem recounts_queueAdd {hd : QueueHead} {f : Process → Int} : Recounts (queueAdd p hd f) :=
  keeps_queueAdd fun _ _ => rfl

theorem recounts_queueDel : Recounts (queueDel p) := keeps_queueDel fun _ _ => rfl

theorem recounts_queueOut {hd : QueueHead} : Recounts (queueOut hd) := keeps_queueOut fun _ _ => rfl

theorem recounts_schedule (k : Context) : Recounts (schedule k) := .of_rest (keeps_schedule k)

theorem recounts_answer (v : Int) (w : List Int) : Recounts (answer v w) := .of_rest (keeps_saveContext _)

theorem recounts_scheduleAnswer (v : Int) (w : List Int) : Recounts (scheduleAnswer v w) := recounts_schedule _

theorem recounts_freeProcessMemory : Recounts (freeProcessMemory p) :=
  .bind (keeps_deref p) fun _ => .bind (.modify fun _ => rfl) fun _ => .pure _

/-! ## `process_api.c` -/

theorem recounts_getprio (pid : Int) : Recounts (getprio pid) :=
  .bind (.bind .get fun _ => .pure _) fun _ => .bind (recounts_validate _) fun _ => .ite (.pure _)
    (.bind (recounts_derefOpt _) fun _ => .pure _)

theorem recounts_touchHead (hd : QueueHead) : Recounts (touchHead hd) := by
  cases hd with
  | blockedCons q | blockedProd q =>
    refine .bind .get fun s => ?_
    split
    · exact .pure _
    · exact .throw _
  | _ => exact .pure _

theorem recounts_chprio (pid newprio : Int) : Recounts (chprio pid newprio) := by
  refine .bind (.bind .get fun _ => .pure _) fun o => ?_
  split
  · exact recounts_answer _ _
  · refine .ite (recounts_answer _ _) (.bind (recounts_validate _) fun _ => .ite (recounts_answer _ _)
      (.bind (keeps_deref _) fun _ => .bind recounts_modifyProc fun _ => .bind (keeps_deref _) fun r => ?_))
    split
    · exact .bind recounts_queueDel fun _ => .bind recounts_queueAdd fun _ => recounts_scheduleAnswer _ _
    · exact recounts_scheduleAnswer _ _
    · refine .bind recounts_queueDel fun _ => ?_
      split
      · exact .throw _
      · exact .bind (recounts_touchHead _) fun _ => .bind recounts_queueAdd fun _ => recounts_answer _ _
    · exact .bind recounts_queueDel fun _ => .bind recounts_queueAdd fun _ => recounts_answer _ _
    · exact recounts_answer _ _

theorem recounts_freeChildZombieProcess : Recounts (freeChildZombieProcess p) :=
  .bind (keeps_deref p) fun _ => .ite (.pure _) (.bind recounts_getpid fun _ =>
    .ite (.bind recounts_modifyProc fun _ => .pure _) recounts_freeProcessMemory)

theorem recounts_killZombies (n : Nat) (o : Option Ptr) : Recounts (killZombies n o) := by
  induction n generalizing o with
  | zero => exact .throw _
  | succ n ih =>
    cases o with
    | none => exact .pure _
    | some temp =>
      have rest : Recounts (do
          let next := (← deref temp).nextSibling
          if (← freeChildZombieProcess temp) < 0 then pure (-1) else killZombies n next) :=
        .bind (keeps_deref _) fun _ => .bind recounts_freeChildZombieProcess fun _ => .ite (.pure _) (ih _)
      exact .bind (keeps_deref _) fun r => .ite (.ite (.bind (.pure _) fun _ => rest) (.bind (ih _) fun _ => rest)) (ih _)

theorem recounts_turn (b : Bool) (pid : Int) : Recounts (turnCurrentProcessIntoAZombieOrKillIt b pid) := by
  have children : ∀ p, Recounts (makeChildrenOrphansAndKillZombies p) := fun p =>
    .bind (keeps_deref p) fun _ => .ite (.pure _) (.bind .get fun _ => recounts_killZombies _ _)
  refine .bind recounts_getpid fun _ => .bind (.bind .get fun _ => .pure _) fun o => ?_
  split
  · exact .pure _
  · refine .bind (children _) fun _ => .ite (.pure _) (.bind recounts_modifyProc fun _ => .bind (keeps_deref _) fun r => ?_)
    split
    · exact recounts_freeChildZombieProcess
    · exact .bind (keeps_deref _) fun _ => .ite recounts_freeChildZombieProcess
        (.ite (.bind recounts_modifyProc fun _ => .bind recounts_queueAdd fun _ => .pure _) (.pure _))

theorem recounts_exitProcess (retval : Int) (k : Context) : Recounts (exitProcess retval k) := by
  refine .bind keeps_getCurrentProcess fun _ => .bind (recounts_validate _) fun _ => .ite (.throw _)
    (.bind (recounts_turn _ _) fun _ => .ite (.throw _) (.bind keeps_getCurrentProcess fun o => ?_))
  split
  · exact .throw _
  · exact .bind recounts_modifyProc fun _ => recounts_schedule _

theorem recounts_findCurrentChild (found : Process → Bool) : Recounts (findCurrentChild found) := by
  have walk : ∀ n o before, Recounts (findChild found n o before) := by
    intro n
    induction n with
    | zero => exact fun _ _ => .throw _
    | succ n ih =>
      intro o before
      cases o with
      | none => exact .pure _
      | some temp => exact .bind (keeps_deref _) fun _ => .ite (.pure _) (ih _ _)
  refine .bind keeps_getCurrentProcess fun _ => .bind (recounts_derefOpt _) fun r => ?_
  split
  · exact .pure _
  · exact .bind .get fun _ => walk _ _ _

theorem recounts_waitpidFinish (temp before : Ptr) (retvalp : Bool) : Recounts (waitpidFinish temp before retvalp) := by
  have fix : Recounts (freeProcessArgAndFixTreeLink temp before) := by
    refine .bind (keeps_deref _) fun r => ?_
    split
    · exact .pure _
    · refine .bind (keeps_deref _) fun _ => .ite (.pure _) (.ite ?_ (.ite ?_ (.ite ?_ ?_)))
      · exact .bind recounts_modifyProc fun _ => recounts_freeChildZombieProcess
      · exact .bind recounts_modifyProc fun _ => recounts_freeChildZombieProcess
      · exact .bind recounts_modifyProc fun _ => .bind recounts_modifyProc fun _ => recounts_freeChildZombieProcess
      · exact .bind recounts_modifyProc fun _ => recounts_freeChildZombieProcess
  exact .bind (keeps_deref _) fun _ => .bind fix fun _ => .ite (recounts_answer _ _) (recounts_answer _ _)

theorem recounts_waitForChild (k : Context) : Recounts (waitForChild k) := by
  refine .bind keeps_getCurrentProcess fun o => ?_
  split
  · exact .throw _
  · exact .bind recounts_modifyProc fun _ => recounts_schedule _

theorem recounts_waitpidAny (retvalp : Bool) : Recounts (waitpidAny retvalp) := by
  refine .bind (recounts_findCurrentChild _) fun o => ?_
  split
  · exact recounts_waitpidFinish _ _ _
  · exact recounts_waitForChild _

theorem recounts_waitpidChild (temp before : Ptr) (retvalp : Bool) : Recounts (waitpidChild temp before retvalp) :=
  .bind (keeps_deref _) fun _ => .ite (recounts_waitpidFinish _ _ _) (recounts_waitForChild _)

theorem recounts_waitpid (pid : Int) (retvalp : Bool) : Recounts (waitpid pid retvalp) := by
  refine .bind keeps_getCurrentProcess fun _ => .bind (recounts_derefOpt _) fun _ => .ite (recounts_answer _ _)
    (.ite (recounts_waitpidAny _) (.bind (recounts_findCurrentChild _) fun o => ?_))
  split
  · exact recounts_answer _ _
  · exact recounts_waitpidChild _ _ _

theorem recounts_startFinish (prio : Int) : Recounts (startFinish p prio) := by
  have attach : Recounts (attachToParent p) := by
    refine .bind keeps_getCurrentProcess fun o => ?_
    split
    · exact recounts_modifyProc
    · refine .bind recounts_modifyProc fun _ => .bind (keeps_deref _) fun r => ?_
      split
      · exact .bind recounts_modifyProc fun _ => recounts_modifyProc
      · exact recounts_modifyProc
  exact .bind attach fun _ => .bind recounts_modifyProc fun _ => .bind recounts_queueAdd fun _ =>
    .bind recounts_getpid fun _ => .bind (recounts_getprio _) fun _ =>
      .ite (recounts_schedule _) (.bind (keeps_deref _) fun _ => recounts_answer _ _)

theorem recounts_newRecord (garbage : Process) (prio : Int) : Recounts (newRecord garbage prio) := by
  have pid : Recounts incrementPidAndGetNewPid := by
    refine .bind .get fun s => ?_
    split
    · exact .bind (.modify fun _ => rfl) fun _ => .pure _
    · exact .bind (.modify fun _ => rfl) fun _ => .bind .get fun _ => .pure _
  exact .bind pid fun _ => .bind .get fun _ => .bind (.modify fun _ => rfl) fun _ => .pure _

theorem recounts_startVirtual (name : Option (List UInt8)) (ssize : Nat) (prio : Int) (env : StartEnv) :
    Recounts (startVirtual name ssize prio env) := by
  cases name with
  | none => exact recounts_answer _ _
  | some name =>
    refine .bind .get fun _ => .ite (recounts_answer _ _) (.bind (.modify fun _ => rfl) fun _ =>
      .bind recounts_getpid fun _ => .bind keeps_getCurrentProcess fun _ => .bind (recounts_validate _) fun _ =>
        .ite (recounts_answer _ _) (.ite (recounts_answer _ _) (.ite (recounts_answer _ _)
          (.bind .get fun _ => .ite (recounts_answer _ _) ?_))))
    split
    · exact recounts_answer _ _
    · exact .bind (recounts_newRecord _ _) fun _ => .ite (recounts_startFinish _) (recounts_answer _ _)

/-! ## `msgqueue.c` -/

theorem recounts_validFid : Recounts (validFid fid) := .ite (.pure _) (.bind .get fun _ => .pure _)

theorem recounts_derefQueue {q : QueuePtr} : Recounts (derefQueue q) := by
  refine .bind .get fun s => ?_
  split
  · exact .pure _
  · exact .throw _

theorem recounts_queueEmpty {hd : QueueHead} : Recounts (queueEmpty hd) := .bind .get fun _ => .pure _

theorem recounts_setQueue {q : QueuePtr} {v : Option MsgQueue} : Recounts (modify (·.setQueue q v) : KernelM Unit) :=
  .modify fun _ => rfl

theorem recounts_freeBlocked {hd : QueueHead} : Recounts (freeBlocked hd) := by
  have loop : ∀ n, Recounts (freeBlockedQueue hd n) := by
    intro n
    induction n with
    | zero => exact .throw _
    | succ n ih =>
      refine .bind recounts_queueOut fun o => ?_
      split
      · exact .pure _
      · exact .bind recounts_modifyProc fun _ => .bind recounts_queueAdd fun _ => ih
  exact .bind .get fun _ => loop _

theorem recounts_pcreate (count : Int) (queueOk arrOk : Bool) : Recounts (pcreate count queueOk arrOk) := by
  refine .ite (recounts_answer _ _) (.bind .get fun s => ?_)
  split
  · exact recounts_answer _ _
  · exact .ite (recounts_answer _ _) (.bind .get fun _ => .bind (.modify fun _ => rfl) fun _ =>
      .ite (recounts_answer _ _) (.bind (.modify fun _ => rfl) fun _ => recounts_answer _ _))

theorem recounts_pdelete : Recounts (pdelete fid) := by
  refine .bind recounts_validFid fun o => ?_
  split
  · exact recounts_answer _ _
  · exact .bind recounts_derefQueue fun _ => .bind recounts_freeBlocked fun _ => .bind recounts_freeBlocked fun _ =>
      .bind (.modify fun _ => rfl) fun _ => recounts_scheduleAnswer _ _

theorem recounts_psend (message : Int) : Recounts (psend fid message) := by
  refine .bind recounts_validFid fun o => ?_
  split
  · exact recounts_answer _ _
  · refine .bind recounts_derefQueue fun m => .bind recounts_queueEmpty fun b => .ite ?_ (.ite ?_ ?_)
    · refine .bind recounts_queueOut fun o => ?_
      split
      · exact .throw _
      · exact .bind recounts_modifyProc fun _ => .bind recounts_queueAdd fun _ => .bind recounts_modifyProc fun _ =>
          .bind recounts_setQueue fun _ => recounts_scheduleAnswer _ _
    · refine .bind keeps_getCurrentProcess fun o => ?_
      split
      · exact .throw _
      · exact .bind recounts_modifyProc fun _ => .bind recounts_queueAdd fun _ => recounts_schedule _
    · exact .bind recounts_setQueue fun _ => recounts_answer _ _

theorem recounts_psendResume : Recounts psendResume :=
  .bind keeps_getCurrentProcess fun _ => .bind (recounts_derefOpt _) fun _ => .ite (recounts_answer _ _) (recounts_answer _ _)

theorem recounts_endRunning : Recounts endRunning := by
  refine .bind recounts_getpid fun pid => .ite (recounts_schedule _) (.bind (.bind .get fun _ => .pure _) fun o => ?_)
  split
  · exact recounts_schedule _
  · exact .bind (recounts_validate _) fun _ => .ite (recounts_schedule _) (recounts_exitProcess _ _)

theorem recounts_preceiveWith {fault : KernelM Unit} (hf : Recounts fault) (message : UserPtr) :
    Recounts (preceiveWith fault fid message) := by
  refine .bind recounts_validFid fun o => ?_
  split
  · exact recounts_answer _ _
  · refine .bind recounts_derefQueue fun m => .bind recounts_queueEmpty fun b => .ite ?_ (.bind recounts_queueEmpty fun b =>
      .ite ?_ (.bind recounts_queueEmpty fun b => .ite ?_ ?_))
    · refine .bind recounts_queueOut fun o => ?_
      split
      · exact .throw _
      · exact .bind recounts_modifyProc fun _ => .bind (keeps_deref _) fun _ => .bind recounts_setQueue fun _ => .ite hf
          (.bind recounts_queueAdd fun _ => .bind recounts_setQueue fun _ => recounts_scheduleAnswer _ _)
    · refine .bind keeps_getCurrentProcess fun o => ?_
      split
      · exact .throw _
      · exact .bind recounts_modifyProc fun _ => .bind recounts_queueAdd fun _ => recounts_schedule _
    · refine .bind recounts_setQueue fun _ => .ite hf (.bind recounts_queueOut fun o => ?_)
      split
      · exact .throw _
      · exact .bind (keeps_deref _) fun _ => .bind recounts_setQueue fun _ => .bind recounts_modifyProc fun _ =>
          .bind recounts_queueAdd fun _ => recounts_scheduleAnswer _ _
    · exact .bind recounts_setQueue fun _ => .ite hf (.bind recounts_setQueue fun _ => recounts_answer _ _)

theorem recounts_preceiveResumeWith {fault : KernelM Unit} (hf : Recounts fault) (message : UserPtr) :
    Recounts (preceiveResumeWith fault message) :=
  .bind keeps_getCurrentProcess fun _ => .bind (recounts_derefOpt _) fun _ => .ite (recounts_answer _ _)
    (.ite hf (recounts_answer _ _))

theorem recounts_pcount (count : Bool) : Recounts (pcount fid count) := by
  refine .bind recounts_validFid fun o => ?_
  split
  · exact recounts_answer _ _
  · exact .ite (recounts_answer _ _) (.bind recounts_derefQueue fun _ => .bind recounts_queueEmpty fun _ =>
      .ite (.bind .get fun _ => recounts_answer _ _) (.bind .get fun _ => recounts_answer _ _))

theorem recounts_preset : Recounts (preset fid) := by
  refine .bind recounts_validFid fun o => ?_
  split
  · exact recounts_answer _ _
  · exact .bind recounts_derefQueue fun _ => .bind recounts_setQueue fun _ => .bind recounts_freeBlocked fun _ =>
      .bind recounts_freeBlocked fun _ => recounts_scheduleAnswer _ _

/-! ## The console and the clock -/

theorem recounts_ofConsole (o : Option α) : Recounts (ofConsole o) := by
  cases o with
  | none => exact .throw _
  | some a => exact .pure _

theorem recounts_consReadLoop (length : Nat) : Recounts (consReadLoop length) := by
  refine .bind .get fun s => .bind (recounts_ofConsole _) fun eol => .ite ?_ (.ite (.throw _) ?_)
  · refine .bind keeps_getCurrentProcess fun o => ?_
    split
    · exact .throw _
    · exact .bind recounts_modifyProc fun _ => .bind recounts_queueAdd fun _ => recounts_schedule _
  · exact .bind (recounts_ofConsole _) fun _ => .bind (.modify fun _ => rfl) fun _ => recounts_answer _ _

theorem recounts_consRead (length : Nat) : Recounts (consRead length) :=
  .ite (recounts_answer _ _) (recounts_consReadLoop length)

theorem recounts_handleKeyboardInterrupt (k : UInt8) (after : Context) : Recounts (handleKeyboardInterrupt k after) := by
  refine .bind .get fun s => .bind (recounts_ofConsole _) fun c => .bind (.modify fun _ => rfl) fun _ =>
    .bind recounts_queueOut fun o => ?_
  split
  · exact Recounts.of_rest (keeps_saveContext _)
  · exact .bind recounts_modifyProc fun _ => .bind recounts_queueAdd fun _ => recounts_schedule _

theorem recounts_handleStimerInterrupt (after : Context) : Recounts (handleStimerInterrupt after) :=
  .bind (.modify fun _ => rfl) fun _ => recounts_schedule _

theorem recounts_waitClock (clock : Nat) : Recounts (waitClock clock) := by
  refine .bind keeps_getCurrentProcess fun o => ?_
  split
  · exact .throw _
  · exact .bind .get fun _ => .bind recounts_modifyProc fun _ => .bind recounts_queueAdd fun _ => recounts_scheduleAnswer _ _

/-! ## The lists of `semaphore_api.c` -/

theorem recounts_modifySem {f : Semaphore → Semaphore} (hf : ∀ st, (f st).count = st.count) : Recounts (modifySem sem f) := by
  intro s
  rw [modifySem, derefSem, wp_bind, wp_bind, wp_get]
  cases hst : s.semaphoreTable sem with
  | none => trivial
  | some st =>
    simp only [wp_pure, wp_modify, Kernel.counting, Prod.mk.injEq]
    refine ⟨funext fun i => ?_, rfl⟩
    by_cases hi : i = sem
    · subst hi
      simp [Kernel.counts, Kernel.setSem, hst, hf]
    · simp [Kernel.counts, Kernel.setSem, hi]

theorem recounts_setHeader {h l : Option NodePtr} : Recounts (setHeader sem h l) := recounts_modifySem fun _ => rfl

theorem recounts_derefSem : Recounts (derefSem sem) := by
  refine .bind .get fun s => ?_
  split
  · exact .pure _
  · exact .throw _

theorem recounts_derefNode {n : NodePtr} : Recounts (derefNode n) := by
  refine .bind .get fun s => ?_
  split
  · exact .pure _
  · exact .throw _

theorem recounts_setNextBlockStruct {n : NodePtr} {next : Option NodePtr} : Recounts (setNextBlockStruct n next) :=
  .bind recounts_derefNode fun _ => .modify fun _ => rfl

theorem recounts_removeFinish (signal : Int) (n : NodePtr) : Recounts (removeFinish signal n) :=
  .bind recounts_derefNode fun _ => .bind recounts_modifyProc fun _ =>
    .ite (.bind recounts_queueAdd fun _ => .bind recounts_modifyProc fun _ => .pure _)
      (.bind recounts_modifyProc fun _ => .pure _)

theorem recounts_removeProcQueue (signal pid : Int) : Recounts (removeProcQueue sem signal pid) := by
  have before : ∀ tail n iter, Recounts (beforeTail tail n iter) := by
    intro tail n
    induction n with
    | zero => exact fun _ => .throw _
    | succ n ih =>
      intro iter
      refine .bind recounts_derefNode fun nd => .ite (.pure _) ?_
      split
      · exact .throw _
      · exact ih _
  have middle : ∀ n o prev, Recounts (removeMiddle pid n o prev) := by
    intro n
    induction n with
    | zero => exact fun _ _ => .throw _
    | succ n ih =>
      intro o prev
      cases o with
      | none => exact .pure _
      | some iter =>
        exact .bind recounts_derefNode fun _ => .bind (keeps_deref _) fun _ =>
          .ite (.bind recounts_setNextBlockStruct fun _ => .pure _) (ih _ _)
  refine .bind recounts_derefSem fun st => ?_
  split
  · exact .pure _
  · exact .pure _
  · refine .bind recounts_derefNode fun hd => .ite (.bind (keeps_deref _) fun _ => .ite ?_ (.pure _))
      (.bind (keeps_deref _) fun _ => .ite ?_ ?_)
    · exact .bind recounts_setHeader fun _ => recounts_removeFinish _ _
    · exact .bind recounts_setHeader fun _ => recounts_removeFinish _ _
    · split
      · exact .throw _
      · refine .bind recounts_derefNode fun _ => .bind (keeps_deref _) fun _ => .ite (.bind .get fun _ =>
          .bind (before _ _ _) fun _ => .bind recounts_setNextBlockStruct fun _ => .bind recounts_setHeader fun _ =>
            recounts_removeFinish _ _) (.bind .get fun _ => .bind (middle _ _ _) fun o => ?_)
        split
        · exact .pure _
        · exact recounts_removeFinish _ _

theorem recounts_unblockProcessSem (signal : Int) : Recounts (unblockProcessSem sem signal) := by
  refine .bind recounts_derefSem fun st => ?_
  split
  · exact .pure _
  · exact .pure _
  · refine .bind recounts_derefNode fun hd => .ite ?_ ?_ <;>
      exact .bind recounts_setHeader fun _ => .bind recounts_modifyProc fun _ => .bind recounts_queueAdd fun _ =>
        .bind recounts_modifyProc fun _ => .pure _

theorem recounts_unblockAll (signal : Int) (n : Nat) : Recounts (unblockAll sem signal n) := by
  induction n with
  | zero => exact .throw _
  | succ n ih => exact .bind (recounts_unblockProcessSem _) fun _ => .ite ih (.pure _)

theorem recounts_waitInsert {n : NodePtr} {prio : Nat} : Recounts (waitInsert sem n prio) := by
  have walk : ∀ n o prev, Recounts (waitWalk prio n o prev) := by
    intro n
    induction n with
    | zero => exact fun _ _ => .throw _
    | succ n ih =>
      intro o prev
      cases o with
      | none => exact .pure _
      | some iter => exact .bind recounts_derefNode fun _ => .bind (keeps_deref _) fun _ => .ite (.pure _) (ih _ _)
  refine .bind recounts_derefSem fun st => .ite recounts_setHeader ?_
  split
  · split
    · exact .throw _
    · exact .bind recounts_setNextBlockStruct fun _ => recounts_setHeader
  · refine .bind .get fun s => .bind (walk _ _ _) fun o => ?_
    split
    · exact .bind recounts_setNextBlockStruct fun _ => .ite recounts_setHeader recounts_setNextBlockStruct
    · split
      · exact .throw _
      · exact .bind recounts_setNextBlockStruct fun _ => recounts_setHeader

theorem recounts_scount : Recounts (scount sem) := by
  refine .bind (.bind .get fun _ => .pure _) fun o => ?_
  split
  · exact recounts_answer _ _
  · exact recounts_answer _ _

theorem recounts_waitResume : Recounts waitResume :=
  .bind keeps_getCurrentProcess fun _ => .bind (recounts_derefOpt _) fun _ => recounts_answer _ _

end

end Xinul
