import Xinul.Proofs.Apart

/-!
# What each system call leaves alone

The frames of `Xinul.Proofs.Apart` for the system calls and interrupts: those of
`semaphore_api.c` for the messages, those of `msgqueue.c` for the semaphores, all
others but `chprio` and `kill` for both.
-/

namespace Xinul

open Prog

section

variable {M W : Prop} {R : Kernel → Kernel → Prop} {E : Kernel → Fault → Prop} [HoldsOfWrites R] [Spares R E]
  {p : Ptr} {sem fid : Int}

/-! ## `semaphore_api.c` -/

theorem apart_scount : Guards (Frame M W R) E (scount sem) := by
  refine .bind (.bind .get fun _ => .pure _) fun o => ?_
  split
  · exact apart_answer _ _
  · exact apart_answer _ _

theorem apart_screate (count : Int) (semOk : Bool) : Guards (Frame M False R) E (screate count semOk) := by
  refine .ite (apart_answer _ _) (.bind .get fun s => .ite (apart_answer _ _) (.ite (apart_answer _ _) (.bind .get fun s => ?_)))
  refine .ite (.bind (spares_throw fun _ => trivial) fun _ => ?_) ?_ <;>
    exact .bind (apart_modify (fun _ => rfl) (fun _ => rfl) (fun _ _ => ⟨rfl, rfl, rfl⟩) (fun _ => False.elim) fun s => HoldsOfWrites.globals s _ rfl (fun _ => id) ⟨rfl, rfl, rfl, rfl⟩)
      fun _ => apart_answer _ _

theorem apart_newNode : Guards (Frame M False R) E (newNode p) :=
  .bind .get fun _ => .bind (apart_modify (fun _ => rfl) (fun _ => rfl) (fun _ _ => ⟨rfl, rfl, rfl⟩)
    (fun _ => False.elim) fun s => HoldsOfWrites.globals s _ rfl (fun _ => id) ⟨rfl, rfl, rfl, rfl⟩) fun _ => .pure _

theorem apart_waitWalk {prio : Nat} {n : NodePtr} (i : Nat) (o : Option NodePtr) :
    Guards (Frame M W R) E (waitWalk prio i o n) := by
  induction i generalizing n o with
  | zero => exact spares_throw fun _ => trivial
  | succ i ih =>
    cases o with
    | none => exact .pure _
    | some iter => exact .bind apart_derefNode fun nd => .bind (respects_deref _) fun r => .ite (.pure _) (ih _)

theorem apart_waitInsert {n : NodePtr} {prio : Nat} : Guards (Frame M False R) E (waitInsert sem n prio) := by
  refine .bind apart_derefSem fun st => .ite apart_modifySem ?_
  split
  · split
    · exact spares_throw fun _ => trivial
    · exact .bind apart_setNextBlockStruct fun _ => apart_modifySem
  · refine .bind .get fun s => .bind (apart_waitWalk _ _) fun o => ?_
    split
    · exact .bind apart_setNextBlockStruct fun _ => .ite apart_modifySem apart_setNextBlockStruct
    · split
      · exact spares_throw fun _ => trivial
      · exact .bind apart_setNextBlockStruct fun _ => apart_modifySem

omit [Spares R E] in
theorem apart_markBlocked : Guards (Frame M False R) E (modify (·.markBlocked p sem) : KernelM Unit) := by
  refine .modify fun s => .map (f := fun r => { r with
    semaphoreId := sem, state := .blockedSemaphore, stamp := s.insertions }) (fun _ hp => ?_) rfl
    (fun _ => ⟨rfl, rfl, rfl⟩) (fun _ _ _ => rfl) False.elim 
    (HoldsOfWrites.write _ _ p (fun r => { r with semaphoreId := sem, state := .blockedSemaphore, stamp := s.insertions })
      (fun _ => .of_eq rfl) rfl (fun _ => id) ⟨rfl, rfl, rfl, rfl⟩)
  exact ⟨hp.1, fun _ => rfl, (fun _ h => by cases h), fun _ _ => rfl, False.elim, False.elim, False.elim⟩

theorem apart_wait : Guards (Frame M False R) E (wait sem) := by
  refine .bind (.bind .get fun _ => .pure _) fun o => ?_
  split
  · exact apart_answer _ _
  · refine .bind respects_getCurrentProcess fun o => ?_
    split
    · exact apart_answer _ _
    · refine .bind apart_semSignal fun _ => .ite (apart_answer _ _) (.bind apart_modifySem fun _ => .ite ?_ ?_)
      · exact .bind apart_newNode fun _ => .bind (respects_deref _) fun _ => .bind apart_waitInsert fun _ =>
          .bind apart_markBlocked fun _ => apart_schedule (fun _ => rfl) False.elim (.inl fun _ h => by cases h)
      · exact apart_schedule (fun _ => rfl) False.elim (.inl fun _ h => by cases h)

theorem apart_waitResume : Guards (Frame M W R) E waitResume :=
  .bind respects_getCurrentProcess fun _ => .bind (respects_derefOpt _) fun _ => apart_answer _ _

theorem apart_signal : Guards (Frame M False R) E (signal sem) :=
  .bind apart_signalStep fun _ => .ite (apart_answer _ _) (.bind .get fun _ =>
    .ite (apart_scheduleAnswer _ _) (apart_answer _ _))

theorem apart_sdelete : Guards (Frame M False R) E (sdelete sem) := by
  refine .bind (.bind .get fun _ => .pure _) fun o => ?_
  split
  · exact apart_answer _ _
  · exact .bind .get fun _ => .bind (apart_unblockAll _) fun _ => .bind (apart_modify (fun _ => rfl) (fun _ => rfl)
      (fun _ _ => ⟨rfl, rfl, rfl⟩) (fun _ => False.elim) fun s => HoldsOfWrites.globals s _ rfl (fun _ => id) ⟨rfl, rfl, rfl, rfl⟩) fun _ => apart_scheduleAnswer _ _

theorem apart_sreset (count : Int) : Guards (Frame M False R) E (sreset sem count) := by
  refine .bind (.bind .get fun _ => .pure _) fun o => ?_
  split
  · exact apart_answer _ _
  · exact .ite (apart_answer _ _) (.bind .get fun _ => .bind (apart_unblockAll _) fun _ =>
      .bind apart_modifySem fun _ => apart_scheduleAnswer _ _)

theorem apart_tryWait : Guards (Frame M False R) E (tryWait sem) := by
  refine .bind (.bind .get fun _ => .pure _) fun o => ?_
  split
  · exact apart_answer _ _
  · exact .ite (.bind apart_modifySem fun _ => apart_scheduleAnswer _ _) (apart_answer _ _)

theorem apart_signaln (count : Int) : Guards (Frame M False R) E (signaln sem count) := by
  have parent : ∀ b, Guards (Frame M False R) E (modify fun s : Kernel => { s with parentBlock := b }) :=
    fun _ => apart_globals (fun _ => rfl) (fun _ => rfl) (fun _ => ⟨rfl, rfl, rfl⟩) (fun _ => ⟨rfl, rfl, rfl, rfl⟩) fun s => HoldsOfWrites.globals s _ rfl (fun _ => id) ⟨rfl, rfl, rfl, rfl⟩
  refine .bind (.bind .get fun _ => .pure _) fun o => ?_
  split
  · exact apart_answer _ _
  · refine .ite (apart_answer _ _) (.ite (apart_answer _ _) (.bind (parent _) fun _ => .bind (apart_signalnLoop _)
      fun _ => .ite (apart_answer _ _) (.bind (parent _) fun _ => apart_scheduleAnswer _ _)))

/-! ## `msgqueue.c` -/

theorem apart_validFid : Guards (Frame M W R) E (validFid fid) := .ite (.pure _) (.bind .get fun _ => .pure _)

theorem apart_derefQueue {q : QueuePtr} : Guards (Frame M W R) E (derefQueue q) := by
  refine .bind .get fun s => ?_
  split
  · exact .pure _
  · exact spares_throw fun _ => trivial

theorem apart_queueEmpty {hd : QueueHead} : Guards (Frame M W R) E (queueEmpty hd) := .bind .get fun _ => .pure _

omit [Spares R E] in
theorem apart_setQueue {q : QueuePtr} {m : Option MsgQueue} :
    Guards (Frame False W R) E (modify (·.setQueue q m) : KernelM Unit) :=
  apart_modify (fun _ => rfl) (fun _ => rfl) (fun _ => False.elim) (fun _ _ => ⟨rfl, rfl, rfl, rfl⟩)
    fun s => HoldsOfWrites.globals s _ rfl (fun _ => id) ⟨rfl, rfl, rfl, rfl⟩

/-- A message is written, and with it possibly a state. -/
theorem apart_message {f : Process → Process} (kept : ∀ r, ((f r).started, (f r).context, (f r).semSignal,
      (f r).semaphoreId, (f r).wakeTime, (f r).pid) = (r.started, r.context, r.semSignal, r.semaphoreId, r.wakeTime, r.pid))
    (state : ∀ r, (f r).state = r.state ∨ (f r).state ≠ .blockedSemaphore) : Guards (Frame False W R) E (modifyProc p f) := by
  simp only [Prod.mk.injEq] at kept
  refine apart_modifyProc (fun r hp => ?_) fun r => .of_eq (by simp [kept r])
  obtain ⟨started, context, signal, sem, -⟩ := kept r
  refine ⟨started ▸ hp.1, False.elim, False.elim, False.elim, fun _ => ⟨signal, sem⟩, fun _ h => ?_, fun _ h => context ▸ h⟩
  rcases state r with he | hne
  · rw [← he]
    exact h
  · exact absurd h hne

theorem apart_freeBlocked {hd : QueueHead} : Guards (Frame False W R) E (freeBlocked hd) := by
  have loop : ∀ n, Guards (Frame False W R) E (freeBlockedQueue hd n) := by
    intro n
    induction n with
    | zero => exact spares_throw fun _ => trivial
    | succ n ih =>
      refine .bind (apart_queueOut False.elim) fun o => ?_
      split
      · exact .pure _
      · exact .bind (apart_message (fun _ => rfl) fun _ => .inr fun h => by cases h)
          fun _ => .bind (apart_queueAdd False.elim (.inl fun h => by cases h)) fun _ => ih
  exact .bind .get fun _ => loop _

theorem apart_pcreate (count : Int) (queueOk arrOk : Bool) :
    Guards (Frame False W R) E (pcreate count queueOk arrOk) := by
  refine .ite (apart_answer _ _) (.bind .get fun s => ?_)
  split
  · exact apart_answer _ _
  · refine .ite (apart_answer _ _) (.bind .get fun _ => .bind (apart_modify (fun _ => rfl) (fun _ => rfl)
      (fun _ => False.elim) (fun _ _ => ⟨rfl, rfl, rfl, rfl⟩) fun s => HoldsOfWrites.globals s _ rfl (fun _ => id) ⟨rfl, rfl, rfl, rfl⟩) fun _ => .ite (apart_answer _ _) ?_)
    refine .bind (.modify fun s => ?_) fun _ => apart_answer _ _
    exact .of_heap rfl False.elim False.elim (fun _ => ⟨rfl, rfl, rfl, rfl⟩) (HoldsOfWrites.globals _ _ rfl (fun _ => id) ⟨rfl, rfl, rfl, rfl⟩)

theorem apart_pdelete : Guards (Frame False W R) E (pdelete fid) := by
  refine .bind apart_validFid fun o => ?_
  split
  · exact apart_answer _ _
  · exact .bind apart_derefQueue fun _ => .bind apart_freeBlocked fun _ => .bind apart_freeBlocked fun _ =>
      .bind (apart_modify (fun _ => rfl) (fun _ => rfl) (fun _ => False.elim) (fun _ _ => ⟨rfl, rfl, rfl, rfl⟩) fun s => HoldsOfWrites.globals s _ rfl (fun _ => id) ⟨rfl, rfl, rfl, rfl⟩)
        fun _ => apart_scheduleAnswer _ _

theorem apart_psend (message : Int) : Guards (Frame False W R) E (psend fid message) := by
  refine .bind apart_validFid fun o => ?_
  split
  · exact apart_answer _ _
  · refine .bind apart_derefQueue fun m => .bind apart_queueEmpty fun b => .ite ?_ (.ite ?_ ?_)
    · refine .bind (apart_queueOut False.elim) fun o => ?_
      split
      · exact spares_throw fun _ => trivial
      · exact .bind (apart_state _ (fun h => by cases h) (fun h => by cases h)) fun _ => .bind (apart_queueAdd False.elim (.inl (fun h => by cases h))) fun _ =>
          .bind (apart_message (fun _ => rfl) fun _ => .inl rfl)
            fun _ => .bind apart_setQueue fun _ => apart_scheduleAnswer _ _
    · refine .bind respects_getCurrentProcess fun o => ?_
      split
      · exact spares_throw fun _ => trivial
      · exact .bind (apart_message (fun _ => rfl) fun _ => .inr fun h => by cases h)
          fun _ => .bind (apart_queueAdd False.elim (.inl fun h => by cases h)) fun _ => apart_schedule False.elim (fun _ h => by cases h) (.inl fun _ h => by cases h)
    · exact .bind apart_setQueue fun _ => apart_answer _ _

theorem apart_psendResume : Guards (Frame M W R) E psendResume :=
  .bind respects_getCurrentProcess fun _ => .bind (respects_derefOpt _) fun _ =>
    .ite (apart_answer _ _) (apart_answer _ _)

theorem apart_preceiveWith {fault : KernelM Unit} (hf : Guards (Frame False W R) E fault) (message : UserPtr) :
    Guards (Frame False W R) E (preceiveWith fault fid message) := by
  refine .bind apart_validFid fun o => ?_
  split
  · exact apart_answer _ _
  · have sent : ∀ p, Guards (Frame False W R) E (modifyProc p fun r =>
        { r with message := { r.message with status := .sent } }) := fun _ =>
      apart_message (fun _ => rfl) fun _ => .inl rfl
    refine .bind apart_derefQueue fun m => .bind apart_queueEmpty fun b => .ite ?_ (.bind apart_queueEmpty fun b =>
      .ite ?_ (.bind apart_queueEmpty fun b => .ite ?_ ?_))
    · refine .bind (apart_queueOut False.elim) fun o => ?_
      split
      · exact spares_throw fun _ => trivial
      · exact .bind (sent _) fun _ => .bind (respects_deref _) fun _ => .bind apart_setQueue fun _ => .ite hf
          (.bind (apart_queueAdd False.elim (.inl fun h => by cases h)) fun _ => .bind apart_setQueue fun _ => apart_scheduleAnswer _ _)
    · refine .bind respects_getCurrentProcess fun o => ?_
      split
      · exact spares_throw fun _ => trivial
      · exact .bind (apart_message (fun _ => rfl) fun _ => .inr fun h => by cases h)
          fun _ => .bind (apart_queueAdd False.elim (.inl fun h => by cases h)) fun _ => apart_schedule False.elim (fun _ h => by cases h) (.inl fun _ h => by cases h)
    · refine .bind apart_setQueue fun _ => .ite hf (.bind (apart_queueOut False.elim) fun o => ?_)
      split
      · exact spares_throw fun _ => trivial
      · exact .bind (respects_deref _) fun _ => .bind apart_setQueue fun _ =>
          .bind (apart_message (fun _ => rfl) fun _ => .inr fun h => by cases h)
            fun _ => .bind (apart_queueAdd False.elim (.inl fun h => by cases h)) fun _ => apart_scheduleAnswer _ _
    · exact .bind apart_setQueue fun _ => .ite hf (.bind apart_setQueue fun _ => apart_answer _ _)

theorem apart_preceiveResumeWith {fault : KernelM Unit} (hf : Guards (Frame M W R) E fault) (message : UserPtr) :
    Guards (Frame M W R) E (preceiveResumeWith fault message) :=
  .bind respects_getCurrentProcess fun _ => .bind (respects_derefOpt _) fun _ =>
    .ite (apart_answer _ _) (.ite hf (apart_answer _ _))

theorem apart_pcount (count : Bool) : Guards (Frame M W R) E (pcount fid count) := by
  refine .bind apart_validFid fun o => ?_
  split
  · exact apart_answer _ _
  · refine .ite (apart_answer _ _) (.bind apart_derefQueue fun m => .bind apart_queueEmpty fun b => .ite ?_ ?_)
    · exact .bind .get fun _ => apart_answer _ _
    · exact .bind .get fun _ => apart_answer _ _

theorem apart_preset : Guards (Frame False W R) E (preset fid) := by
  refine .bind apart_validFid fun o => ?_
  split
  · exact apart_answer _ _
  · exact .bind apart_derefQueue fun _ => .bind apart_setQueue fun _ => .bind apart_freeBlocked fun _ =>
      .bind apart_freeBlocked fun _ => apart_scheduleAnswer _ _

/-! ## The console and the clock -/

theorem apart_ofConsole {α : Type} (o : Option α) : Guards (Frame M W R) E (ofConsole o) := by
  cases o with
  | none => exact spares_throw fun _ => trivial
  | some a => exact .pure _

theorem apart_consEcho (on : Int) (hR : ∀ (s : Kernel) b, R s { s with console := { s.console with echo := b } }) :
    Guards (Frame M W R) E (consEcho on) :=
  .bind (apart_globals (fun _ => rfl) (fun _ => rfl) (fun _ => ⟨rfl, rfl, rfl⟩) (fun _ => ⟨rfl, rfl, rfl, rfl⟩) fun s => hR s _)
    fun _ => apart_answer _ _

theorem apart_consReadLoop (length : Nat) (hR : ∀ (s : Kernel) c, R s { s with console := c })
    (hE : ∀ s, E s .copyAssert)
    (hK : ∀ s p, R s (s.mapProc p fun r => { r with context := .consRead length })) :
    Guards (Frame M W R) E (consReadLoop length) := by
  refine .bind .get fun s => .bind (apart_ofConsole _) fun eol => .ite ?_ (.ite (.throw hE) ?_)
  · refine .bind respects_getCurrentProcess fun o => ?_
    split
    · exact spares_throw fun _ => trivial
    · exact .bind (apart_state _ (fun h => by cases h) (fun h => by cases h)) fun _ => .bind (apart_queueAdd (fun _ => rfl) (.inl (fun h => by cases h))) fun _ =>
        apart_schedule (fun _ => rfl) (fun _ h => by cases h) (.inr hK)
  · refine .bind (apart_ofConsole _) fun c => .bind ?_ fun _ => apart_answer _ _
    exact apart_globals (fun _ => rfl) (fun _ => rfl) (fun _ => ⟨rfl, rfl, rfl⟩) (fun _ => ⟨rfl, rfl, rfl, rfl⟩) fun s => hR s _

theorem apart_consRead (length : Nat) (hR : ∀ (s : Kernel) c, R s { s with console := c })
    (hE : ∀ s, E s .copyAssert)
    (hK : ∀ s p, R s (s.mapProc p fun r => { r with context := .consRead length })) :
    Guards (Frame M W R) E (consRead length) :=
  .ite (apart_answer _ _) (apart_consReadLoop length hR hE hK)

theorem apart_handleKeyboardInterrupt (k : UInt8) (hR : ∀ (s : Kernel) c, R s { s with console := c }) :
    Guards (Frame M W R) E (handleKeyboardInterrupt k (.user none)) := by
  refine .bind .get fun s => .bind (apart_ofConsole _) fun c => .bind (apart_globals (fun _ => rfl) (fun _ => rfl)
    (fun _ => ⟨rfl, rfl, rfl⟩) (fun _ => ⟨rfl, rfl, rfl, rfl⟩) fun s => hR s _) fun _ => .bind (apart_queueOut fun _ => rfl) fun o => ?_
  split
  · exact apart_saveContext (fun _ => rfl) (fun _ h => by cases h) (.inl fun _ h => by cases h)
  · exact .bind (apart_state _ (fun h => by cases h) (fun h => by cases h)) fun _ => .bind (apart_queueAdd (fun _ => rfl) (.inl (fun h => by cases h))) fun _ =>
      apart_schedule (fun _ => rfl) (fun _ h => by cases h) (.inl fun _ h => by cases h)

theorem apart_handleStimerInterrupt {k : Context} (hm : k.mail = false) (hw : k ≠ .wait) (hr : ∀ n, k ≠ .consRead n)
    (hR : ∀ (s : Kernel) n, R s { s with counter := n }) :
    Guards (Frame M W R) E (handleStimerInterrupt k) :=
  .bind (apart_globals (fun _ => rfl) (fun _ => rfl) (fun _ => ⟨rfl, rfl, rfl⟩) (fun _ => ⟨rfl, rfl, rfl, rfl⟩) fun s => hR s _)
    fun _ => apart_schedule (fun _ => hm) (fun _ => hw) (.inl hr)

/-- Fields other than those of a call are written. -/
theorem apart_fields {f : Process → Process} (h : ∀ r, ((f r).call, (f r).pid) = (r.call, r.pid)) :
    Guards (Frame M W R) E (modifyProc p f) := by
  refine apart_modifyProc (.of_call fun r => congrArg Prod.fst (h r)) fun r => .of_eq ?_
  have hr := h r
  simp only [Process.call, Prod.mk.injEq] at hr
  simp [hr]

/-! ## `process_api.c` -/

theorem apart_getprio (pid : Int) : Guards (Frame M W R) E (getprio pid) :=
  .bind (.bind .get fun _ => .pure _) fun _ => .bind (respects_validate _) fun _ =>
    .ite (.pure _) (.bind (respects_derefOpt _) fun _ => .pure _)

theorem apart_freeChildZombieProcess : Guards (Frame M W R) E (freeChildZombieProcess p) :=
  .bind (respects_deref p) fun _ => .ite (.pure _) (.bind respects_getpid fun _ =>
    .ite (.bind (apart_state _ (fun h => by cases h) (fun h => by cases h)) fun _ => .pure _) apart_freeProcessMemory)

theorem apart_killZombies (i : Nat) (o : Option Ptr) : Guards (Frame M W R) E (killZombies i o) := by
  induction i generalizing o with
  | zero => exact spares_throw fun _ => trivial
  | succ i ih =>
    cases o with
    | none => exact .pure _
    | some temp =>
      have rest : Guards (Frame M W R) E (do
          let next := (← deref temp).nextSibling
          if (← freeChildZombieProcess temp) < 0 then pure (-1) else killZombies i next) :=
        .bind (respects_deref _) fun _ => .bind apart_freeChildZombieProcess fun _ => .ite (.pure _) (ih _)
      exact .bind (respects_deref _) fun r => .ite (.ite (.bind (.pure _) fun _ => rest) (.bind (ih _) fun _ => rest))
        (ih _)

theorem apart_turn (b : Bool) (pid : Int) : Guards (Frame M W R) E (turnCurrentProcessIntoAZombieOrKillIt b pid) := by
  have orphans : ∀ p, Guards (Frame M W R) E (makeChildrenOrphansAndKillZombies p) := fun p =>
    .bind (respects_deref p) fun _ => .ite (.pure _) (.bind .get fun _ => apart_killZombies _ _)
  refine .bind respects_getpid fun running => .bind (.bind .get fun _ => .pure _) fun o => ?_
  split
  · exact .pure _
  · refine .bind (orphans _) fun _ => .ite (.pure _) (.bind (apart_state _ (fun h => by cases h) (fun h => by cases h)) fun _ =>
      .bind (respects_deref _) fun r => ?_)
    split
    · exact apart_freeChildZombieProcess
    · refine .bind (respects_deref _) fun pr => .ite apart_freeChildZombieProcess (.ite ?_ (.pure _))
      exact .bind (apart_state _ (fun h => by cases h) (fun h => by cases h)) fun _ => .bind (apart_queueAdd (fun _ => rfl) (.inl (fun h => by cases h))) fun _ => .pure _

theorem apart_exitProcess {k : Context} (v : Int) (hm : k.mail = false) (hw : k ≠ .wait) (hr : ∀ n, k ≠ .consRead n) :
    Guards (Frame M W R) E (exitProcess v k) := by
  refine .bind respects_getCurrentProcess fun o => .bind (respects_validate _) fun _ => .ite (spares_throw fun _ => trivial)
    (.bind (apart_turn _ _) fun _ => .ite (spares_throw fun _ => trivial) (.bind respects_getCurrentProcess fun o => ?_))
  split
  · exact spares_throw fun _ => trivial
  · exact .bind (apart_fields fun _ => rfl)
      fun _ => apart_schedule (fun _ => hm) (fun _ => hw) (.inl hr)

theorem apart_findChild {found : Process → Bool} {before : Ptr} (i : Nat) (o : Option Ptr) :
    Guards (Frame M W R) E (findChild found i o before) := by
  induction i generalizing o before with
  | zero => exact spares_throw fun _ => trivial
  | succ i ih =>
    cases o with
    | none => exact .pure _
    | some temp => exact .bind (respects_deref _) fun _ => .ite (.pure _) (ih _)

theorem apart_findCurrentChild {found : Process → Bool} : Guards (Frame M W R) E (findCurrentChild found) := by
  refine .bind respects_getCurrentProcess fun o => .bind (respects_derefOpt _) fun r => ?_
  split
  · exact .pure _
  · exact .bind .get fun _ => apart_findChild _ _

theorem apart_waitpidFinish {temp before : Ptr} {retvalp : Bool} :
    Guards (Frame M W R) E (waitpidFinish temp before retvalp) := by
  have free := apart_freeChildZombieProcess (M := M) (W := W) (R := R) (E := E) (p := temp)
  refine .bind (respects_deref _) fun r => .bind (.bind (respects_deref _) fun r => ?_) fun _ =>
    .ite (apart_answer _ _) (apart_answer _ _)
  split
  · exact .pure _
  · refine .bind (respects_deref _) fun pr => .ite (.pure _) (.ite (.bind ?_ fun _ => free)
      (.ite (.bind ?_ fun _ => free) (.ite (.bind ?_ fun _ => .bind ?_ fun _ => free) (.bind ?_ fun _ => free))))
    all_goals exact apart_fields fun _ => rfl

theorem apart_waitForChild {k : Context} (hm : k.mail = false) (hw : k ≠ .wait) (hr : ∀ n, k ≠ .consRead n) :
    Guards (Frame M W R) E (waitForChild k) := by
  refine .bind respects_getCurrentProcess fun o => ?_
  split
  · exact spares_throw fun _ => trivial
  · exact .bind (apart_state _ (fun h => by cases h) (fun h => by cases h)) fun _ => apart_schedule (fun _ => hm) (fun _ => hw) (.inl hr)

theorem apart_waitpidAny (retvalp : Bool) : Guards (Frame M W R) E (waitpidAny retvalp) := by
  refine .bind apart_findCurrentChild fun o => ?_
  split
  · exact apart_waitpidFinish
  · exact apart_waitForChild rfl (fun h => by cases h) (fun _ h => by cases h)

theorem apart_waitpidChild (temp before : Ptr) (retvalp : Bool) :
    Guards (Frame M W R) E (waitpidChild temp before retvalp) :=
  .bind (respects_deref _) fun _ => .ite apart_waitpidFinish (apart_waitForChild rfl (fun h => by cases h) (fun _ h => by cases h))

theorem apart_waitpid (pid : Int) (retvalp : Bool) : Guards (Frame M W R) E (waitpid pid retvalp) := by
  refine .bind respects_getCurrentProcess fun o => .bind (respects_derefOpt _) fun c => .ite (apart_answer _ _)
    (.ite (apart_waitpidAny _) (.bind apart_findCurrentChild fun o => ?_))
  split
  · exact apart_answer _ _
  · exact apart_waitpidChild _ _ _

theorem apart_waitClock (clock : Nat) (hb : IgnoresAsleep R)
    (hR : ∀ s p v, R s (s.mapProc p fun r => { r with wakeTime := v, state := .asleep })) : Guards (Frame M W R) E (waitClock clock) := by
  refine .bind respects_getCurrentProcess fun o => ?_
  split
  · exact spares_throw fun _ => trivial
  · next c =>
    refine .bind .get fun s => .bind (.bind (respects_deref c) fun _ => .modify fun u => ?_) fun _ =>
      .bind (apart_queueAdd (fun _ => rfl) (.inr hb)) fun _ => apart_scheduleAnswer _ _
    refine .map (p := c) (f := fun r => { r with
      wakeTime := Int.bmod (-(s.counter + clock : Nat)) (2 ^ 64), state := .asleep }) (fun _ hp => ?_) rfl
      (fun _ => ⟨rfl, rfl, rfl⟩) (fun _ _ _ => rfl) (fun _ => ⟨rfl, rfl, rfl, rfl⟩) (hR u c _)
    exact ⟨hp.1, fun _ => rfl, (fun _ h => by cases h), fun _ _ => rfl, fun _ => ⟨rfl, rfl⟩, (fun _ h => by cases h), fun _ => id⟩

/-- The relation holds of the writes of `start`: a process is counted, and a record that is
not started yet appears. -/
structure HoldsOfStarts (R : Kernel → Kernel → Prop) : Prop where
  enlist : ∀ (s : Kernel) n, R s { s with nbProcRunning := n }
  pids : ∀ (s : Kernel) l n, R s { s with processIdList := l, pidIterator := n }
  alloc : ∀ (s t : Kernel) r, r.started = false → t.heap = Function.update s.heap s.nextPtr (some r) →
    t.nextPtr = s.nextPtr + 1 → t.pidProcessHashTable = Function.update s.pidProcessHashTable r.pid (some s.nextPtr) →
    t.queue = s.queue → t.console = s.console → t.counter = s.counter → R s t

theorem HoldsOfStarts.all : HoldsOfStarts fun _ _ => True := ⟨fun _ _ => trivial, fun _ _ _ => trivial, fun _ _ _ _ _ _ _ _ _ _ => trivial⟩

theorem apart_newRecord (garbage : Process) (prio : Int) (hR : HoldsOfStarts R) :
    Guards (Frame M W R) E (newRecord garbage prio) := by
  have pid : Guards (Frame M W R) E incrementPidAndGetNewPid := by
    refine .bind .get fun s => ?_
    split
    · exact .bind (apart_globals (fun _ => rfl) (fun _ => rfl) (fun _ => ⟨rfl, rfl, rfl⟩)
        (fun _ => ⟨rfl, rfl, rfl, rfl⟩) fun s => hR.pids s _ _) fun _ => .pure _
    · exact .bind (apart_globals (fun _ => rfl) (fun _ => rfl) (fun _ => ⟨rfl, rfl, rfl⟩)
        (fun _ => ⟨rfl, rfl, rfl, rfl⟩) fun s => hR.pids s _ _) fun _ => .bind .get fun _ => .pure _
  refine .bind pid fun k u => ?_
  simp only [wp_bind, wp_get, wp_modify, wp_pure]
  refine ⟨fun _ => ⟨rfl, rfl, rfl⟩, fun _ _ _ => rfl, fun _ => ⟨rfl, rfl, rfl, rfl⟩, fun q y hy hp => ?_,
    hR.alloc _ _ _ rfl rfl rfl rfl rfl rfl rfl⟩
  rcases heap_update_cases hy with ⟨_, hv⟩ | ⟨_, hy⟩
  · cases hv
    cases hp.1
  · exact ⟨y, hy, .refl hp.1⟩

theorem apart_startFinish (prio : Int) : Guards (Frame M W R) E (startFinish p prio) := by
  have attach : Guards (Frame M W R) E (attachToParent p) := by
    refine .bind respects_getCurrentProcess fun o => ?_
    split
    · exact apart_fields fun _ => rfl
    · refine .bind (apart_fields fun _ => rfl)
        fun _ => .bind (respects_deref _) fun r => ?_
      split
      · exact .bind (apart_fields fun _ => rfl)
          fun _ => apart_fields fun _ => rfl
      · exact apart_fields fun _ => rfl
  -- the record becomes that of a process in user mode
  refine .bind attach fun _ => .bind (apart_modifyProc (fun r hp => ?_) fun _ => ⟨rfl, by simp, rfl⟩) fun _ => .bind (apart_queueAdd (fun _ => rfl) (.inl fun h => by cases h))
    fun _ => .bind respects_getpid fun _ => .bind (apart_getprio _) fun _ => .ite
      (apart_schedule (fun _ => rfl) (fun _ h => by cases h) (.inl fun _ h => by cases h)) (.bind (respects_deref _) fun _ => apart_answer _ _)
  rcases hp.2 with ⟨_, h | h⟩ | ⟨_, h | h⟩ <;> cases h

theorem apart_startVirtual (name : Option (List UInt8)) (ssize : Nat) (prio : Int) (env : StartEnv)
    (hR : HoldsOfStarts R) : Guards (Frame M W R) E (startVirtual name ssize prio env) := by
  cases name with
  | none => exact apart_answer _ _
  | some name =>
    refine .bind .get fun s => .ite (apart_answer _ _) (.bind (apart_globals (fun _ => rfl) (fun _ => rfl)
      (fun _ => ⟨rfl, rfl, rfl⟩) (fun _ => ⟨rfl, rfl, rfl, rfl⟩) fun s => hR.enlist s _) fun _ => .bind respects_getpid fun _ =>
        .bind respects_getCurrentProcess fun _ => .bind (respects_validate _) fun _ => .ite (apart_answer _ _)
          (.ite (apart_answer _ _) (.ite (apart_answer _ _) (.bind .get fun s => .ite (apart_answer _ _) ?_))))
    split
    · exact apart_answer _ _
    · exact .bind (apart_newRecord _ _ hR) fun _ => .ite (apart_startFinish _) (apart_answer _ _)

theorem apart_startResume : Guards (Frame M W R) E (startResume p) := .bind (respects_deref p) fun _ => apart_answer _ _

end

end Xinul
