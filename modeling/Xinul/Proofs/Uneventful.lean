import Xinul.Proofs.Along
import Xinul.Proofs.FrameSteps

/-!
# What changes nothing a parent waits for

Only `exit_process`, `kill` and `waitpid` make a process a zombie, store its return value
or make it wait for a child. Every other function leaves these things alone in every
record there was before it.
-/

namespace Xinul

open Prog

/-- Between `x` and `y` the process has not ended and has not begun to wait for a child. -/
structure Process.Uneventful (x y : Process) : Prop where
  returnValue : y.returnValue = x.returnValue
  parent : y.parent = x.parent
  started : y.started = x.started
  zombie : y.state = .zombie → x.state = .zombie
  waits : y.state = .blockedWaitChild → x.state = .blockedWaitChild

theorem Process.Uneventful.refl (x : Process) : x.Uneventful x := ⟨rfl, rfl, rfl, id, id⟩

theorem Process.Uneventful.trans {x y z : Process} (h : x.Uneventful y) (h' : y.Uneventful z) : x.Uneventful z where
  returnValue := h'.returnValue.trans h.returnValue
  parent := h'.parent.trans h.parent
  started := h'.started.trans h.started
  zombie hz := h.zombie (h'.zombie hz)
  waits hz := h.waits (h'.waits hz)

instance : IsPreorder Process Process.Uneventful where
  refl := .refl
  trans _ _ _ := .trans

/-- Nor did anything happen to its place among the children of its parent. -/
structure Process.KeepsFamily (x y : Process) : Prop extends Process.Uneventful x y where
  sibling : y.nextSibling = x.nextSibling

/-- A state that is neither of the two is written. -/
theorem Process.KeepsFamily.state {st : ProcessState} (hz : st ≠ .zombie) (hw : st ≠ .blockedWaitChild) (x : Process) :
    x.KeepsFamily { x with state := st } := ⟨⟨rfl, rfl, rfl, fun h => absurd h hz, fun h => absurd h hw⟩, rfl⟩

/-- A relation that looks at nothing but these fields. -/
class IgnoresOtherFields (R : Process → Process → Prop) : Prop extends IsPreorder Process R where
  keepsFamily : ∀ x y : Process, x.KeepsFamily y → R x y

instance : IgnoresOtherFields Process.Uneventful where
  keepsFamily _ _ h := h.toUneventful

theorem Allows.of_ignores {R : Process → Process → Prop} [IgnoresOtherFields R] : Allows R where
  link _ _ _ := IgnoresOtherFields.keepsFamily _ _ ⟨⟨rfl, rfl, rfl, id, id⟩, rfl⟩
  actif x := IgnoresOtherFields.keepsFamily _ _ (.state (by decide) (by decide) x)
  activatable x := IgnoresOtherFields.keepsFamily _ _ (.state (by decide) (by decide) x)

/-- No process has ended or has begun to wait for a child. -/
abbrev Unmoved : Kernel → Kernel → Prop := Along Process.Uneventful

section

variable {p q : Ptr} {hd : QueueHead} {k : Context} {R : Process → Process → Prop} [IgnoresOtherFields R]

/-- Nobody has begun to wait for a child. -/
theorem Unmoved.not_waiting {s t : Kernel} {x y : Process} (h : Unmoved s t) (hx : s.heap p = some x)
    (hw : x.state ≠ .blockedWaitChild) (hy : t.heap p = some y) : y.state ≠ .blockedWaitChild := by
  obtain ⟨x', hx', hxy⟩ := h p y hy
  rw [hx] at hx'
  cases hx'
  exact fun hb => hw (hxy.waits hb)

/-- Links of the family are written. -/
theorem unmoved_links {f : Process → Process} (kept : ∀ r, ((f r).returnValue, (f r).parent, (f r).started, (f r).state) =
      (r.returnValue, r.parent, r.started, r.state)) : Respects Unmoved (modifyProc q f) := by
  refine along_modifyProc fun r => ?_
  have hk := kept r
  simp only [Prod.mk.injEq] at hk
  obtain ⟨value, parent, started, state⟩ := hk
  exact ⟨value, parent, started, fun h => state ▸ h, fun h => state ▸ h⟩

/-! ## Reading, writing and chaining -/

theorem unmoved_write {f : Process → Process} (hf : ∀ r : Process, r.KeepsFamily (f r)) : Respects (Along R) (modifyProc q f) :=
  along_modifyProc fun r => IgnoresOtherFields.keepsFamily _ _ (hf r)

theorem unmoved_state {st : ProcessState} (hz : st ≠ .zombie) (hw : st ≠ .blockedWaitChild) :
    Respects (Along R) (modifyProc q fun r => { r with state := st }) := unmoved_write (.state hz hw)

theorem unmoved_globals {f : Kernel → Kernel} (h : ∀ s, (f s).heap = s.heap) : Respects (Along R) (modify f : KernelM Unit) :=
  along_globals h

theorem unmoved_queueAdd {f : Process → Int} : Respects (Along R) (queueAdd q hd f) := along_queueAdd .of_ignores

theorem unmoved_queueOut : Respects (Along R) (queueOut hd) := along_queueOut .of_ignores

theorem unmoved_queueDel : Respects (Along R) (queueDel q) := by
  refine .bind (respects_deref q) fun r => ?_
  split
  · exact .throw fun _ => trivial
  · refine .modify fun s => ?_
    exact .map (f := fun r => { r with nextPrev := none }) (fun _ => IgnoresOtherFields.keepsFamily _ _ ⟨⟨rfl, rfl, rfl, id, id⟩, rfl⟩) rfl

/-- A woken process is chained into the activatable queue. -/
theorem unmoved_activate {α : Type} {rest : KernelM α} (h : Respects (Along R) rest) :
    Respects (Along R) (do
      modifyProc q fun r => { r with state := .activatable }
      queueAdd q .activatable Process.prioField
      rest) :=
  .bind (unmoved_state (by decide) (by decide)) fun _ => .bind unmoved_queueAdd fun _ => h

theorem unmoved_saveContext : Respects (Along R) (saveContext k) := by
  refine .bind respects_getCurrentProcess fun o => ?_
  split
  · exact .pure _
  · exact unmoved_write fun _ => ⟨⟨rfl, rfl, rfl, id, id⟩, rfl⟩

theorem unmoved_schedule : Respects (Along R) (schedule k) := .bind unmoved_saveContext fun _ => along_scheduler .of_ignores

theorem unmoved_answer (v : Int) (w : List Int) : Respects (Along R) (answer v w) := unmoved_saveContext

theorem unmoved_scheduleAnswer (v : Int) (w : List Int) : Respects (Along R) (scheduleAnswer v w) := unmoved_schedule

/-! ## `semaphore_api.c` -/

section semaphore

variable {sem : Int} {n : NodePtr}

theorem unmoved_derefSem : Respects (Along R) (derefSem sem) := by
  refine .bind .get fun s => ?_
  split
  · exact .pure _
  · exact .throw fun _ => trivial

theorem unmoved_derefNode : Respects (Along R) (derefNode n) := by
  refine .bind .get fun s => ?_
  split
  · exact .pure _
  · exact .throw fun _ => trivial

theorem unmoved_modifySem {f : Semaphore → Semaphore} : Respects (Along R) (modifySem sem f) :=
  .bind unmoved_derefSem fun _ => unmoved_globals fun _ => rfl

theorem unmoved_setNextBlockStruct {next : Option NodePtr} : Respects (Along R) (setNextBlockStruct n next) :=
  .bind unmoved_derefNode fun _ => unmoved_globals fun _ => rfl

theorem unmoved_semSignal {v : Int} : Respects (Along R) (modifyProc q fun r => { r with semSignal := v }) :=
  unmoved_write fun _ => ⟨⟨rfl, rfl, rfl, id, id⟩, rfl⟩

theorem unmoved_removeProcQueue {signal pid : Int} : Respects (Along R) (removeProcQueue sem signal pid) := by
  have finish : ∀ n, Respects (Along R) (removeFinish signal n) := by
    intro n
    have rest : ∀ q, Respects (Along R) (do
        modifyProc q fun r => { r with semSignal := signal }
        pure (0 : Int)) := fun q => .bind unmoved_semSignal fun _ => .pure _
    exact .bind unmoved_derefNode fun nd => .bind (unmoved_state (by decide) (by decide)) fun _ =>
      .ite (.bind unmoved_queueAdd fun _ => rest _) (rest _)
  have tail : ∀ o i n, Respects (Along R) (beforeTail o i n) := by
    intro o i
    induction i with
    | zero => exact fun _ => .throw fun _ => trivial
    | succ i ih =>
      intro n
      refine .bind unmoved_derefNode fun nd => .ite (.pure _) ?_
      split
      · exact .throw fun _ => trivial
      · exact ih _
  have middle : ∀ i o n, Respects (Along R) (removeMiddle pid i o n) := by
    intro i
    induction i with
    | zero => exact fun _ _ => .throw fun _ => trivial
    | succ i ih =>
      intro o n
      cases o with
      | none => exact .pure _
      | some iter =>
        exact .bind unmoved_derefNode fun nd => .bind (respects_deref _) fun r =>
          .ite (.bind unmoved_setNextBlockStruct fun _ => .pure _) (ih _ _)
  refine .bind unmoved_derefSem fun st => ?_
  split
  · exact .pure _
  · exact .pure _
  · refine .bind unmoved_derefNode fun hd => .ite (.bind (respects_deref _) fun r =>
      .ite (.bind unmoved_modifySem fun _ => finish _) (.pure _)) (.bind (respects_deref _) fun r =>
      .ite (.bind unmoved_modifySem fun _ => finish _) ?_)
    split
    · exact .throw fun _ => trivial
    · refine .bind unmoved_derefNode fun nd => .bind (respects_deref _) fun r => .ite ?_ ?_
      · exact .bind .get fun s => .bind (tail _ _ _) fun iter => .bind unmoved_setNextBlockStruct fun _ =>
          .bind unmoved_modifySem fun _ => finish _
      · refine .bind .get fun s => .bind (middle _ _ _) fun o => ?_
        split
        · exact .pure _
        · exact finish _

theorem unmoved_procKillDiag {pid : Int} : Respects (Along R) (procKillDiag sem pid) := by
  refine .bind (.bind .get fun _ => .pure _) fun o => ?_
  split
  · exact .pure _
  · refine .ite (.pure _) (.bind unmoved_modifySem fun _ => .ite ?_ (.pure _))
    exact .bind unmoved_removeProcQueue fun _ => .pure _

theorem unmoved_unblockProcessSem {signal : Int} : Respects (Along R) (unblockProcessSem sem signal) := by
  refine .bind unmoved_derefSem fun st => ?_
  split
  · exact .pure _
  · exact .pure _
  · have wake : ∀ q, Respects (Along R) (do
        modifyProc q fun r => { r with state := .activatable }
        queueAdd q .activatable Process.prioField
        modifyProc q fun r => { r with semSignal := signal }
        pure (0 : Int)) := fun q => unmoved_activate (.bind unmoved_semSignal fun _ => .pure _)
    exact .bind unmoved_derefNode fun hd => .ite (.bind unmoved_modifySem fun _ => wake _)
      (.bind unmoved_modifySem fun _ => wake _)

theorem unmoved_unblockAll {signal : Int} (i : Nat) : Respects (Along R) (unblockAll sem signal i) := by
  induction i with
  | zero => exact .throw fun _ => trivial
  | succ i ih => exact .bind unmoved_unblockProcessSem fun _ => .ite ih (.pure _)

theorem unmoved_signalStep : Respects (Along R) (signalStep sem) := by
  refine .bind (.bind .get fun _ => .pure _) fun o => ?_
  split
  · exact .pure _
  · refine .ite (.pure _) (.bind unmoved_modifySem fun _ => .ite ?_ (.pure _))
    exact .bind unmoved_unblockProcessSem fun _ => .pure _

theorem unmoved_wait : Respects (Along R) (wait sem) := by
  have walk : ∀ prio i o n, Respects (Along R) (waitWalk prio i o n) := by
    intro prio i
    induction i with
    | zero => exact fun _ _ => .throw fun _ => trivial
    | succ i ih =>
      intro o n
      cases o with
      | none => exact .pure _
      | some iter => exact .bind unmoved_derefNode fun nd => .bind (respects_deref _) fun r => .ite (.pure _) (ih _ _)
  have insert : ∀ n prio, Respects (Along R) (waitInsert sem n prio) := by
    intro n prio
    refine .bind unmoved_derefSem fun st => .ite unmoved_modifySem ?_
    split
    · split
      · exact .throw fun _ => trivial
      · exact .bind unmoved_setNextBlockStruct fun _ => unmoved_modifySem
    · refine .bind .get fun s => .bind (walk _ _ _ _) fun o => ?_
      split
      · exact .bind unmoved_setNextBlockStruct fun _ => .ite unmoved_modifySem unmoved_setNextBlockStruct
      · split
        · exact .throw fun _ => trivial
        · exact .bind unmoved_setNextBlockStruct fun _ => unmoved_modifySem
  have mark : ∀ q, Respects (Along R) (modify (·.markBlocked q sem) : KernelM Unit) := fun q => .modify fun s =>
    .map (f := fun r => { r with semaphoreId := sem, state := .blockedSemaphore, stamp := s.insertions })
      (fun _ => IgnoresOtherFields.keepsFamily _ _ ⟨⟨rfl, rfl, rfl, fun h => (by cases h), fun h => (by cases h)⟩, rfl⟩) rfl
  have node : ∀ q, Respects (Along R) (newNode q) := fun q => .bind .get fun _ =>
    .bind (unmoved_globals fun _ => rfl) fun _ => .pure _
  refine .bind (.bind .get fun _ => .pure _) fun o => ?_
  split
  · exact unmoved_answer _ _
  · refine .bind respects_getCurrentProcess fun o => ?_
    split
    · exact unmoved_answer _ _
    · refine .bind unmoved_semSignal fun _ => .ite (unmoved_answer _ _) (.bind unmoved_modifySem fun _ => .ite ?_ ?_)
      · exact .bind (node _) fun _ => .bind (respects_deref _) fun _ => .bind (insert _ _) fun _ =>
          .bind (mark _) fun _ => unmoved_schedule
      · exact unmoved_schedule

theorem unmoved_signal : Respects (Along R) (signal sem) :=
  .bind unmoved_signalStep fun _ => .ite (unmoved_answer _ _) (.bind .get fun _ =>
    .ite (unmoved_scheduleAnswer _ _) (unmoved_answer _ _))

theorem unmoved_sdelete : Respects (Along R) (sdelete sem) := by
  refine .bind (.bind .get fun _ => .pure _) fun o => ?_
  split
  · exact unmoved_answer _ _
  · exact .bind .get fun _ => .bind (unmoved_unblockAll _) fun _ => .bind (unmoved_globals fun _ => rfl) fun _ =>
      unmoved_scheduleAnswer _ _

theorem unmoved_sreset (count : Int) : Respects (Along R) (sreset sem count) := by
  refine .bind (.bind .get fun _ => .pure _) fun o => ?_
  split
  · exact unmoved_answer _ _
  · exact .ite (unmoved_answer _ _) (.bind .get fun _ => .bind (unmoved_unblockAll _) fun _ =>
      .bind unmoved_modifySem fun _ => unmoved_scheduleAnswer _ _)

theorem unmoved_tryWait : Respects (Along R) (tryWait sem) := by
  refine .bind (.bind .get fun _ => .pure _) fun o => ?_
  split
  · exact unmoved_answer _ _
  · exact .ite (.bind unmoved_modifySem fun _ => unmoved_scheduleAnswer _ _) (unmoved_answer _ _)

theorem unmoved_signaln (count : Int) : Respects (Along R) (signaln sem count) := by
  have loop : ∀ i, Respects (Along R) (signalnLoop sem i) := by
    intro i
    induction i with
    | zero => exact .pure _
    | succ i ih => exact .bind unmoved_signalStep fun _ => .ite (.pure _) ih
  refine .bind (.bind .get fun _ => .pure _) fun o => ?_
  split
  · exact unmoved_answer _ _
  · refine .ite (unmoved_answer _ _) (.ite (unmoved_answer _ _) (.bind (unmoved_globals fun _ => rfl) fun _ =>
      .bind (loop _) fun _ => .ite (unmoved_answer _ _) ?_))
    exact .bind (unmoved_globals fun _ => rfl) fun _ => unmoved_scheduleAnswer _ _

theorem unmoved_screate (count : Int) (semOk : Bool) : Respects (Along R) (screate count semOk) := by
  refine .ite (unmoved_answer _ _) (.bind .get fun s => .ite (unmoved_answer _ _) (.ite (unmoved_answer _ _) (.bind .get fun s => ?_)))
  refine .ite (.bind (.throw fun _ => trivial) fun _ => ?_) ?_ <;>
    exact .bind (unmoved_globals fun _ => rfl) fun _ => unmoved_answer _ _

theorem unmoved_scount : Respects (Along R) (scount sem) := by
  refine .bind (.bind .get fun _ => .pure _) fun o => ?_
  split
  · exact unmoved_answer _ _
  · exact unmoved_answer _ _

end semaphore

/-! ## `msgqueue.c` -/

section messages

variable {fid : Int}

theorem unmoved_validFid : Respects (Along R) (validFid fid) := .ite (.pure _) (.bind .get fun _ => .pure _)

theorem unmoved_derefQueue {m : QueuePtr} : Respects (Along R) (derefQueue m) := by
  refine .bind .get fun s => ?_
  split
  · exact .pure _
  · exact .throw fun _ => trivial

theorem unmoved_queueEmpty : Respects (Along R) (queueEmpty hd) := .bind .get fun _ => .pure _

theorem unmoved_setQueue {m : QueuePtr} {v : Option MsgQueue} : Respects (Along R) (modify (·.setQueue m v) : KernelM Unit) :=
  unmoved_globals fun _ => rfl

/-- Other fields are written, and with them possibly a state. -/
theorem unmoved_fields {f : Process → Process} (kept : ∀ r, ((f r).returnValue, (f r).parent, (f r).started, (f r).nextSibling) =
      (r.returnValue, r.parent, r.started, r.nextSibling))
    (state : ∀ r, (f r).state = r.state ∨ (f r).state ≠ .zombie ∧ (f r).state ≠ .blockedWaitChild) :
    Respects (Along R) (modifyProc q f) := by
  refine unmoved_write fun r => ?_
  have hk := kept r
  simp only [Prod.mk.injEq] at hk
  obtain ⟨value, parent, started, sibling⟩ := hk
  rcases state r with he | ⟨hz, hw⟩
  · exact ⟨⟨value, parent, started, fun h => he ▸ h, fun h => he ▸ h⟩, sibling⟩
  · exact ⟨⟨value, parent, started, fun h => absurd h hz, fun h => absurd h hw⟩, sibling⟩

theorem unmoved_freeBlocked : Respects (Along R) (freeBlocked hd) := by
  have loop : ∀ n, Respects (Along R) (freeBlockedQueue hd n) := by
    intro n
    induction n with
    | zero => exact .throw fun _ => trivial
    | succ n ih =>
      refine .bind unmoved_queueOut fun o => ?_
      split
      · exact .pure _
      · exact .bind (unmoved_fields (fun _ => rfl) fun _ => .inr (by simp)) fun _ =>
          .bind unmoved_queueAdd fun _ => ih
  exact .bind .get fun _ => loop _

theorem unmoved_pcreate (count : Int) (queueOk arrOk : Bool) : Respects (Along R) (pcreate count queueOk arrOk) := by
  refine .ite (unmoved_answer _ _) (.bind .get fun s => ?_)
  split
  · exact unmoved_answer _ _
  · exact .ite (unmoved_answer _ _) (.bind .get fun _ => .bind (unmoved_globals fun _ => rfl) fun _ =>
      .ite (unmoved_answer _ _) (.bind (unmoved_globals fun _ => rfl) fun _ => unmoved_answer _ _))

theorem unmoved_pdelete : Respects (Along R) (pdelete fid) := by
  refine .bind unmoved_validFid fun o => ?_
  split
  · exact unmoved_answer _ _
  · exact .bind unmoved_derefQueue fun _ => .bind unmoved_freeBlocked fun _ => .bind unmoved_freeBlocked fun _ =>
      .bind (unmoved_globals fun _ => rfl) fun _ => unmoved_scheduleAnswer _ _

theorem unmoved_psend (message : Int) : Respects (Along R) (psend fid message) := by
  refine .bind unmoved_validFid fun o => ?_
  split
  · exact unmoved_answer _ _
  · refine .bind unmoved_derefQueue fun m => .bind unmoved_queueEmpty fun b => .ite ?_ (.ite ?_ ?_)
    · refine .bind unmoved_queueOut fun o => ?_
      split
      · exact .throw fun _ => trivial
      · exact unmoved_activate (.bind (unmoved_fields (fun _ => rfl) fun _ => .inl rfl) fun _ =>
          .bind unmoved_setQueue fun _ => unmoved_scheduleAnswer _ _)
    · refine .bind respects_getCurrentProcess fun o => ?_
      split
      · exact .throw fun _ => trivial
      · exact .bind (unmoved_fields (fun _ => rfl) fun _ => .inr (by simp)) fun _ =>
          .bind unmoved_queueAdd fun _ => unmoved_schedule
    · exact .bind unmoved_setQueue fun _ => unmoved_answer _ _

/-- `preceive` leaves these things alone if what it does when its store faults does. -/
theorem unmoved_preceiveWith {fault : KernelM Unit} (hf : Respects (Along R) fault) (message : UserPtr) :
    Respects (Along R) (preceiveWith fault fid message) := by
  refine .bind unmoved_validFid fun o => ?_
  split
  · exact unmoved_answer _ _
  · refine .bind unmoved_derefQueue fun m => .bind unmoved_queueEmpty fun b => .ite ?_ (.bind unmoved_queueEmpty fun b =>
      .ite ?_ (.bind unmoved_queueEmpty fun b => .ite ?_ ?_))
    · refine .bind unmoved_queueOut fun o => ?_
      split
      · exact .throw fun _ => trivial
      · exact .bind (unmoved_fields (fun _ => rfl) fun _ => .inl rfl) fun _ => .bind (respects_deref _) fun _ =>
          .bind unmoved_setQueue fun _ => .ite hf
            (.bind unmoved_queueAdd fun _ => .bind unmoved_setQueue fun _ => unmoved_scheduleAnswer _ _)
    · refine .bind respects_getCurrentProcess fun o => ?_
      split
      · exact .throw fun _ => trivial
      · exact .bind (unmoved_fields (fun _ => rfl) fun _ => .inr (by simp)) fun _ =>
          .bind unmoved_queueAdd fun _ => unmoved_schedule
    · refine .bind unmoved_setQueue fun _ => .ite hf (.bind unmoved_queueOut fun o => ?_)
      split
      · exact .throw fun _ => trivial
      · exact .bind (respects_deref _) fun _ => .bind unmoved_setQueue fun _ =>
          .bind (unmoved_fields (fun _ => rfl) fun _ => .inr (by simp)) fun _ =>
          .bind unmoved_queueAdd fun _ => unmoved_scheduleAnswer _ _
    · exact .bind unmoved_setQueue fun _ => .ite hf (.bind unmoved_setQueue fun _ => unmoved_answer _ _)

theorem unmoved_pcount (count : Bool) : Respects (Along R) (pcount fid count) := by
  refine .bind unmoved_validFid fun o => ?_
  split
  · exact unmoved_answer _ _
  · exact .ite (unmoved_answer _ _) (.bind unmoved_derefQueue fun m => .bind unmoved_queueEmpty fun b =>
      .ite (.bind .get fun _ => unmoved_answer _ _) (.bind .get fun _ => unmoved_answer _ _))

theorem unmoved_preset : Respects (Along R) (preset fid) := by
  refine .bind unmoved_validFid fun o => ?_
  split
  · exact unmoved_answer _ _
  · exact .bind unmoved_derefQueue fun _ => .bind unmoved_setQueue fun _ => .bind unmoved_freeBlocked fun _ =>
      .bind unmoved_freeBlocked fun _ => unmoved_scheduleAnswer _ _

theorem unmoved_psendResume : Respects (Along R) psendResume :=
  .bind respects_getCurrentProcess fun _ => .bind (respects_derefOpt _) fun _ => .ite (unmoved_answer _ _) (unmoved_answer _ _)

theorem unmoved_preceiveResumeWith {fault : KernelM Unit} (hf : Respects (Along R) fault) (message : UserPtr) :
    Respects (Along R) (preceiveResumeWith fault message) :=
  .bind respects_getCurrentProcess fun _ => .bind (respects_derefOpt _) fun _ =>
    .ite (unmoved_answer _ _) (.ite hf (unmoved_answer _ _))

theorem unmoved_waitResume : Respects (Along R) waitResume :=
  .bind respects_getCurrentProcess fun _ => .bind (respects_derefOpt _) fun _ => unmoved_answer _ _

end messages

/-! ## The console and the clock -/

theorem unmoved_ofConsole {α : Type} (o : Option α) : Respects (Along R) (ofConsole o) := by
  unfold ofConsole
  split
  · exact .pure _
  · exact .throw fun _ => trivial

theorem unmoved_consEcho (on : Int) : Respects (Along R) (consEcho on) :=
  .bind (unmoved_globals fun _ => rfl) fun _ => unmoved_answer _ _

theorem unmoved_consReadLoop (length : Nat) : Respects (Along R) (consReadLoop length) := by
  refine .bind .get fun s => .bind (unmoved_ofConsole _) fun eol => .ite (.bind respects_getCurrentProcess fun o => ?_)
    (.ite (.throw fun _ => trivial) (.bind (unmoved_ofConsole _) fun _ => .bind (unmoved_globals fun _ => rfl) fun _ =>
      unmoved_answer _ _))
  split
  · exact .throw fun _ => trivial
  · exact .bind (unmoved_state (by decide) (by decide)) fun _ => .bind unmoved_queueAdd fun _ => unmoved_schedule

theorem unmoved_handleKeyboardInterrupt (c : UInt8) : Respects (Along R) (handleKeyboardInterrupt c k) := by
  refine .bind .get fun s => .bind (unmoved_ofConsole _) fun _ => .bind (unmoved_globals fun _ => rfl) fun _ =>
    .bind unmoved_queueOut fun o => ?_
  split
  · exact unmoved_saveContext
  · exact unmoved_activate unmoved_schedule

theorem unmoved_handleStimerInterrupt : Respects (Along R) (handleStimerInterrupt k) :=
  .bind (unmoved_globals fun _ => rfl) fun _ => unmoved_schedule

theorem unmoved_waitClock (clock : Nat) : Respects (Along R) (waitClock clock) := by
  refine .bind respects_getCurrentProcess fun o => ?_
  split
  · exact .throw fun _ => trivial
  · exact .bind .get fun s => .bind (unmoved_fields (fun _ => rfl) fun _ => .inr (by simp)) fun _ =>
      .bind unmoved_queueAdd fun _ => unmoved_scheduleAnswer _ _

/-! ## `process_api.c` -/

theorem unmoved_getprio (pid : Int) : Respects (Along R) (getprio pid) :=
  .bind (.bind .get fun _ => .pure _) fun _ => .bind (respects_validate _) fun _ => .ite (.pure _)
    (.bind (respects_derefOpt _) fun _ => .pure _)

theorem unmoved_touchHead : Respects (Along R) (touchHead hd) := by
  cases hd with
  | blockedCons q | blockedProd q =>
    refine .bind .get fun s => ?_
    split
    · exact .pure _
    · exact .throw fun _ => trivial
  | _ => exact .pure _

theorem unmoved_chprio (pid newprio : Int) : Respects (Along R) (chprio pid newprio) := by
  refine .bind (.bind .get fun _ => .pure _) fun o => ?_
  split
  · exact unmoved_answer _ _
  · refine .ite (unmoved_answer _ _) (.bind (respects_validate _) fun _ => .ite (unmoved_answer _ _)
      (.bind (respects_deref _) fun _ => .bind (unmoved_fields (fun _ => rfl) fun _ => .inl rfl) fun _ =>
        .bind (respects_deref _) fun r => ?_))
    split
    · exact .bind unmoved_queueDel fun _ => .bind unmoved_queueAdd fun _ => unmoved_scheduleAnswer _ _
    · exact unmoved_scheduleAnswer _ _
    · refine .bind unmoved_queueDel fun _ => ?_
      split
      · exact .throw fun _ => trivial
      · exact .bind unmoved_touchHead fun _ => .bind unmoved_queueAdd fun _ => unmoved_answer _ _
    · exact .bind unmoved_queueDel fun _ => .bind unmoved_queueAdd fun _ => unmoved_answer _ _
    · exact unmoved_answer _ _

theorem unmoved_freeProcessMemory : Respects (Along R) (freeProcessMemory q) := by
  refine .bind (respects_deref q) fun r => .bind (.modify fun s p y hy => ?_) fun _ => .pure _
  rcases heap_update_cases hy with ⟨_, hv⟩ | ⟨_, hy⟩
  · cases hv
  · exact ⟨y, hy, refl_of R y⟩

theorem unmoved_freeChildZombieProcess : Respects (Along R) (freeChildZombieProcess q) :=
  .bind (respects_deref q) fun _ => .ite (.pure _) (.bind respects_getpid fun _ =>
    .ite (.bind (unmoved_state (by decide) (by decide)) fun _ => .pure _) unmoved_freeProcessMemory)

theorem unmoved_makeChildren : Respects (Along R) (makeChildrenOrphansAndKillZombies q) := by
  have loop : ∀ n o, Respects (Along R) (killZombies n o) := by
    intro n
    induction n with
    | zero => exact fun _ => .throw fun _ => trivial
    | succ n ih =>
      intro o
      cases o with
      | none => exact .pure _
      | some temp =>
        have rest : Respects (Along R) (do
            let next := (← deref temp).nextSibling
            if (← freeChildZombieProcess temp) < 0 then pure (-1) else killZombies n next) :=
          .bind (respects_deref _) fun _ => .bind unmoved_freeChildZombieProcess fun _ => .ite (.pure _) (ih _)
        apply Guards.bind (respects_deref _)
        exact fun r => .ite (.ite (.bind (.pure _) fun _ => rest) (.bind (ih _) fun _ => rest)) (ih _)
  exact .bind (respects_deref q) fun _ => .ite (.pure _) (.bind .get fun _ => loop _ _)

theorem unmoved_leaveQueue : Respects (Along R) (leaveQueueProcessIfNeeded q) :=
  .bind (respects_deref q) fun _ => .ite (.bind unmoved_procKillDiag fun _ => .ite (.pure _) (.pure _))
    (.bind unmoved_queueDel fun _ => .pure _)

theorem unmoved_waitpidFinish (temp before : Ptr) (retvalp : Bool) : Respects Unmoved (waitpidFinish temp before retvalp) := by
  have unlink : Respects Unmoved (freeProcessArgAndFixTreeLink temp before) := by
    refine .bind (respects_deref temp) fun r => ?_
    split
    · exact .pure _
    · refine .bind (respects_deref _) fun pr => .ite (.pure _) (.ite ?_ (.ite ?_ (.ite ?_ ?_)))
      · exact .bind (unmoved_links fun _ => rfl) fun _ => unmoved_freeChildZombieProcess
      · exact .bind (unmoved_links fun _ => rfl) fun _ => unmoved_freeChildZombieProcess
      · exact .bind (unmoved_links fun _ => rfl) fun _ =>
          .bind (unmoved_links fun _ => rfl) fun _ => unmoved_freeChildZombieProcess
      · exact .bind (unmoved_links fun _ => rfl) fun _ => unmoved_freeChildZombieProcess
  exact .bind (respects_deref temp) fun r => .bind unlink fun _ => .ite (unmoved_answer _ _) (unmoved_answer _ _)

/-- The calls that end nobody, start nobody and wait for nobody, whatever their arguments are. -/
def Syscall.plain : Syscall → Bool
  | .start .. | .kill _ | .waitpid .. | .exit _ | .preceive .. => false
  | _ => true

theorem unmoved_syscallHandler {sc : Syscall} (h : sc.plain = true) : Respects (Along R) (syscallHandler sc) := by
  cases sc with
  | start | kill | waitpid | exit | preceive => cases h
  | getpid => exact .bind respects_getpid fun _ => unmoved_answer _ _
  | getprio pid => exact .bind (unmoved_getprio _) fun _ => unmoved_answer _ _
  | chprio pid newprio => exact unmoved_chprio _ _
  | consRead length => exact .ite (unmoved_answer _ _) (unmoved_consReadLoop _)
  | consEcho on => exact unmoved_consEcho _
  | pcount fid count => exact unmoved_pcount _
  | pcreate count queueOk arrOk => exact unmoved_pcreate _ _ _
  | pdelete fid => exact unmoved_pdelete
  | preset fid => exact unmoved_preset
  | psend fid message => exact unmoved_psend _
  | sleep nbrMs => exact unmoved_waitClock _
  | waitClock clock => exact unmoved_waitClock _
  | currentClock => exact .bind .get fun _ => unmoved_answer _ _
  | scount sem => exact unmoved_scount
  | screate count semOk => exact unmoved_screate _ _
  | sdelete sem => exact unmoved_sdelete
  | signal sem => exact unmoved_signal
  | signaln sem count => exact unmoved_signaln _
  | sreset sem count => exact unmoved_sreset _
  | tryWait sem => exact unmoved_tryWait
  | wait sem => exact unmoved_wait

end

end Xinul
