import Xinul.Kernel.Scheduler

/-!
# What scheduling leaves alone

`scheduler` and the list functions touch neither the semaphores nor the message
queues.
-/

namespace Xinul

open Prog

/-- The part of the state scheduling has nothing to do with. -/
def Kernel.rest (s : Kernel) :=
  ((s.semaphoreTable, s.node, s.nextNode, s.semaphoreIdCounter, s.parentBlock),
    (s.allQueues, s.msgQueue, s.nextQueue), (s.counter, s.console, s.virt))

section any

variable {γ : Type} {φ : Kernel → γ}

theorem keeps_deref (p : Ptr) : Keeps φ (deref p) := by
  refine .bind .get fun s => ?_
  split
  · exact .pure _
  · exact .throw _

theorem keeps_getCurrentProcess : Keeps φ getCurrentProcess :=
  .bind (.bind .get fun _ => .pure _) fun _ => .bind .get fun _ => .pure _

theorem keeps_modifyProc {f : Process → Process} {p : Ptr} (h : ∀ s, φ (s.mapProc p f) = φ s) :
    Keeps φ (modifyProc p f) :=
  .bind (keeps_deref p) fun _ => .modify h

theorem keeps_queueWalk {f : Process → Int} {e : Ptr} {v : Int} (l : List Ptr) :
    Keeps φ (queueWalk f e v l) := by
  induction l with
  | nil => exact .pure _
  | cons c l ih => exact .bind (keeps_deref c) fun r => .ite (.bind ih fun _ => .pure _) (.pure _)

theorem keeps_queueAdd {f : Process → Int} {e : Ptr} {hd : QueueHead}
    (h : ∀ s l, φ (s.link e hd l) = φ s) : Keeps φ (queueAdd e hd f) := by
  refine .bind (keeps_deref e) fun r => ?_
  split
  · exact .throw _
  · exact .bind .get fun s => .bind (keeps_queueWalk _) fun l => .modify fun s => h s l

theorem keeps_queueDel {e : Ptr} (h : ∀ s hd, φ (s.unlink e hd) = φ s) : Keeps φ (queueDel e) := by
  refine .bind (keeps_deref e) fun r => ?_
  split
  · exact .throw _
  · exact .modify fun s => h s _

theorem keeps_queueOut {hd : QueueHead} (h : ∀ s e, φ (s.unlink e hd) = φ s) :
    Keeps φ (queueOut hd) := by
  refine .bind .get fun s => ?_
  split
  · exact .pure _
  · exact .bind (keeps_deref _) fun _ => .bind (.modify fun s => h s _) fun _ => .pure _

end any

/-! ## `scheduler` -/

theorem keeps_awakeSleepingProcess : Keeps Kernel.rest awakeSleepingProcess := by
  have wake : Keeps Kernel.rest getNextWakeTime := by
    refine .bind (.bind .get fun _ => .pure _) fun p => ?_
    split
    · exact .pure _
    · refine .bind (keeps_deref _) fun r => ?_
      dsimp only
      split
      · exact .throw _
      · exact .pure _
  have loop : ∀ n, Keeps Kernel.rest (awakeSleepingLoop n) := by
    intro n
    induction n with
    | zero => exact .throw _
    | succ n ih =>
      refine .bind wake fun t => .bind .get fun s => .ite ?_ (.pure _)
      refine .bind (keeps_queueOut fun _ _ => rfl) fun o => ?_
      split
      · exact .throw _
      · exact .bind (keeps_queueAdd fun _ _ => rfl) fun _ => ih
  exact .bind .get fun s => loop _

theorem keeps_freeDeadProcess : Keeps Kernel.rest freeDeadProcess := by
  have loop : ∀ n, Keeps Kernel.rest (freeDeadLoop n) := by
    intro n
    induction n with
    | zero => exact .throw _
    | succ n ih =>
      refine .bind (keeps_queueOut fun _ _ => rfl) fun o => ?_
      split
      · exact .pure _
      · refine .bind ?_ fun _ => ih
        exact .bind (keeps_deref _) fun _ => .bind (.modify fun _ => rfl) fun _ => .pure _
  exact .bind .get fun s => loop _

theorem keeps_dispatch {p : Ptr} {k : KernelM Unit} (hk : Keeps Kernel.rest k) :
    Keeps Kernel.rest (dispatch p k) := by
  refine .bind (keeps_queueOut fun _ _ => rfl) fun _ => .bind (keeps_deref p) fun r => ?_
  refine .bind (.bind (.bind .get fun _ => .pure _) fun o => ?_) fun v => .ite (.pure _) hk
  split
  · exact .pure _
  · exact .bind (.modify fun _ => rfl) fun _ => .pure _

theorem keeps_scheduleNext : Keeps Kernel.rest scheduleNext := by
  have upd : ∀ (p : Ptr) (f : Process → Process), Keeps Kernel.rest (modifyProc p f) :=
    fun p f => keeps_modifyProc fun _ => rfl
  refine .bind (.bind .get fun _ => .pure _) fun pid => .ite ?_ (.bind .get fun s => .ite ?_ ?_)
  · refine .bind (.bind .get fun _ => .pure _) fun o => ?_
    split
    · exact .pure _
    · exact keeps_dispatch (.bind (upd _ _) fun _ => .modify fun _ => rfl)
  · refine .bind keeps_getCurrentProcess fun o => ?_
    split
    · exact .pure _
    · exact .modify fun _ => rfl
  · refine .bind keeps_getCurrentProcess fun o => .bind (.bind .get fun _ => .pure _) fun o' => ?_
    split
    · refine .bind (keeps_deref _) fun c => .ite ?_ (.ite ?_ ?_)
      · refine .bind (keeps_deref _) fun r => .ite ?_ (.pure _)
        exact keeps_dispatch (.bind (upd _ _) fun _ => .bind (upd _ _) fun _ =>
          keeps_queueAdd fun _ _ => rfl)
      · exact .bind (keeps_queueAdd fun _ _ => rfl) fun _ => keeps_dispatch (upd _ _)
      · exact keeps_dispatch (upd _ _)
    · exact .pure _

theorem keeps_scheduler : Keeps Kernel.rest scheduler :=
  .bind keeps_awakeSleepingProcess fun _ => .bind keeps_freeDeadProcess fun _ => keeps_scheduleNext

theorem keeps_saveContext (k : Context) : Keeps Kernel.rest (saveContext k) := by
  refine .bind keeps_getCurrentProcess fun o => ?_
  split
  · exact .pure _
  · exact keeps_modifyProc fun _ => rfl

theorem keeps_schedule (k : Context) : Keeps Kernel.rest (schedule k) :=
  .bind (keeps_saveContext k) fun _ => keeps_scheduler

end Xinul
