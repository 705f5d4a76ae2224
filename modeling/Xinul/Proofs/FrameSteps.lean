import Xinul.Proofs.ApartCalls

/-!
# What every step leaves alone

`Frame False False R` asks nothing of the messages and the semaphores: it is there for
the relations `R` that hold of every write of the kernel. Whole steps are framed here, the
calls that work on the console and `start` being left to the caller.
-/

namespace Xinul

open Prog

section

variable {R : Kernel → Kernel → Prop} {E : Kernel → Fault → Prop} [HoldsOfWrites R] [Spares R E]
  {s : Kernel} {p : Ptr}

/-- A record is written. -/
theorem frame_write {f : Process → Process} (hw : ∀ r : Process, r.Mild (f r)) :
    Guards (Frame False False R) E (modifyProc p f) :=
  apart_modifyProc (fun r hp => absurd hp.2 (by simp)) hw

theorem frame_queueDel : Guards (Frame False False R) E (queueDel p) := by
  refine .bind (respects_deref p) fun r => ?_
  split
  · exact spares_throw fun _ => trivial
  · exact .modify fun s => .unlink False.elim

theorem frame_touchHead (hd : QueueHead) : Guards (Frame False False R) E (touchHead hd) := by
  cases hd with
  | blockedCons q | blockedProd q =>
    refine .bind .get fun s => ?_
    split
    · exact .pure _
    · exact spares_throw fun _ => trivial
  | _ => exact .pure _

theorem frame_chprio (pid newprio : Int) (hb : IgnoresAsleep R) : Guards (Frame False False R) E (chprio pid newprio) := by
  refine .bind (.bind .get fun _ => .pure _) fun o => ?_
  split
  · exact apart_answer _ _
  · refine .ite (apart_answer _ _) (.bind (respects_validate _) fun _ => .ite (apart_answer _ _)
      (.bind (respects_deref _) fun _ => .bind (frame_write fun _ => .of_eq rfl) fun _ => .bind (respects_deref _) fun r => ?_))
    split
    · exact .bind frame_queueDel fun _ => .bind (apart_queueAdd False.elim (.inl fun h => by cases h)) fun _ => apart_scheduleAnswer _ _
    · exact apart_scheduleAnswer _ _
    · refine .bind frame_queueDel fun _ => ?_
      split
      · exact spares_throw fun _ => trivial
      · exact .bind (frame_touchHead _) fun _ => .bind (apart_queueAdd False.elim (.inr hb)) fun _ => apart_answer _ _
    · exact .bind frame_queueDel fun _ => .bind (apart_queueAdd False.elim (.inl fun h => by cases h)) fun _ => apart_answer _ _
    · exact apart_answer _ _

theorem frame_killOther (pid : Int) : Guards (Frame False False R) E (killOther p pid) := by
  have leave : Guards (Frame False False R) E (leaveQueueProcessIfNeeded p) :=
    .bind (respects_deref p) fun _ => .ite (.bind apart_procKillDiag fun _ => .ite (.pure _) (.pure _))
      (.bind frame_queueDel fun _ => .pure _)
  exact .bind leave fun _ => .ite (.pure _) (.bind (apart_turn _ _) fun _ => .ite (.pure _)
    (.bind (frame_write fun _ => .of_eq rfl) fun _ => .pure _))

theorem frame_killWith (pid : Int) (after : Ptr → Context) {finish : Int → KernelM Unit}
    (hm : ∀ p, (after p).mail = false) (hw : ∀ p, after p ≠ .wait) (hr : ∀ p n, after p ≠ .consRead n)
    (hf : ∀ v, Guards (Frame False False R) E (finish v)) : Guards (Frame False False R) E (killWith pid after finish) := by
  refine .ite (hf _) (.bind (.bind .get fun _ => .pure _) fun o => ?_)
  split
  · exact hf _
  · refine .bind (respects_validate _) fun _ => .ite (hf _) (.bind (respects_deref _) fun _ =>
      .bind respects_getpid fun _ => .ite (apart_exitProcess _ (hm _) (hw _) (hr _)) (.bind (frame_killOther _) fun _ => hf _))

theorem frame_kill (pid : Int) : Guards (Frame False False R) E (kill pid) :=
  frame_killWith pid (fun p => .killSelf p pid) (fun _ => rfl) (fun _ => by simp)
    (fun _ _ => by simp) fun _ => apart_answer _ _

theorem frame_pageFault : Guards (Frame False False R) E pageFault :=
  .bind respects_getpid fun _ => frame_killWith _ _ (fun _ => rfl) (fun _ h => by cases h) (fun _ _ h => by cases h) fun _ =>
    apart_schedule False.elim False.elim (.inl fun _ h => by cases h)

theorem frame_timer (hR : ∀ (s : Kernel) n, R s { s with counter := n }) :
    Guards (Frame False False R) E (step .timer) := by
  refine .bind .get fun s => ?_
  cases s.virt
  · exact apart_handleStimerInterrupt (k := .user none) rfl (by simp) (by simp) hR
  · exact apart_handleStimerInterrupt (k := .stimer) rfl (by simp) (by simp) hR

/-- The calls that write more than a relation has to bear. -/
def Syscall.special : Syscall → Bool
  | .start .. | .chprio .. | .consRead _ | .consEcho _ | .sleep _ | .waitClock _ => true
  | _ => false

theorem frame_syscall {sc : Syscall} (special : sc.special = true →
      wp (syscallHandler sc) (fun _ t => Frame False False R s t) (E s) s) :
    wp (syscallHandler sc) (fun _ t => Frame False False R s t) (E s) s := by
  cases sc with
  | start name ssize prio env => exact special rfl
  | getpid => exact Guards.bind respects_getpid (fun _ => apart_answer _ _) s
  | getprio pid => exact Guards.bind (apart_getprio _) (fun _ => apart_answer _ _) s
  | chprio pid newprio => exact special rfl
  | kill pid => exact frame_kill _ s
  | waitpid pid retvalp => exact apart_waitpid _ _ s
  | exit retval => exact apart_exitProcess (k := .exitProcess) _ rfl (by simp) (by simp) s
  | consRead length => exact special rfl
  | consEcho on => exact special rfl
  | pcount fid count => exact apart_pcount _ s
  | pcreate count queueOk arrOk => exact apart_pcreate _ _ _ s
  | pdelete fid => exact apart_pdelete s
  | preceive fid message => exact apart_preceiveWith frame_pageFault _ s
  | preset fid => exact apart_preset s
  | psend fid message => exact apart_psend _ s
  | sleep nbrMs => exact special rfl
  | waitClock clock => exact special rfl
  | currentClock => exact Guards.bind .get (fun _ => apart_answer _ _) s
  | scount sem => exact apart_scount s
  | screate count semOk => exact apart_screate _ _ s
  | sdelete sem => exact apart_sdelete s
  | signal sem => exact apart_signal s
  | signaln sem count => exact apart_signaln _ s
  | sreset sem count => exact apart_sreset _ s
  | tryWait sem => exact apart_tryWait s
  | wait sem => exact apart_wait s

/-- A kernel function goes on; `cons_read` and the clock are left to the caller. -/
theorem frame_resume (read : ∀ r length, s.current = some r → r.context = .consRead length →
      wp (consReadLoop length) (fun _ t => Frame False False R s t) (E s) s)
    (tick : ∀ r, s.current = some r → r.context = .stimer →
      wp (handleStimerInterrupt (.user none)) (fun _ t => Frame False False R s t) (E s) s) :
    wp resume (fun _ t => Frame False False R s t) (E s) s := by
  rw [resume, wp_bind, wp_getCurrentProcess, wp_bind]
  cases hp : s.pidProcessHashTable s.currentRunningProcessPid with
  | none => exact Spares.cause (R := R) trivial
  | some p =>
    refine wp_deref_any (Spares.cause (R := R) trivial) fun r hr => ?_
    have hcur : s.current = some r := by simp [Kernel.current, hp, hr]
    cases hctx : r.context with
    | user a => exact Guards.pure (R := Frame False False R) () s
    | start p => exact apart_startResume s
    | psend => exact apart_psendResume s
    | preceive message => exact apart_preceiveResumeWith frame_pageFault _ s
    | wait => exact apart_waitResume s
    | waitpidAny retvalp => exact apart_waitpidAny _ s
    | waitpidChild temp before retvalp => exact apart_waitpidChild _ _ _ s
    | consRead length => exact read r length hcur hctx
    | stimer => exact tick r hcur hctx
    | exitProcess => exact apart_answer _ _ s
    | killSelf p pid => exact Guards.bind (frame_killOther _) (fun _ => apart_answer _ _) s
    | pageFault p pid => exact Guards.bind (frame_killOther _) (fun _ => apart_schedule (k := .user none) False.elim False.elim (.inl fun _ h => by cases h)) s

/-- The event works on the console. -/
def Event.onConsole (s : Kernel) : Event → Prop
  | .syscall (.consRead _) | .syscall (.consEcho _) | .keyboard _ => True
  | .resume => ∃ r n, s.current = some r ∧ r.context = .consRead n
  | _ => False

/-- A relation that looks neither at who is asleep nor at the clock. -/
structure Timeless (R : Kernel → Kernel → Prop) : Prop extends HoldsOfStarts R where
  ignoresAsleep : IgnoresAsleep R
  asleep : ∀ s p v, R s (s.mapProc p fun r => { r with wakeTime := v, state := .asleep })
  clock : ∀ (s : Kernel) n, R s { s with counter := n }

theorem frame_step {e : Event} (hR : Timeless R)
    (console : e.onConsole s → wp (step e) (fun _ t => Frame False False R s t) (E s) s) :
    wp (step e) (fun _ t => Frame False False R s t) (E s) s := by
  cases e with
  | syscall sc =>
    refine frame_syscall fun _ => ?_
    cases sc with
    | start name ssize prio env => exact apart_startVirtual _ _ _ _ hR.toHoldsOfStarts s
    | chprio pid newprio => exact frame_chprio _ _ hR.ignoresAsleep s
    | sleep nbrMs => exact apart_waitClock _ hR.ignoresAsleep hR.asleep s
    | waitClock clock => exact apart_waitClock _ hR.ignoresAsleep hR.asleep s
    | consRead length => exact console trivial
    | consEcho on => exact console trivial
    | _ => contradiction
  | timer => exact frame_timer hR.clock s
  | keyboard k => exact console trivial
  | pageFault => exact frame_pageFault s
  | resume =>
    by_cases hc : ∃ r n, s.current = some r ∧ r.context = .consRead n
    · exact console hc
    · refine frame_resume (fun r n hr hctx => absurd ⟨r, n, hr, hctx⟩ hc) fun _ _ _ => ?_
      exact apart_handleStimerInterrupt (k := .user none) rfl (by simp) (by simp) hR.clock s

/-- A relation that does not look at the console either, nor at what a reader reads. -/
structure Indifferent (R : Kernel → Kernel → Prop) : Prop where
  ignoresAsleep : IgnoresAsleep R
  asleep : ∀ s p v, R s (s.mapProc p fun r => { r with wakeTime := v, state := .asleep })
  clock : ∀ (s : Kernel) n, R s { s with counter := n }
  console : ∀ (s : Kernel) c, R s { s with console := c }
  reads : ∀ s p n, R s (s.mapProc p fun r => { r with context := .consRead n })

omit [Spares R E] in
/-- Only `start` is left to the caller. -/
theorem frame_step_but_start {e : Event} (hR : Indifferent R)
    (start : ∀ name ssize prio env, e = .syscall (.start name ssize prio env) →
      wp (step e) (fun _ t => Frame False False R s t) (fun _ => True) s) :
    wp (step e) (fun _ t => Frame False False R s t) (fun _ => True) s := by
  cases e with
  | syscall sc =>
    refine frame_syscall (E := fun _ _ => True) fun _ => ?_
    cases sc with
    | start name ssize prio env => exact start name ssize prio env rfl
    | chprio pid newprio => exact Respects.run (frame_chprio _ _ hR.ignoresAsleep) s
    | sleep nbrMs => exact Respects.run (apart_waitClock _ hR.ignoresAsleep hR.asleep) s
    | waitClock clock => exact Respects.run (apart_waitClock _ hR.ignoresAsleep hR.asleep) s
    | consRead length =>
      exact Respects.run (apart_consRead length hR.console (fun _ => trivial) fun s p => hR.reads s p length) s
    | consEcho on => exact Respects.run (apart_consEcho _ fun s _ => hR.console s _) s
    | _ => contradiction
  | timer => exact Respects.run (frame_timer hR.clock) s
  | keyboard k => exact Respects.run (apart_handleKeyboardInterrupt k hR.console) s
  | pageFault => exact Respects.run frame_pageFault s
  | resume =>
    refine frame_resume (E := fun _ _ => True) (fun r n _ _ => ?_) fun _ _ _ => ?_
    · exact Respects.run (apart_consReadLoop n hR.console (fun _ => trivial) fun s p => hR.reads s p n) s
    · exact Respects.run (apart_handleStimerInterrupt rfl (by simp) (by simp) hR.clock) s

end

end Xinul
