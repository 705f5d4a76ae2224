import Xinul.Proofs.Counting
import Xinul.Runs.Base

/-!
# The counts of the semaphores

What a call does to the count of its semaphore is an exact sum in the integers, from any
state, or the call is refused. `signaln` is so many increments with their wake-ups: the
flag that keeps `signal` from calling `scheduler` is set and taken back, and its return
from within the loop is never taken. Only `sreset` does not look at the upper limit of an
`int16_t`.
-/

namespace Xinul

open Prog Machine

/-- The call gives back a negative value and changes no count. -/
def Refused (s t : Kernel) : Prop :=
  t.counting = s.counting ∧ ∃ c v, s.caller = some c ∧ v < 0 ∧ Answers t c v []

/-- The count of the semaphore `i` is `v` now, or the semaphore is gone. -/
def Recounted (s : Kernel) (i : Int) (v : Option Int) (t : Kernel) : Prop :=
  t.counting = (Function.update s.counts i v, s.parentBlock)

/-- What a call does to the counts: `some (i, v)` if it is accepted, `none` if it is refused. -/
def Settled (s : Kernel) (o : Option (Int × Option Int)) (t : Kernel) : Prop :=
  match o with
  | some (i, v) => Recounted s i v t
  | none => Refused s t

/-- The count `f v` for the semaphore `i`, if its count `v` passes the test. -/
def Kernel.recount (s : Kernel) (i : Int) (ok : Int → Bool) (f : Int → Option Int) : Option (Int × Option Int) :=
  match s.counts i with
  | some v => if ok v then some (i, f v) else none
  | none => none

/-- The process waits for a semaphore. -/
def Kernel.waits (s : Kernel) (p : Ptr) : Prop := (s.heap p).map (·.state) = some .blockedSemaphore

/-- The count of the semaphore the process waits for, one unit more. -/
def Kernel.unwait (s : Kernel) (p : Ptr) : Option (Int × Option Int) :=
  match s.heap p with
  | some x => if x.state = .blockedSemaphore then s.recount x.semaphoreId (· ≠ maxCount) fun v => some (v + 1) else none
  | none => none

/-- The process `kill(pid)` ends if it is not the one that runs. -/
def Kernel.other (s : Kernel) (pid : Int) : Option Ptr :=
  if pid = idleId ∨ pid = kernelId then none
  else (s.pidProcessHashTable pid).filter fun p => (s.heap p).map (·.pid) ≠ some s.currentRunningProcessPid

/-- The process that is ended by another one, or has ended itself and is looked at again. -/
def Event.slain (s : Kernel) : Event → Option Ptr
  | .syscall (.kill pid) => s.other (toInt32 pid)
  | .pageFault => s.other s.currentRunningProcessPid
  | .resume => match s.current.map (·.context) with
    | some (Context.killSelf p _) => some p
    | some (Context.pageFault p _) => some p
    | _ => none
  | _ => none

/-- The semaphore an event works on and its new count, an exact sum in the integers, if the
call is accepted. `narrow` is what becomes of the count given to `sreset`. -/
def Event.recount (narrow : Int → Int) (s : Kernel) : Event → Option (Int × Option Int)
  | .syscall (.screate count semOk) => if 0 ≤ toInt16 count ∧ s.currentlyRunningSemaphores ≠ nbMaxSems ∧ semOk = true then
      some (s.semaphoreIdCounter + 1, some (toInt16 count)) else none
  | .syscall (.wait sem) => s.recount (toInt32 sem) (· ≠ minCount) fun v => some (v - 1)
  | .syscall (.tryWait sem) => s.recount (toInt32 sem) (0 < ·) fun v => some (v - 1)
  | .syscall (.signal sem) => s.recount (toInt32 sem) (· ≠ maxCount) fun v => some (v + 1)
  | .syscall (.signaln sem count) => s.recount (toInt32 sem)
      (fun v => 0 ≤ toInt16 count ∧ v + toInt16 count ≤ maxCount) fun v => some (v + toInt16 count)
  | .syscall (.sreset sem count) => s.recount (toInt32 sem) (fun _ => 0 ≤ toInt32 count)
      fun _ => some (narrow (toInt32 count))
  | .syscall (.sdelete sem) => s.recount (toInt32 sem) (fun _ => true) fun _ => none
  | e => (e.slain s).bind s.unwait

/-- The event is a call that works on a count. -/
def Event.onCount (s : Kernel) : Event → Prop
  | .syscall (.screate _ _) | .syscall (.wait _) | .syscall (.tryWait _) | .syscall (.signal _) => True
  | .syscall (.signaln _ _) | .syscall (.sreset _ _) | .syscall (.sdelete _) => True
  | .syscall (.kill pid) => ∃ p, s.other (toInt32 pid) = some p ∧ s.waits p
  | _ => False

/-- The counts are those the event is to leave, or none changed and the call was refused. -/
def Exactly (narrow : Int → Int) (s : Kernel) (e : Event) (t : Kernel) : Prop :=
  match e.recount narrow s with
  | some (i, v) => t.counts = Function.update s.counts i v
  | none => t.counts = s.counts ∧ (e.onCount s → ∃ c v, s.caller = some c ∧ v < 0 ∧ Answers t c v [])

/-- `count++` and the wake-up that goes with it: what `signal` does before it calls
`scheduler`. -/
def signalUnit (sem : Int) : KernelM Unit := do
  modifySem sem fun st => { st with count := st.count + 1 }
  if (← derefSem sem).count ≤ 0 then
    let _ ← unblockProcessSem sem signalCall

/-- So many increments with their wake-ups. -/
def signalUnits (sem : Int) : Nat → KernelM Unit
  | 0 => pure ()
  | n + 1 => do
    signalUnit sem
    signalUnits sem n

section

variable {α : Type} {s t u : Kernel} {e : Event} {sem i v : Int} {w : Option Int} {st : Semaphore} {c p : Ptr} {r : Process}
  {m : KernelM α} {Q : Unit → Kernel → Prop} {E : Fault → Prop}

theorem Recounts.after (hm : Recounts m) (h : Recounted s i w u) : wp m (fun _ t => Recounted s i w t) (fun _ => True) u :=
  wp_mono (hm u) (fun _ _ _ ht => ht.trans h) (fun _ _ h => h)

theorem counts_some (h : s.semaphoreTable sem = some st) : s.counts sem = some st.count := by
  simp [Kernel.counts, h]

theorem counts_none (h : s.semaphoreTable sem = none) : s.counts sem = none := by
  simp [Kernel.counts, h]

theorem of_counts (h : s.counts sem = some v) : ∃ st, s.semaphoreTable sem = some st ∧ st.count = v :=
  Option.map_eq_some_iff.1 h

theorem recounted_setSem (st' : Option Semaphore) : Recounted s sem (st'.map (·.count)) (s.setSem sem st') := by
  have hcounts : (s.setSem sem st').counts = Function.update s.counts sem (st'.map (·.count)) := by
    funext j
    by_cases hj : j = sem
    · subst hj
      simp [Kernel.counts, Kernel.setSem]
    · simp [Kernel.counts, Kernel.setSem, hj]
  exact Prod.ext hcounts rfl

theorem Recounted.counts (h : Recounted s sem w t) : t.counts = Function.update s.counts sem w := congrArg Prod.fst h

theorem Recounted.flag (h : Recounted s sem w t) : t.parentBlock = s.parentBlock := congrArg Prod.snd h

theorem wp_refuse {e : Int} (hs : u.counting = s.counting) (htable : s.caller = some c) (hu : u.caller = s.caller)
    (hr : u.heap c = some r) (he : e < 0) : wp (answer e []) (fun _ t => Refused s t) (fun _ => True) u :=
  (wp_answer (hu.trans htable) hr).2 ⟨hs, c, e, htable, he, answers_mapProc hr⟩

/-! ## One increment -/

/-- An increment adds one to its count. -/
theorem signalUnit_counts (h : s.counts sem = some v) :
    wp (signalUnit sem) (fun _ t => Recounted s sem (some (v + 1)) t) (fun _ => True) s := by
  obtain ⟨st, hst, rfl⟩ := of_counts h
  have hset : Recounted s sem (some (st.count + 1)) (s.setSem sem (some { st with count := st.count + 1 })) :=
    recounted_setSem (some { st with count := st.count + 1 })
  rw [signalUnit, wp_bind, wp_modifySem hst, wp_bind, wp_derefSem setSem_semaphoreTable_self, wp_ite]
  constructor
  · exact fun _ => Recounts.after (.bind (recounts_unblockProcessSem _) fun _ => .pure _) hset
  · exact fun _ => hset

theorem signalUnits_counts {n : Nat} (h : s.counts sem = some v) :
    wp (signalUnits sem n) (fun _ t => Recounted s sem (some (v + n)) t) (fun _ => True) s := by
  induction n generalizing s v with
  | zero =>
    refine Prod.ext ?_ rfl
    have hsum : v + ((0 : Nat) : Int) = v := by omega
    rw [hsum, ← h, Function.update_eq_self]
    rfl
  | succ n ih =>
    rw [signalUnits, wp_bind]
    refine wp_mono (signalUnit_counts h) (fun _ u _ hu => ?_) (fun _ _ h => h)
    have hcount : u.counts sem = some (v + 1) := by rw [hu.counts, Function.update_self]
    refine wp_mono (ih hcount) (fun _ t _ ht => ?_) (fun _ _ h => h)
    have hsum : v + 1 + (n : Int) = v + (n + 1 : Nat) := by omega
    refine Prod.ext ?_ (ht.flag.trans hu.flag)
    rw [← hsum]
    exact ht.counts.trans (by rw [hu.counts, Function.update_idem])

theorem getSemaphoreStruct_bind {β : Type} {k : Option Semaphore → KernelM β} :
    (getSemaphoreStruct sem >>= k) s = k (s.semaphoreTable sem) s := rfl

theorem derefSem_bind {β : Type} {k : Semaphore → KernelM β} (h : s.semaphoreTable sem = some st) :
    (derefSem sem >>= k) s = k st s := by
  have hget {k : Kernel → KernelM β} : ((get : KernelM Kernel) >>= k) s = k s s := rfl
  rw [derefSem, bind_assoc, hget]
  simp only [h, pure_bind]

theorem modifySem_bind {β : Type} {k : Unit → KernelM β} {f : Semaphore → Semaphore} (h : s.semaphoreTable sem = some st) :
    (modifySem sem f >>= k) s = k () (s.setSem sem (some (f st))) := by
  rw [modifySem, bind_assoc, derefSem_bind h]
  rfl

/-- `signal` below the limit is an increment. -/
theorem signalStep_eq (h : s.counts sem = some v) (hv : v ≠ maxCount) :
    signalStep sem s = (signalUnit sem >>= fun _ => pure 0) s := by
  obtain ⟨st, hst, rfl⟩ := of_counts h
  have hstep : signalStep sem s = (modifySem sem (fun st => { st with count := st.count + 1 }) >>= fun _ =>
      if st.count + 1 ≤ 0 then unblockProcessSem sem signalCall >>= fun _ => pure 0 else pure 0 : KernelM Int) s := by
    rw [signalStep, getSemaphoreStruct_bind, hst]
    dsimp only
    rw [if_neg hv]
  rw [hstep, modifySem_bind hst, signalUnit, bind_assoc, modifySem_bind hst, bind_assoc,
    derefSem_bind setSem_semaphoreTable_self]
  split
  · rw [bind_assoc]
    rfl
  · rfl

/-- The loop of `signaln` never returns early. -/
theorem signalnLoop_eq {n : Nat} (h : s.counts sem = some v) (hn : v + n ≤ maxCount) :
    signalnLoop sem n s = (signalUnits sem n >>= fun _ => pure 0) s := by
  induction n generalizing s v with
  | zero => rfl
  | succ n ih =>
    have hv : v ≠ maxCount := by omega
    have hrun : (signalStep sem >>= fun w => if w ≠ 0 then pure w else signalnLoop sem n) s =
        (signalUnit sem >>= fun _ => signalnLoop sem n) s := by
      change (signalStep sem s >>= _) = (signalUnit sem s >>= _)
      rw [signalStep_eq h hv]
      change ((signalUnit sem s >>= _) >>= _) = _
      rw [bind_assoc]
      rfl
    rw [signalnLoop, hrun, signalUnits, bind_assoc]
    change (signalUnit sem s >>= _) = (signalUnit sem s >>= _)
    cases hu : signalUnit sem s with
    | error e => rfl
    | ok a =>
      have hcount : a.2.counts sem = some (v + 1) := by
        rw [(wp_ok (signalUnit_counts h) (a := a.1) (t := a.2) hu).counts, Function.update_self]
      exact ih hcount (by omega)

/-! ## The flag -/

/-- The state with the flag `parent_block` written. -/
def Kernel.flagged (b : Bool) (s : Kernel) : Kernel := { s with parentBlock := b }

section flag

variable {b : Bool}

theorem blind_deref : Blind (Kernel.flagged b) (deref p) := by
  refine .get (fun _ => rfl) fun s => ?_
  split
  · exact .pure _
  · exact .throw _

theorem blind_modifyProc {f : Process → Process} : Blind (Kernel.flagged b) (modifyProc p f) :=
  .bind blind_deref fun _ => .modify fun _ => rfl

theorem blind_queueAdd {hd : QueueHead} {f : Process → Int} : Blind (Kernel.flagged b) (queueAdd p hd f) := by
  have walk : ∀ {v} l, Blind (Kernel.flagged b) (queueWalk f p v l) := by
    intro v l
    induction l with
    | nil => exact .pure _
    | cons c l ih => exact .bind blind_deref fun _ => .ite (.bind ih fun _ => .pure _) (.pure _)
  refine .bind blind_deref fun r => ?_
  split
  · exact .throw _
  · exact .get (fun _ => rfl) fun s => .bind (walk _) fun _ => .modify fun _ => rfl

theorem blind_derefSem : Blind (Kernel.flagged b) (derefSem sem) := by
  refine .get (fun _ => rfl) fun s => ?_
  split
  · exact .pure _
  · exact .throw _

theorem blind_modifySem {f : Semaphore → Semaphore} : Blind (Kernel.flagged b) (modifySem sem f) :=
  .bind blind_derefSem fun _ => .modify fun _ => rfl

theorem blind_derefNode {n : NodePtr} : Blind (Kernel.flagged b) (derefNode n) := by
  refine .get (fun _ => rfl) fun s => ?_
  split
  · exact .pure _
  · exact .throw _

theorem blind_signalUnit : Blind (Kernel.flagged b) (signalUnit sem) := by
  have unblock : Blind (Kernel.flagged b) (unblockProcessSem sem signalCall) := by
    refine .bind blind_derefSem fun st => ?_
    split
    · exact .pure _
    · exact .pure _
    · refine .bind blind_derefNode fun hd => .ite ?_ ?_ <;>
        exact .bind blind_modifySem fun _ => .bind blind_modifyProc fun _ => .bind blind_queueAdd fun _ =>
          .bind blind_modifyProc fun _ => .pure _
  exact .bind blind_modifySem fun _ => .bind blind_derefSem fun _ => .ite (.bind unblock fun _ => .pure _) (.pure _)

theorem blind_signalUnits (n : Nat) : Blind (Kernel.flagged b) (signalUnits sem n) := by
  induction n with
  | zero => exact .pure _
  | succ n ih => exact .bind blind_signalUnit fun _ => ih

end flag

/-- `signaln` within the limit is so many increments and one call of `scheduler`. -/
theorem signaln_eq {count : Int} (h : s.counts sem = some v) (hpos : 0 ≤ count) (hmax : v + count ≤ maxCount)
    (hflag : s.parentBlock = false) :
    signaln sem count s = (signalUnits sem count.toNat >>= fun _ => scheduleAnswer 0 []) s := by
  obtain ⟨st, hst, rfl⟩ := of_counts h
  have hsum : st.count + (count.toNat : Int) ≤ maxCount := by omega
  have hstart : signaln sem count s = (signalnLoop sem count.toNat >>= fun val =>
      if val ≠ 0 then answer val [] else modify (Kernel.flagged false) >>= fun _ => scheduleAnswer 0 []) (s.flagged true) := by
    have hneg : ¬ count < 0 := by omega
    have hover : ¬ maxCount < st.count + count := by omega
    rw [signaln, getSemaphoreStruct_bind, hst]
    dsimp only
    rw [if_neg hneg, if_neg hover]
    rfl
  have hcount : (s.flagged true).counts sem = some st.count := h
  rw [hstart]
  change (signalnLoop sem count.toNat (s.flagged true) >>= _) = (signalUnits sem count.toNat s >>= _)
  rw [signalnLoop_eq hcount hsum]
  change ((signalUnits sem count.toNat (s.flagged true) >>= _) >>= _) = _
  rw [blind_signalUnits _ s]
  cases hu : signalUnits sem count.toNat s with
  | error e => rfl
  | ok a =>
    have hoff : a.2.parentBlock = false := (wp_ok (signalUnits_counts h) (a := a.1) (t := a.2) hu).flag.trans hflag
    have hback : (a.2.flagged true).flagged false = a.2 := by
      rw [Kernel.flagged, ← hoff]
      rfl
    change scheduleAnswer 0 [] ((a.2.flagged true).flagged false) = scheduleAnswer 0 [] a.2
    rw [hback]

/-- `signal` below the limit is an increment and a call of `scheduler`. -/
theorem signal_eq (h : s.counts sem = some v) (hv : v ≠ maxCount) (hflag : s.parentBlock = false) :
    signal sem s = (signalUnit sem >>= fun _ => scheduleAnswer 0 []) s := by
  rw [signal]
  change (signalStep sem s >>= _) = (signalUnit sem s >>= _)
  rw [signalStep_eq h hv]
  change ((signalUnit sem s >>= _) >>= _) = _
  cases hu : signalUnit sem s with
  | error e => rfl
  | ok a =>
    have hoff : a.2.parentBlock = false := (wp_ok (signalUnit_counts h) (a := a.1) (t := a.2) hu).flag.trans hflag
    have hlast : (do if (← get).parentBlock = false then scheduleAnswer 0 [] else answer 0 [] : KernelM Unit) a.2 =
        scheduleAnswer 0 [] a.2 := by
      change (if a.2.parentBlock = false then scheduleAnswer 0 [] else answer 0 []) a.2 = _
      rw [if_pos hoff]
    exact hlast

/-- A count `signaln` refuses. -/
theorem signaln_refused {count : Int} (h : ∀ v, s.counts sem = some v → count < 0 ∨ maxCount < v + count) :
    ∃ e < 0, signaln sem count s = answer e [] s := by
  rw [signaln, getSemaphoreStruct_bind]
  cases hst : s.semaphoreTable sem with
  | none => exact ⟨-1, by decide, rfl⟩
  | some st =>
    dsimp only
    by_cases hneg : count < 0
    · exact ⟨-1, by decide, by rw [if_pos hneg]⟩
    · exact ⟨-2, by decide, by rw [if_neg hneg, if_pos ((h st.count (counts_some hst)).resolve_left hneg)]⟩

/-! ## One call -/

theorem recount_none {ok : Int → Bool} {f : Int → Option Int} (h : s.semaphoreTable sem = none) :
    s.recount sem ok f = none := by
  simp [Kernel.recount, counts_none h]

theorem recount_some {ok : Int → Bool} {f : Int → Option Int} (h : s.semaphoreTable sem = some st) :
    s.recount sem ok f = if ok st.count then some (sem, f st.count) else none := by
  simp [Kernel.recount, counts_some h]

theorem screate_counts (hc : s.caller = some c) (hr : s.heap c = some r) (hflag : s.parentBlock = false) (count : Int)
    (semOk : Bool) : wp (screate count semOk) (fun _ t => Settled s (if 0 ≤ count ∧ s.currentlyRunningSemaphores ≠ nbMaxSems ∧ semOk = true then
      some (s.semaphoreIdCounter + 1, some (toInt16 count)) else none) t) (fun _ => True) s := by
  rw [screate, wp_ite]
  constructor
  · intro hneg
    have hno : ¬ (0 ≤ count ∧ s.currentlyRunningSemaphores ≠ nbMaxSems ∧ semOk = true) := by omega
    rw [if_neg hno]
    exact wp_refuse rfl hc rfl hr (by decide)
  · intro hpos
    rw [wp_bind, wp_get, wp_ite]
    constructor
    · intro hfull
      have hno : ¬ (0 ≤ count ∧ s.currentlyRunningSemaphores ≠ nbMaxSems ∧ semOk = true) := by simp [hfull]
      rw [if_neg hno]
      exact wp_refuse rfl hc rfl hr (by decide)
    · intro hfree
      rw [wp_ite]
      refine ⟨fun hok => ?_, fun hok => ?_⟩
      · rw [if_neg (by simp [hok])]
        exact wp_refuse rfl hc rfl hr (by decide)
      have hyes : 0 ≤ count ∧ s.currentlyRunningSemaphores ≠ nbMaxSems ∧ semOk = true := ⟨by omega, hfree, by simpa using hok⟩
      rw [if_pos hyes, wp_bind, wp_get]
      dsimp only
      split
      · trivial
      · rw [wp_bind, wp_modify]
        refine Recounts.after (recounts_answer _ _) (Prod.ext ?_ hflag.symm)
        exact (recounted_setSem (some ⟨toInt16 count, none⟩)).counts

theorem wait_counts (hc : s.caller = some c) (hr : s.heap c = some r) :
    wp (wait sem) (fun _ t => Settled s (s.recount sem (· ≠ minCount) fun v => some (v - 1)) t) (fun _ => True) s := by
  rw [wait, wp_bind, wp_getSemaphoreStruct]
  cases hst : s.semaphoreTable sem with
  | none =>
    rw [recount_none hst]
    exact wp_refuse rfl hc rfl hr (by decide)
  | some st =>
    have htable : s.pidProcessHashTable s.currentRunningProcessPid = some c := hc
    rw [recount_some hst]
    simp only [wp_bind, wp_getCurrentProcess, htable, wp_modifyProc hr]
    rw [wp_ite]
    constructor
    · intro hmin
      rw [if_neg (by simpa using hmin)]
      exact wp_refuse (r := { r with semSignal := 0 }) rfl hc rfl (by simp [hr]) (by decide)
    · intro hmin
      have hst' : (s.mapProc c fun r => { r with semSignal := 0 }).semaphoreTable sem = some st := hst
      have hset : Recounted s sem (some (st.count - 1))
          ((s.mapProc c fun r => { r with semSignal := 0 }).setSem sem (some { st with count := st.count - 1 })) :=
        recounted_setSem (s := s.mapProc c fun r => { r with semSignal := 0 }) (some { st with count := st.count - 1 })
      have hnode : Recounts (newNode c) := .bind .get fun _ => .bind (.modify fun _ => rfl) fun _ => .pure _
      have hblock : Recounts (do
          let blocked ← newNode c
          waitInsert sem blocked (← deref c).prio
          modify (·.markBlocked c sem)
          schedule .wait) :=
        .bind hnode fun _ => .bind (keeps_deref _) fun _ => .bind recounts_waitInsert fun _ =>
          .bind (.modify fun _ => rfl) fun _ => recounts_schedule _
      have hyes : decide (st.count ≠ minCount) = true := by simpa using hmin
      rw [if_pos hyes, wp_bind, wp_modifySem hst']
      split
      · exact hblock.after hset
      · exact (recounts_schedule _).after hset

theorem tryWait_counts (hc : s.caller = some c) (hr : s.heap c = some r) :
    wp (tryWait sem) (fun _ t => Settled s (s.recount sem (0 < ·) fun v => some (v - 1)) t) (fun _ => True) s := by
  rw [tryWait, wp_bind, wp_getSemaphoreStruct]
  cases hst : s.semaphoreTable sem with
  | none =>
    rw [recount_none hst]
    exact wp_refuse rfl hc rfl hr (by decide)
  | some st =>
    rw [recount_some hst]
    dsimp only
    by_cases hpos : 0 < st.count
    · have hyes : decide (0 < st.count) = true := by simpa using hpos
      rw [if_pos hyes, if_pos hpos, wp_bind, wp_modifySem hst]
      exact (recounts_scheduleAnswer _ _).after (recounted_setSem (some { st with count := st.count - 1 }))
    · have hno : ¬ decide (0 < st.count) = true := by simpa using hpos
      rw [if_neg hno, if_neg hpos]
      exact wp_refuse rfl hc rfl hr (by decide)

/-- A flush of the list of a semaphore, followed by a write of the semaphore. -/
theorem wp_flushed {signal : Int} {n : Nat} {k : Unit → KernelM Unit} (hst : s.semaphoreTable sem = some st)
    (hk : ∀ u st', u.semaphoreTable sem = some st' → u.counting = s.counting → wp (k ()) Q E u) (hE : ∀ f, E f) :
    wp (unblockAll sem signal n >>= k) Q E s := by
  rw [wp_bind]
  refine wp_mono (recounts_unblockAll _ _ s) (fun _ u _ hu => ?_) (fun f _ _ => hE f)
  have hcount : u.counts sem = some st.count := by
    rw [← counts_some hst]
    exact congrFun (congrArg Prod.fst hu) sem
  obtain ⟨st', hst', -⟩ := of_counts hcount
  exact hk u st' hst' hu

theorem Recounted.of_counting (h : Recounted u sem w t) (hu : u.counting = s.counting) : Recounted s sem w t := by
  have h1 : u.counts = s.counts := congrArg Prod.fst hu
  have h2 : u.parentBlock = s.parentBlock := congrArg Prod.snd hu
  rw [Recounted, ← h1, ← h2]
  exact h

theorem sdelete_counts (hc : s.caller = some c) (hr : s.heap c = some r) :
    wp (sdelete sem) (fun _ t => Settled s (s.recount sem (fun _ => true) fun _ => none) t) (fun _ => True) s := by
  rw [sdelete, wp_bind, wp_getSemaphoreStruct]
  cases hst : s.semaphoreTable sem with
  | none =>
    rw [recount_none hst]
    exact wp_refuse rfl hc rfl hr (by decide)
  | some st =>
    rw [recount_some hst, if_pos rfl]
    dsimp only
    rw [wp_bind, wp_get]
    refine wp_flushed hst (fun u st' hst' hu => ?_) fun _ => trivial
    rw [wp_bind, wp_modify]
    have hset : Recounted u sem none (u.setSem sem none) := recounted_setSem none
    exact (recounts_scheduleAnswer _ _).after (hset.of_counting hu)

theorem sreset_counts (hc : s.caller = some c) (hr : s.heap c = some r) (count : Int) :
    wp (sreset sem count) (fun _ t => Settled s (s.recount sem (fun _ => 0 ≤ count) fun _ => some (toInt16 count)) t)
      (fun _ => True) s := by
  rw [sreset, wp_bind, wp_getSemaphoreStruct]
  cases hst : s.semaphoreTable sem with
  | none =>
    rw [recount_none hst]
    exact wp_refuse rfl hc rfl hr (by decide)
  | some st =>
    rw [recount_some hst]
    dsimp only
    by_cases hneg : count < 0
    · rw [if_pos hneg, if_neg (by simpa using hneg)]
      exact wp_refuse rfl hc rfl hr (by decide)
    · rw [if_neg hneg, if_pos (by simpa using hneg), wp_bind, wp_get]
      refine wp_flushed hst (fun u st' hst' hu => ?_) fun _ => trivial
      rw [wp_bind, wp_modifySem hst']
      have hset : Recounted u sem (some (toInt16 count)) (u.setSem sem (some { st' with count := toInt16 count })) :=
        recounted_setSem (some { st' with count := toInt16 count })
      exact (recounts_scheduleAnswer _ _).after (hset.of_counting hu)

theorem signal_counts (hc : s.caller = some c) (hr : s.heap c = some r) (hflag : s.parentBlock = false) :
    wp (signal sem) (fun _ t => Settled s (s.recount sem (· ≠ maxCount) fun v => some (v + 1)) t) (fun _ => True) s := by
  cases hst : s.semaphoreTable sem with
  | none =>
    rw [recount_none hst, signal, signalStep, wp_bind, wp_bind, wp_getSemaphoreStruct, hst]
    exact wp_refuse (e := -1) rfl hc rfl hr (by decide)
  | some st =>
    rw [recount_some hst]
    by_cases hmax : st.count = maxCount
    · rw [if_neg (by simpa using hmax), signal, signalStep, wp_bind, wp_bind, wp_getSemaphoreStruct, hst]
      simp only [hmax, if_true]
      exact wp_refuse (e := -2) rfl hc rfl hr (by decide)
    · rw [if_pos (by simpa using hmax), wp, signal_eq (counts_some hst) hmax hflag]
      exact wp_seq (signalUnit_counts (counts_some hst)) fun _ u _ hu => (recounts_scheduleAnswer _ _).after hu

theorem signaln_counts (hc : s.caller = some c) (hr : s.heap c = some r) (hflag : s.parentBlock = false) (count : Int) :
    wp (signaln sem count) (fun _ t => Settled s (s.recount sem (fun v => 0 ≤ count ∧ v + count ≤ maxCount)
      fun v => some (v + count)) t) (fun _ => True) s := by
  have refused : (∀ v, s.counts sem = some v → count < 0 ∨ maxCount < v + count) →
      wp (signaln sem count) (fun _ t => Settled s none t) (fun _ => True) s := by
    intro h
    obtain ⟨e, he, heq⟩ := signaln_refused h
    rw [wp, heq]
    exact wp_refuse rfl hc rfl hr he
  cases hst : s.semaphoreTable sem with
  | none =>
    rw [recount_none hst]
    exact refused (by simp [counts_none hst])
  | some st =>
    rw [recount_some hst]
    by_cases hok : 0 ≤ count ∧ st.count + count ≤ maxCount
    · rw [if_pos (by simpa using hok), wp, signaln_eq (counts_some hst) hok.1 hok.2 hflag]
      refine wp_seq (signalUnits_counts (counts_some hst)) fun _ u _ hu => (recounts_scheduleAnswer _ _).after ?_
      have hsum : st.count + (count.toNat : Int) = st.count + count := by omega
      rwa [hsum] at hu
    · rw [if_neg (by simpa using hok)]
      refine refused fun v hv => ?_
      rw [counts_some hst] at hv
      cases hv
      omega

/-- `signaln` leaves the flag off. -/
theorem signaln_flag (hflag : s.parentBlock = false) (count : Int) :
    wp (signaln sem count) (fun _ t => t.parentBlock = false) (fun _ => True) s := by
  have refused : (∀ v, s.counts sem = some v → count < 0 ∨ maxCount < v + count) →
      wp (signaln sem count) (fun _ t => t.parentBlock = false) (fun _ => True) s := by
    intro h
    obtain ⟨e, -, heq⟩ := signaln_refused h
    rw [wp, heq]
    exact wp_mono (recounts_answer e [] s) (fun _ t _ ht => (congrArg Prod.snd ht).trans hflag) (fun _ _ h => h)
  cases hv : s.counts sem with
  | none => exact refused (by simp [hv])
  | some v =>
    by_cases hok : 0 ≤ count ∧ v + count ≤ maxCount
    · rw [wp, signaln_eq hv hok.1 hok.2 hflag]
      refine wp_seq (Q := fun _ t => t.parentBlock = false) (signalUnits_counts hv) fun _ u _ hu => ?_
      exact wp_mono ((recounts_scheduleAnswer 0 []).after hu) (fun _ t _ ht => ht.flag.trans hflag) (fun _ _ h => h)
    · refine refused fun w hw => ?_
      rw [hv] at hw
      cases hw
      omega

/-- `proc_kill_diag` adds one to the count of the semaphore, or does nothing. -/
theorem procKillDiag_counts (sem pid : Int) :
    wp (procKillDiag sem pid) (fun e t => match s.recount sem (· ≠ maxCount) fun v => some (v + 1) with
      | some (i, v) => e = 0 ∧ Recounted s i v t
      | none => e < 0 ∧ t = s) (fun _ => True) s := by
  rw [procKillDiag, wp_bind, wp_getSemaphoreStruct]
  cases hst : s.semaphoreTable sem with
  | none =>
    rw [recount_none hst]
    exact ⟨show (-1 : Int) < 0 by decide, rfl⟩
  | some st =>
    rw [recount_some hst]
    by_cases hmax : st.count = maxCount
    · simp only [hmax, if_true]
      exact ⟨show (-2 : Int) < 0 by decide, rfl⟩
    · rw [if_pos (by simpa using hmax)]
      simp only [hmax, if_false]
      have hset : Recounted s sem (some (st.count + 1)) (s.setSem sem (some { st with count := st.count + 1 })) :=
        recounted_setSem (some { st with count := st.count + 1 })
      rw [wp_bind, wp_modifySem hst, wp_ite]
      constructor
      · intro _
        rw [wp_bind]
        refine wp_mono (recounts_removeProcQueue _ _ _) (fun _ t _ ht => ?_) (fun _ _ _ => trivial)
        exact ⟨rfl, ht.trans hset⟩
      · exact fun _ => ⟨rfl, hset⟩

theorem killOther_counts (pid : Int) :
    wp (killOther p pid) (fun e t => match s.unwait p with
      | some (i, v) => Recounted s i v t
      | none => t.counting = s.counting ∧ (s.waits p → e < 0 ∧ t = s)) (fun _ => True) s := by
  rw [killOther, leaveQueueProcessIfNeeded, wp_bind, wp_bind]
  refine wp_deref_any trivial fun x hx => ?_
  have rest : Recounts (do
      if (← turnCurrentProcessIntoAZombieOrKillIt false pid) < 0 then pure (-1)
      else
        modifyProc p fun r => { r with returnValue := 0 }
        pure 0 : KernelM Int) :=
    .bind (recounts_turn _ _) fun _ => .ite (.pure _) (.bind recounts_modifyProc fun _ => .pure _)
  by_cases hw : x.state = .blockedSemaphore
  · have hun : s.unwait p = s.recount x.semaphoreId (· ≠ maxCount) fun v => some (v + 1) := by simp [Kernel.unwait, hx, hw]
    rw [if_pos hw, wp_bind, hun]
    refine wp_mono (procKillDiag_counts (s := s) x.semaphoreId x.pid) (fun e u _ hu => ?_) (fun _ _ h => h)
    cases hrec : s.recount x.semaphoreId (· ≠ maxCount) fun v => some (v + 1) with
    | none =>
      rw [hrec] at hu
      obtain ⟨he, rfl⟩ := hu
      rw [if_pos he]
      exact ⟨rfl, fun _ => ⟨show (-1 : Int) < 0 by decide, rfl⟩⟩
    | some iv =>
      rw [hrec] at hu
      obtain ⟨rfl, hu⟩ := hu
      exact rest.after hu
  · have hun : s.unwait p = none := by simp [Kernel.unwait, hx, hw]
    have hnot : ¬ s.waits p := by simp [Kernel.waits, hx, hw]
    rw [if_neg hw, ← wp_bind, hun]
    have hdel : Recounts (queueDel p >>= fun _ => pure (0 : Int)) := .bind recounts_queueDel fun _ => .pure _
    refine wp_mono ((hdel.bind fun _ => .ite (.pure _) rest) s) (fun _ t _ ht => ?_) (fun _ _ h => h)
    exact ⟨ht, fun h => absurd h hnot⟩

/-! ## One step -/

theorem Step.caller {sc : Syscall} (h : Step s (.syscall sc) t) : ∃ c r, s.caller = some c ∧ s.heap c = some r := by
  have he := h.1
  simp only [Event.enabled, Kernel.inUserMode, Bool.and_eq_true, decide_eq_true_eq] at he
  cases hcur : s.current with
  | none => simp [hcur] at he
  | some r =>
    obtain ⟨c, hc, hr⟩ := Option.bind_eq_some_iff.1 hcur
    exact ⟨c, r, hc, hr⟩

/-- What a step does to the counts and to the flag. -/
structure Tallied (s : Kernel) (e : Event) (t : Kernel) : Prop where
  flag : t.parentBlock = false
  exact : Exactly toInt16 s e t

theorem Settled.counted {o : Option (Int × Option Int)} (h : Settled s o t) (hflag : s.parentBlock = false) {e : Event}
    (he : e.recount toInt16 s = o) : Tallied s e t := by
  cases o with
  | some iv => exact ⟨h.flag.trans hflag, by rw [Exactly, he]; exact h.counts⟩
  | none => exact ⟨(congrArg Prod.snd h.1).trans hflag, by rw [Exactly, he]; exact ⟨congrArg Prod.fst h.1, fun _ => h.2⟩⟩

theorem Recounts.counted (hm : Recounts m) (hflag : s.parentBlock = false) {e : Event} (he : e.recount toInt16 s = none)
    (hno : ¬ e.onCount s) : wp m (fun _ t => Tallied s e t) (fun _ => True) s := by
  refine wp_mono (hm s) (fun _ t _ ht => ⟨(congrArg Prod.snd ht).trans hflag, ?_⟩) (fun _ _ h => h)
  rw [Exactly, he]
  exact ⟨congrArg Prod.fst ht, fun h => absurd h hno⟩

/-- `kill`, whatever follows it. -/
theorem killWith_counts (pid : Int) (after : Ptr → Context) (finish : Int → KernelM Unit) {R : Kernel → Prop}
    (hfinish : ∀ e, Recounts (finish e)) (hR : ∀ e < 0, wp (finish e) (fun _ t => R t) (fun _ => True) s) :
    wp (killWith pid after finish) (fun _ t => match (s.other pid).bind s.unwait with
      | some (i, v) => Recounted s i v t
      | none => t.counting = s.counting ∧ ((∃ p, s.other pid = some p ∧ s.waits p) → R t)) (fun _ => True) s := by
  have spared : ∀ {m : KernelM Unit}, Recounts m → (∀ p, s.other pid = some p → ¬ s.waits p) →
      wp m (fun _ t => match (s.other pid).bind s.unwait with
        | some (i, v) => Recounted s i v t
        | none => t.counting = s.counting ∧ ((∃ p, s.other pid = some p ∧ s.waits p) → R t)) (fun _ => True) s := by
    intro m hm hno
    have hnone : (s.other pid).bind s.unwait = none := by
      cases ho : s.other pid with
      | none => rfl
      | some p =>
        have hp := hno p ho
        cases hx : s.heap p with
        | none => simp [Kernel.unwait, hx]
        | some x =>
          have hstate : x.state ≠ .blockedSemaphore := by simpa [Kernel.waits, hx] using hp
          simp [Kernel.unwait, hx, hstate]
    rw [hnone]
    refine wp_mono (hm s) (fun _ t _ ht => ⟨ht, ?_⟩) (fun _ _ h => h)
    rintro ⟨p, hp, hw⟩
    exact absurd hw (hno p hp)
  rw [killWith, wp_ite]
  constructor
  · intro hid
    exact spared (hfinish _) (by simp [Kernel.other, hid])
  · intro hid
    rw [wp_bind, wp_getProcessStructOfPid]
    cases hp : s.pidProcessHashTable pid with
    | none => exact spared (hfinish _) (by simp [Kernel.other, hid, hp])
    | some p =>
      have hother : s.other pid = if (s.heap p).map (·.pid) ≠ some s.currentRunningProcessPid then some p else none := by
        simp [Kernel.other, hid, hp, Option.filter]
      dsimp only
      rw [validateActionProcessValid, wp_bind, wp_bind]
      refine wp_deref_any trivial fun x hx => ?_
      rw [wp_ite]
      constructor
      · -- the dead wait for nothing
        intro hdead
        refine spared (hfinish _) fun q hq hw => ?_
        obtain rfl : q = p := by
          rw [hother] at hq
          split at hq
          · exact (Option.some.inj hq).symm
          · cases hq
        have hstate : x.state = .blockedSemaphore := by simpa [Kernel.waits, hx] using hw
        rw [hstate] at hdead
        simp at hdead
      · intro _
        rw [wp_pure, if_neg (show ¬ (0 : Int) < 0 by decide), wp_bind, wp_deref hx, wp_bind, wp_getpid, wp_ite]
        constructor
        · intro hown
          exact spared (recounts_exitProcess _ _) (by simp [hother, hx, hown])
        · intro hne
          have hsome : s.other pid = some p := by simp [hother, hx, hne]
          rw [hsome, Option.bind_some, wp_bind]
          refine wp_mono (killOther_counts (s := s) (p := p) pid) (fun e u _ hu => ?_) (fun _ _ h => h)
          cases hun : s.unwait p with
          | some iv =>
            rw [hun] at hu
            exact (hfinish e).after (s := s) (i := iv.1) (w := iv.2) hu
          | none =>
            rw [hun] at hu
            have hsame : wp (finish e) (fun _ t => t.counting = s.counting) (fun _ => True) u :=
              wp_mono (hfinish e u) (fun _ t _ ht => ht.trans hu.1) (fun _ _ h => h)
            by_cases hw : s.waits p
            · obtain ⟨he, rfl⟩ := hu.2 hw
              exact wp_mono (wp_and hsame (hR e he)) (fun _ t _ ht => ⟨ht.1, fun _ => ht.2⟩) (fun _ _ h => h)
            · refine wp_mono hsame (fun _ t _ ht => ⟨ht, ?_⟩) (fun _ _ h => h)
              rintro ⟨q, hq, hqw⟩
              cases hq
              exact absurd hqw hw

/-- A `kill` leaves the counts it is to leave. -/
theorem counted_of_kill {pid : Int} {R : Kernel → Prop} (hflag : s.parentBlock = false) (he : e.slain s = s.other pid)
    (hrec : e.recount toInt16 s = (e.slain s).bind s.unwait)
    (hR : R t → e.onCount s → ∃ c v, s.caller = some c ∧ v < 0 ∧ Answers t c v [])
    (hon : e.onCount s → ∃ p, s.other pid = some p ∧ s.waits p)
    (h : match (s.other pid).bind s.unwait with
      | some (i, v) => Recounted s i v t
      | none => t.counting = s.counting ∧ ((∃ p, s.other pid = some p ∧ s.waits p) → R t)) : Tallied s e t := by
  rw [he] at hrec
  cases hun : (s.other pid).bind s.unwait with
  | some iv =>
    rw [hun] at h hrec
    exact Settled.counted (o := some iv) h hflag hrec
  | none =>
    rw [hun] at h hrec
    refine ⟨(congrArg Prod.snd h.1).trans hflag, ?_⟩
    rw [Exactly, hrec]
    exact ⟨congrArg Prod.fst h.1, fun ho => hR (h.2 (hon ho)) ho⟩

theorem kill_counted (hc : s.caller = some c) (hr : s.heap c = some r) (hflag : s.parentBlock = false) (pid : Int) :
    wp (kill (toInt32 pid)) (fun _ t => Tallied s (.syscall (.kill pid)) t) (fun _ => True) s := by
  have hkill := killWith_counts (toInt32 pid) (fun p => .killSelf p (toInt32 pid)) (fun e => answer e [])
    (fun e => recounts_answer e []) fun e he => wp_refuse (s := s) rfl hc rfl hr he
  exact wp_mono hkill (fun _ t _ ht => counted_of_kill hflag rfl rfl (fun hR _ => hR.2) id ht) (fun _ _ h => h)

theorem pageFault_counted (hflag : s.parentBlock = false) :
    wp pageFault (fun _ t => Tallied s .pageFault t) (fun _ => True) s := by
  have hkill := killWith_counts (s := s) (R := fun _ => True) s.currentRunningProcessPid
    (fun p => .pageFault p s.currentRunningProcessPid) (fun _ => schedule (.user none)) (fun _ => recounts_schedule _) fun _ _ => wp_mono (recounts_schedule _ s) (fun _ _ _ _ => trivial) (fun _ _ h => h)
  rw [pageFault, wp_bind, wp_getpid]
  exact wp_mono hkill (fun _ t _ ht => counted_of_kill (R := fun _ => True) hflag rfl rfl (fun _ => False.elim) False.elim ht)
    (fun _ _ h => h)

theorem resume_counted (hn : s.Named) (hflag : s.parentBlock = false) : wp resume (fun _ t => Tallied s .resume t) (fun _ => True) s := by
  have hrec : Event.resume.recount toInt16 s = (Event.resume.slain s).bind s.unwait := rfl
  rw [resume, wp_bind, wp_getCurrentProcess, wp_bind]
  cases hp : s.pidProcessHashTable s.currentRunningProcessPid with
  | none => trivial
  | some p =>
    refine wp_deref_any trivial fun x hx => ?_
    have hcur : s.current = some x := by simp [Kernel.current, hp, hx]
    have other : ∀ {k : KernelM Unit}, Event.resume.slain s = none → Recounts k →
        wp k (fun _ t => Tallied s .resume t) (fun _ => True) s := by
      intro k hnone hk
      exact hk.counted hflag (by rw [hrec, hnone]; rfl) id
    have slain : ∀ {q pid} {k : Int → KernelM Unit}, Event.resume.slain s = some q → (∀ e, Recounts (k e)) →
        wp (killOther q pid >>= k) (fun _ t => Tallied s .resume t) (fun _ => True) s := by
      intro q pid k hq hk
      rw [wp_bind]
      refine wp_mono (killOther_counts (s := s) (p := q) pid) (fun e u _ hu => ?_) (fun _ _ h => h)
      cases hun : s.unwait q with
      | some iv =>
        rw [hun] at hu
        refine wp_mono ((hk e).after (s := s) (i := iv.1) (w := iv.2) hu) (fun _ t _ ht => ?_) (fun _ _ h => h)
        exact Settled.counted (o := some iv) ht hflag (by rw [hrec, hq]; exact hun)
      | none =>
        rw [hun] at hu
        refine wp_mono (hk e u) (fun _ t _ ht => ⟨(congrArg Prod.snd (ht.trans hu.1)).trans hflag, ?_⟩) (fun _ _ h => h)
        rw [Exactly, hrec, hq, Option.bind_some, hun]
        exact ⟨congrArg Prod.fst (ht.trans hu.1), False.elim⟩
    cases hctx : x.context with
    | killSelf q pid => exact slain (by simp [Event.slain, hcur, hctx]) fun _ => recounts_answer _ _
    | pageFault q pid => exact slain (by simp [Event.slain, hcur, hctx]) fun _ => recounts_schedule _
    | user a => exact other (by simp [Event.slain, hcur, hctx]) (.pure ())
    | start q => exact other (by simp [Event.slain, hcur, hctx]) (.bind (keeps_deref _) fun _ => recounts_answer _ _)
    | psend => exact other (by simp [Event.slain, hcur, hctx]) recounts_psendResume
    | preceive message =>
      exact preceiveResume_acts s _ _ hn (other (by simp [Event.slain, hcur, hctx]) (recounts_preceiveResumeWith recounts_endRunning _))
    | wait => exact other (by simp [Event.slain, hcur, hctx]) recounts_waitResume
    | waitpidAny retvalp => exact other (by simp [Event.slain, hcur, hctx]) (recounts_waitpidAny _)
    | waitpidChild temp before retvalp => exact other (by simp [Event.slain, hcur, hctx]) (recounts_waitpidChild _ _ _)
    | consRead length => exact other (by simp [Event.slain, hcur, hctx]) (recounts_consReadLoop _)
    | stimer => exact other (by simp [Event.slain, hcur, hctx]) (recounts_handleStimerInterrupt _)
    | exitProcess => exact other (by simp [Event.slain, hcur, hctx]) (recounts_answer _ _)

theorem syscall_counted {sc : Syscall} (hn : s.Named) (hc : s.caller = some c) (hr : s.heap c = some r)
    (hflag : s.parentBlock = false) :
    wp (syscallHandler sc) (fun _ t => Tallied s (.syscall sc) t) (fun _ => True) s := by
  have other : ∀ {k : KernelM Unit}, (Event.syscall sc).recount toInt16 s = none → ¬ (Event.syscall sc).onCount s →
      Recounts k → wp k (fun _ t => Tallied s (.syscall sc) t) (fun _ => True) s := fun hrec hno hk => hk.counted hflag hrec hno
  have settled : ∀ {k : KernelM Unit}, wp k (fun _ t => Settled s ((Event.syscall sc).recount toInt16 s) t) (fun _ => True) s →
      wp k (fun _ t => Tallied s (.syscall sc) t) (fun _ => True) s := fun hk =>
    wp_mono hk (fun _ _ _ ht => ht.counted hflag rfl) (fun _ _ h => h)
  cases sc with
  | screate count semOk =>
    have hcreate := screate_counts hc hr hflag (toInt16 count) semOk
    rw [show toInt16 (toInt16 count) = toInt16 count by simp [toInt16, Int.bmod_bmod]] at hcreate
    exact settled hcreate
  | wait sem => exact settled (wait_counts hc hr)
  | tryWait sem => exact settled (tryWait_counts hc hr)
  | signal sem => exact settled (signal_counts hc hr hflag)
  | signaln sem count => exact settled (signaln_counts hc hr hflag _)
  | sreset sem count => exact settled (sreset_counts hc hr _)
  | sdelete sem => exact settled (sdelete_counts hc hr)
  | kill pid => exact kill_counted hc hr hflag pid
  | scount sem => exact other rfl id recounts_scount
  | start name ssize prio env => exact other rfl id (recounts_startVirtual _ _ _ _)
  | getpid => exact other rfl id (.bind recounts_getpid fun _ => recounts_answer _ _)
  | getprio pid => exact other rfl id (.bind (recounts_getprio _) fun _ => recounts_answer _ _)
  | chprio pid newprio => exact other rfl id (recounts_chprio _ _)
  | waitpid pid retvalp => exact other rfl id (recounts_waitpid _ _)
  | exit retval => exact other rfl id (recounts_exitProcess _ _)
  | consRead length => exact other rfl id (recounts_consRead _)
  | consEcho on => exact other rfl id (.bind (.modify fun _ => rfl) fun _ => recounts_answer _ _)
  | pcount fid count => exact other rfl id (recounts_pcount _)
  | pcreate count queueOk arrOk => exact other rfl id (recounts_pcreate _ _ _)
  | pdelete fid => exact other rfl id recounts_pdelete
  | preceive fid message => exact preceive_acts s _ _ hn (other rfl id (recounts_preceiveWith recounts_endRunning _))
  | preset fid => exact other rfl id recounts_preset
  | psend fid message => exact other rfl id (recounts_psend _)
  | sleep nbrMs => exact other rfl id (recounts_waitClock _)
  | waitClock clock => exact other rfl id (recounts_waitClock _)
  | currentClock => exact other rfl id (.bind .get fun _ => recounts_answer _ _)

/-- A step leaves the counts its event is to leave. -/
theorem Step.counted (h : Step s e t) (hn : s.Named) (hflag : s.parentBlock = false) : Tallied s e t := by
  cases e with
  | syscall sc =>
    obtain ⟨c, r, hc, hr⟩ := h.caller
    exact wp_ok (syscall_counted hn hc hr hflag) h.2
  | timer => exact wp_ok (Recounts.counted (.bind .get fun _ => recounts_handleStimerInterrupt _) hflag rfl id) h.2
  | keyboard k => exact wp_ok (Recounts.counted (recounts_handleKeyboardInterrupt k (.user none)) hflag rfl id) h.2
  | pageFault => exact wp_ok (pageFault_counted hflag) h.2
  | resume => exact wp_ok (resume_counted hn hflag) h.2

/-! ## Every run -/

/-- Every count is one of an `int16_t`. -/
def Kernel.InRange (s : Kernel) : Prop := ∀ i v, s.counts i = some v → minCount ≤ v ∧ v ≤ maxCount

theorem toInt16_range (a : Int) : minCount ≤ toInt16 a ∧ toInt16 a ≤ maxCount := by
  simp only [toInt16, minCount, maxCount]
  rw [Int.bmod_def]
  split <;> omega

theorem toInt16_of_range (h : minCount ≤ v ∧ v ≤ maxCount) : toInt16 v = v := by
  simp only [toInt16, minCount, maxCount] at h ⊢
  rw [Int.bmod_def]
  split <;> omega

/-- What an accepted operation makes of a count. -/
theorem recount_eq_some {ok : Int → Bool} {f : Int → Option Int} {o : Int × Option Int} (h : s.recount sem ok f = some o) :
    ∃ v, s.counts sem = some v ∧ ok v = true ∧ o = (sem, f v) := by
  unfold Kernel.recount at h
  split at h
  · next v hv =>
    split at h
    · next hok => exact ⟨v, hv, hok, (Option.some.inj h).symm⟩
    · cases h
  · cases h

/-- The new count fits in 16 bits. -/
theorem recount_range {j : Int} (hs : s.InRange) (h : e.recount toInt16 s = some (j, some v)) : minCount ≤ v ∧ v ≤ maxCount := by
  have kill : (e.slain s).bind s.unwait = some (j, some v) → minCount ≤ v ∧ v ≤ maxCount := by
    intro hk
    obtain ⟨p, -, hp⟩ := Option.bind_eq_some_iff.1 hk
    unfold Kernel.unwait at hp
    split at hp
    · split at hp
      · obtain ⟨w, hw, hok, heq⟩ := recount_eq_some hp
        cases heq
        have hrange := hs _ _ hw
        simp only [decide_eq_true_eq] at hok
        omega
      · cases hp
    · cases hp
  cases e with
  | syscall sc =>
    cases sc with
    | screate count semOk =>
      simp only [Event.recount] at h
      split at h
      · cases h
        exact toInt16_range count
      · cases h
    | wait sem =>
      obtain ⟨w, hw, hok, heq⟩ := recount_eq_some h
      cases heq
      have hrange := hs _ _ hw
      simp only [decide_eq_true_eq] at hok
      omega
    | tryWait sem =>
      obtain ⟨w, hw, hok, heq⟩ := recount_eq_some h
      cases heq
      have hrange := hs _ _ hw
      simp only [decide_eq_true_eq, minCount] at hok hrange ⊢
      omega
    | signal sem =>
      obtain ⟨w, hw, hok, heq⟩ := recount_eq_some h
      cases heq
      have hrange := hs _ _ hw
      simp only [decide_eq_true_eq] at hok
      omega
    | signaln sem count =>
      obtain ⟨w, hw, hok, heq⟩ := recount_eq_some h
      cases heq
      have hrange := hs _ _ hw
      simp only [decide_eq_true_eq] at hok
      omega
    | sreset sem count =>
      obtain ⟨w, -, -, heq⟩ := recount_eq_some h
      cases heq
      exact toInt16_range _
    | sdelete sem =>
      obtain ⟨w, -, -, heq⟩ := recount_eq_some h
      cases heq
    | _ => exact kill h
  | _ => exact kill h

theorem Kernel.InRange.step (h : s.InRange) (hn : s.Named) (hflag : s.parentBlock = false) (hst : Step s e t) : t.InRange := by
  intro i v hv
  have hex := (hst.counted hn hflag).exact
  unfold Exactly at hex
  split at hex
  · next j w hrec =>
    rw [hex] at hv
    by_cases hij : i = j
    · subst hij
      rw [Function.update_self] at hv
      exact recount_range h (hv ▸ hrec)
    · rw [Function.update_of_ne hij] at hv
      exact h i v hv
  · rw [hex.1] at hv
    exact h i v hv

theorem Boot.counting (h : Boot s) : s.counting = (fun _ => none, false) := by
  obtain ⟨symbols, virt, idle, shell, -, -, hrun⟩ := h
  have hinit : Recounts (initializeProcessWorkflow idle shell) :=
    .bind (recounts_startVirtual _ _ _ _) fun _ => recounts_startVirtual _ _ _ _
  exact wp_ok (hinit _) hrun

theorem recount_sreset {narrow : Int → Int} {count : Int} (hv : s.counts (toInt32 sem) = some v) (hpos : 0 ≤ toInt32 count) :
    (Event.syscall (.sreset sem count)).recount narrow s = some (toInt32 sem, some (narrow (toInt32 count))) := by
  simp [Event.recount, Kernel.recount, hv, hpos]

/-- Only the count given to `sreset` is narrowed. -/
theorem recount_congr {narrow : Int → Int} (h : ∀ sem count, e = .syscall (.sreset sem count) →
    (s.counts (toInt32 sem)).isSome → 0 ≤ toInt32 count → narrow (toInt32 count) = toInt16 (toInt32 count)) :
    e.recount narrow s = e.recount toInt16 s := by
  cases e with
  | syscall sc =>
    cases sc with
    | sreset sem count =>
      cases hv : s.counts (toInt32 sem) with
      | none => simp [Event.recount, Kernel.recount, hv]
      | some v =>
        by_cases hpos : 0 ≤ toInt32 count
        · rw [recount_sreset hv hpos, recount_sreset hv hpos, h sem count rfl (by simp [hv]) hpos]
        · simp [Event.recount, Kernel.recount, hv, hpos]
    | _ => rfl
  | _ => rfl

/-- `scount` gives the count of a semaphore that is not negative. -/
theorem scount_eq (hv : s.counts sem = some v) (hpos : 0 ≤ v) (hmax : v ≤ maxCount) : scount sem s = answer v [] s := by
  obtain ⟨st, hst, rfl⟩ := of_counts hv
  have hmod : st.count % 2 ^ 16 = st.count := by
    simp only [maxCount] at hmax
    omega
  rw [scount, getSemaphoreStruct_bind, hst]
  dsimp only
  rw [hmod]

/-- In every run, whatever its steps, the table knows every process by its own pid. -/
theorem Reached.named {C : Kernel → Event → Prop} (h : Reached C s) : s.Named :=
  h.invariant (I := Kernel.Named) (fun _ hb => hb.ready.inv.toCore.named) fun _ _ _ hs _ hst => hs.step hst

/-- In every run, whatever its steps, the flag is off and every count is of 16 bits. -/
theorem Reached.inRange {C : Kernel → Event → Prop} (h : Reached C s) : s.parentBlock = false ∧ s.InRange := by
  refine (h.invariant (I := fun s => s.Named ∧ s.parentBlock = false ∧ s.InRange) (fun s hb => ?_) fun s e t hs _ hst => ?_).2
  · refine ⟨Reached.named (C := C) (Reach.init hb), congrArg Prod.snd hb.counting, fun i v hv => ?_⟩
    have hnone : s.counts = fun _ => none := congrArg Prod.fst hb.counting
    rw [hnone] at hv
    cases hv
  · obtain ⟨hn, hflag, hrange⟩ := hs
    exact ⟨hn.step hst, (hst.counted hn hflag).flag, hrange.step hn hflag hst⟩

end

/-- `signaln` of a count that stays within the limit is so many increments with their
wake-ups and one call of `scheduler`, each increment being what `signal` does before its own
call; any other count is refused. The flag is off whenever a process runs. -/
theorem signaln_atomic {s : Kernel} (h : Reached (fun _ _ => True) s) (sem count : Int) :
    (∀ v, s.counts sem = some v → 0 ≤ count → v + count ≤ maxCount →
      signaln sem count s = (signalUnits sem count.toNat >>= fun _ => scheduleAnswer 0 []) s ∧
      ∀ t, signalUnits sem count.toNat s = .ok ((), t) →
        t.counts = Function.update s.counts sem (some (v + count)) ∧ t.parentBlock = false) ∧
    ((∀ v, s.counts sem = some v → count < 0 ∨ maxCount < v + count) → ∃ e < 0, signaln sem count s = answer e [] s) ∧
    (∀ v, s.counts sem = some v → v ≠ maxCount → signal sem s = (signalUnit sem >>= fun _ => scheduleAnswer 0 []) s) ∧
    s.parentBlock = false ∧ ∀ t, signaln sem count s = .ok ((), t) → t.parentBlock = false := by
  have hflag := h.inRange.1
  refine ⟨fun v hv hpos hmax => ⟨signaln_eq hv hpos hmax hflag, fun t ht => ?_⟩, signaln_refused,
    fun v hv hmax => signal_eq hv hmax hflag, hflag, ?_⟩
  · have hunits := wp_ok (signalUnits_counts hv) ht
    have hsum : v + (count.toNat : Int) = v + count := by omega
    rw [hsum] at hunits
    exact ⟨hunits.counts, hunits.flag.trans hflag⟩
  · exact fun t ht => wp_ok (signaln_flag hflag count) ht

/-- A child waits for a semaphore whose count was zero, and the shell adds three units: the
first wakes the child. -/
theorem signaln_atomic_shell : ∃ s t, Reached (fun _ _ => True) s ∧ s.counts 1 = some (-1) ∧ s.waits 2 ∧
    signaln 1 3 s = (signalUnits 1 3 >>= fun _ => scheduleAnswer 0 []) s ∧ signalUnits 1 3 s = .ok ((), t) ∧
    t.counts 1 = some 2 ∧ ¬ t.waits 2 := by
  have hval : (run boot [.timer, .syscall (.screate 0 true), startShell 3, .syscall (.wait 1)]).bind
      (fun s => (Except.toOption (signalUnits 1 3 s)).map fun r =>
        (s.counts 1, (s.heap 2).map (·.state), (r.2.heap 2).map (·.state))) =
      some (some (-1), some .blockedSemaphore, some .activatable) := by decide +kernel
  obtain ⟨s, hs, hf⟩ := reached_of_run (C := fun _ _ => True) (fun _ _ _ => trivial) hval
  cases hrun : signalUnits 1 3 s with
  | error f =>
    rw [hrun] at hf
    cases hf
  | ok r =>
    obtain ⟨_, t⟩ := r
    simp only [hrun, Except.toOption, Option.map_some, Option.some.injEq, Prod.mk.injEq] at hf
    obtain ⟨hv, hwaits, hwoken⟩ := hf
    obtain ⟨hunits, hcounts⟩ := (signaln_atomic hs 1 3).1 (-1) hv (by decide) (by decide)
    refine ⟨s, t, hs, hv, hwaits, hunits, hrun, ?_, ?_⟩
    · rw [(hcounts t hrun).1, Function.update_self]
      rfl
    · simp [Kernel.waits, hwoken]

/-- The count `sreset` is given is stored in 16 bits, and `scount` reads another. -/
theorem sreset_wraps : ∃ s t, Reached (fun _ _ => True) s ∧ Step s (.syscall (.sreset 1 65541)) t ∧
    (s.counts 1).isSome ∧ t.counts 1 = some 5 ∧ Answers t 1 0 [] ∧ ¬ Exactly id s (.syscall (.sreset 1 65541)) t := by
  have hval : (run boot [.timer, .syscall (.screate 1 true)]).bind (fun s => (run s [.syscall (.sreset 1 65541)]).bind fun t =>
      if s.counts 1 = some 1 ∧ t.counts 1 = some 5 ∧ (t.heap 1).map (·.context) = some (.user (some ⟨0, []⟩))
        then some () else none) = some () := by decide +kernel
  obtain ⟨s, hs, hf⟩ := reached_of_run (C := fun _ _ => True) (fun _ _ _ => trivial) hval
  obtain ⟨t, ht, hcheck⟩ := Option.bind_eq_some_iff.1 hf
  split at hcheck
  · next h =>
    obtain ⟨hone, hfive, hctx⟩ := h
    refine ⟨s, t, hs, run_step ht, by simp [hone], hfive, hctx, fun hex => ?_⟩
    have hrec : (Event.syscall (.sreset 1 65541)).recount id s = some (1, some 65541) := by
      have h1 : toInt32 1 = 1 := by decide
      have h2 : toInt32 65541 = 65541 := by decide
      simp [Event.recount, Kernel.recount, h1, h2, hone]
    rw [Exactly, hrec] at hex
    have hcount := congrFun hex 1
    rw [hfive, Function.update_self] at hcount
    simp at hcount
  · cases hcheck

/-- In every run every count stays in 16 bits, and every step leaves exactly the counts it is
to leave, or refuses, provided that `sreset` of a semaphore is not given a count above the
limit; and a count given to `sreset` is then read back. -/
theorem counts_exact_iff {s t : Kernel} {e : Event} (h : Reached (fun _ _ => True) s) (hst : Step s e t) :
    s.InRange ∧ t.InRange ∧
    ((Exactly id s e t ∧ ∀ sem count, e = .syscall (.sreset sem count) → (s.counts (toInt32 sem)).isSome → 0 ≤ toInt32 count →
        scount (toInt32 sem) t = answer (toInt32 count) [] t) ↔
      ∀ sem count, e = .syscall (.sreset sem count) → (s.counts (toInt32 sem)).isSome → toInt32 count ≤ maxCount) := by
  obtain ⟨hflag, hrange⟩ := h.inRange
  have hn := h.named
  have hexact := (hst.counted hn hflag).exact
  refine ⟨hrange, hrange.step hn hflag hst, ?_, ?_⟩
  · rintro ⟨hex, -⟩ sem count rfl hlive
    obtain ⟨v, hv⟩ := Option.isSome_iff_exists.1 hlive
    by_contra hlt
    have hpos : 0 ≤ toInt32 count := by
      simp only [maxCount] at hlt
      omega
    rw [Exactly, recount_sreset hv hpos] at hex hexact
    have hsame : some (toInt32 count) = some (toInt16 (toInt32 count)) := by
      simpa using congrFun (hex.symm.trans hexact) (toInt32 sem)
    have hle := (toInt16_range (toInt32 count)).2
    rw [← Option.some.inj hsame] at hle
    exact hlt hle
  · intro hcond
    have hfits : ∀ sem count, e = .syscall (.sreset sem count) → (s.counts (toInt32 sem)).isSome → 0 ≤ toInt32 count →
        id (toInt32 count) = toInt16 (toInt32 count) := by
      intro sem count he hlive hpos
      refine (toInt16_of_range ⟨?_, hcond sem count he hlive⟩).symm
      simp only [minCount]
      omega
    have hex : Exactly id s e t := by
      rw [Exactly, recount_congr hfits]
      exact hexact
    refine ⟨hex, fun sem count he hlive hpos => ?_⟩
    subst he
    obtain ⟨v, hv⟩ := Option.isSome_iff_exists.1 hlive
    rw [Exactly, recount_sreset hv hpos] at hex
    exact scount_eq (by rw [hex, Function.update_self]; rfl) hpos (hcond sem count rfl hlive)

/-- A reset to the limit is exact. -/
theorem counts_exact_shell : ∃ s t, Reached (fun _ _ => True) s ∧ Step s (.syscall (.sreset 1 32767)) t ∧
    (s.counts 1).isSome ∧ Exactly id s (.syscall (.sreset 1 32767)) t := by
  have hval : (run boot [.timer, .syscall (.screate 1 true)]).bind (fun s => (run s [.syscall (.sreset 1 32767)]).bind fun t =>
      if (s.counts 1).isSome then some () else none) = some () := by decide +kernel
  obtain ⟨s, hs, hf⟩ := reached_of_run (C := fun _ _ => True) (fun _ _ _ => trivial) hval
  obtain ⟨t, ht, hcheck⟩ := Option.bind_eq_some_iff.1 hf
  split at hcheck
  · next hlive =>
    refine ⟨s, t, hs, run_step ht, hlive, ((counts_exact_iff hs (run_step ht)).2.2.2 fun sem count he _ => ?_).1⟩
    cases he
    decide
  · cases hcheck

end Xinul
