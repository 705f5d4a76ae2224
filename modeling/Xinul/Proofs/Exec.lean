import Xinul.Proofs.Action

/-!
# Executing the kernel functions

One rule for each primitive of `State.lean`, the loop rules of the scheduler, and
`scheduler` itself: from any state of a chain it leaves a process running, the one
of greatest priority if the activatable queue is in order.
-/

namespace Xinul

open Prog Waiting

section primitives

variable {K : Kind} {H : Set Ptr} {s t : Kernel} {p q : Ptr} {r : Process} {hd : QueueHead}
  {E : Fault → Prop}

theorem wp_deref {Q : Process → Kernel → Prop} (hp : s.heap p = some r) :
    wp (deref p) Q E s ↔ Q r s := by
  simp [deref, hp]

/-- A read of a record that may have been freed. -/
theorem wp_deref_any {Q : Process → Kernel → Prop} (hE : E (.useAfterFree p))
    (h : ∀ r, s.heap p = some r → Q r s) : wp (deref p) Q E s := by
  cases hp : s.heap p with
  | some r => exact (wp_deref hp).2 (h r hp)
  | none => simpa [deref, hp] using hE

theorem wp_modifyProc {Q : Unit → Kernel → Prop} {f : Process → Process} (hp : s.heap p = some r) :
    wp (modifyProc p f) Q E s ↔ Q () (s.mapProc p f) := by
  simp [modifyProc, wp_deref hp]

/-- A write to a record that may have been freed. -/
theorem wp_modifyProc_any {Q : Unit → Kernel → Prop} {f : Process → Process}
    (hE : E (.useAfterFree p)) (h : ∀ r, s.heap p = some r → Q () (s.mapProc p f)) :
    wp (modifyProc p f) Q E s := by
  cases hp : s.heap p with
  | some r => exact (wp_modifyProc hp).2 (h r hp)
  | none => simpa [modifyProc, deref, hp] using hE

@[simp] theorem wp_getProcessStructOfPid {Q : Option Ptr → Kernel → Prop} (pid : Int) :
    wp (getProcessStructOfPid pid) Q E s ↔ Q (s.pidProcessHashTable pid) s := Iff.rfl

@[simp] theorem wp_getpid {Q : Int → Kernel → Prop} :
    wp getpid Q E s ↔ Q s.currentRunningProcessPid s := Iff.rfl

@[simp] theorem wp_getCurrentProcess {Q : Option Ptr → Kernel → Prop} :
    wp getCurrentProcess Q E s ↔ Q (s.pidProcessHashTable s.currentRunningProcessPid) s := Iff.rfl

@[simp] theorem wp_queueTop {Q : Option Ptr → Kernel → Prop} :
    wp (queueTop hd) Q E s ↔ Q (s.queue hd).getLast? s := Iff.rfl

@[simp] theorem wp_queueEmpty {Q : Bool → Kernel → Prop} :
    wp (queueEmpty hd) Q E s ↔ Q (s.queue hd).isEmpty s := Iff.rfl

theorem wp_derefOpt {Q : Process → Kernel → Prop} (hp : s.heap p = some r) :
    wp (derefOpt (some p)) Q E s ↔ Q r s := wp_deref hp

theorem wp_validate {Q : Int → Kernel → Prop} (hp : s.heap p = some r) :
    wp (validateActionProcessValid (some p)) Q E s ↔ Q (if r.state.dead then -1 else 0) s := by
  simp only [validateActionProcessValid, wp_bind, wp_deref hp, wp_ite, wp_pure]
  cases hs : r.state <;> simp [ProcessState.dead]

theorem wp_queueWalk {Q : List Ptr → Kernel → Prop} {f : Process → Int} {v : Int} {l : List Ptr}
    (hl : ∀ c ∈ l, ∃ r, s.heap c = some r) :
    wp (queueWalk f p v l) Q E s ↔ Q (insertWhile (fun c => s.value f c < v) p l) s := by
  induction l generalizing Q with
  | nil => simp [queueWalk]
  | cons c l ih =>
    obtain ⟨rc, hrc⟩ := hl c (by simp)
    have hv : s.value f c = f rc := by simp [Kernel.value, hrc]
    rw [insertWhile_cons, queueWalk, wp_bind, wp_deref hrc]
    by_cases hlt : f rc < v
    · simp only [hlt, if_true, wp_bind, hv, decide_true]
      rw [ih (fun d hd => hl d (by simp [hd]))]
      simp
    · simp [hlt, hv]

theorem wp_queueAdd {Q : Unit → Kernel → Prop} {f : Process → Int} (h : Core H s)
    (hp : s.heap p = some r) (hn : r.nextPrev = none) (hf : f = hd.field)
    (hQ : Q () (s.link p hd (s.inserted p r hd))) : wp (queueAdd p hd f) Q E s := by
  subst hf
  have hlive : ∀ c ∈ s.queue hd, ∃ r, s.heap c = some r := fun c hc => by
    obtain ⟨r, hr, _⟩ := h.live_of_mem hc
    exact ⟨r, hr⟩
  simp only [queueAdd, wp_bind, wp_deref hp, hn, ne_eq, not_true_eq_false, if_false, wp_get]
  rw [wp_queueWalk hlive, wp_modify]
  exact hQ

theorem wp_queueDel {Q : Unit → Kernel → Prop} (hp : s.heap p = some r)
    (hl : r.nextPrev = some hd) : wp (queueDel p) Q E s ↔ Q () (s.unlink p hd) := by
  simp [queueDel, wp_deref hp, hl]

theorem wp_queueDel_none {Q : Unit → Kernel → Prop} (hp : s.heap p = some r)
    (hl : r.nextPrev = none) : wp (queueDel p) Q E s ↔ E (.queueDelAssert p) := by
  simp [queueDel, wp_deref hp, hl]

theorem wp_queueOut {Q : Option Ptr → Kernel → Prop} (h : Core H s)
    (hnone : s.queue hd = [] → Q none s)
    (hsome : ∀ l p r, s.queue hd = l ++ [p] → s.heap p = some r → r.nextPrev = some hd → p ∉ H →
      Q (some p) (s.unlink p hd)) :
    wp (queueOut hd) Q E s := by
  rw [queueOut, wp_bind, wp_get]
  cases hl : (s.queue hd).getLast? with
  | none => exact hnone (List.getLast?_eq_none_iff.1 hl)
  | some p =>
    obtain ⟨l, hql⟩ := List.getLast?_eq_some_iff.1 hl
    obtain ⟨r, hr, hn, hH⟩ := h.live_of_mem (p := p) (d := hd) (by simp [hql])
    simp only [wp_bind, wp_deref hr, wp_modify, wp_pure]
    exact hsome l p r hql hr hn hH

end primitives

/-! ## The state after an update -/

section projections

variable {s : Kernel} {p q : Ptr} {f : Process → Process} {hd : QueueHead} {l : List Ptr}

@[simp] theorem mapProc_heap : (s.mapProc p f).heap = Function.update s.heap p ((s.heap p).map f) := rfl
@[simp] theorem mapProc_table : (s.mapProc p f).pidProcessHashTable = s.pidProcessHashTable := rfl
@[simp] theorem mapProc_running :
    (s.mapProc p f).currentRunningProcessPid = s.currentRunningProcessPid := rfl
@[simp] theorem mapProc_queue : (s.mapProc p f).queue = s.queue := rfl
@[simp] theorem mapProc_msgQueue : (s.mapProc p f).msgQueue = s.msgQueue := rfl
@[simp] theorem mapProc_started : (s.mapProc p f).startedUserProcess = s.startedUserProcess := rfl
@[simp] theorem mapProc_counter : (s.mapProc p f).counter = s.counter := rfl
@[simp] theorem mapProc_semaphoreTable : (s.mapProc p f).semaphoreTable = s.semaphoreTable := rfl
@[simp] theorem mapProc_nextPtr : (s.mapProc p f).nextPtr = s.nextPtr := rfl

@[simp] theorem link_heap : (s.link p hd l).heap = Function.update s.heap p
    ((s.heap p).map fun r => { r with nextPrev := some hd, stamp := s.insertions }) := rfl
@[simp] theorem link_table : (s.link p hd l).pidProcessHashTable = s.pidProcessHashTable := rfl
@[simp] theorem link_running :
    (s.link p hd l).currentRunningProcessPid = s.currentRunningProcessPid := rfl
@[simp] theorem link_queue : (s.link p hd l).queue = Function.update s.queue hd l := rfl
@[simp] theorem link_msgQueue : (s.link p hd l).msgQueue = s.msgQueue := rfl
@[simp] theorem link_started : (s.link p hd l).startedUserProcess = s.startedUserProcess := rfl
@[simp] theorem link_counter : (s.link p hd l).counter = s.counter := rfl
@[simp] theorem link_semaphoreTable : (s.link p hd l).semaphoreTable = s.semaphoreTable := rfl

@[simp] theorem unlink_heap : (s.unlink p hd).heap = Function.update s.heap p
    ((s.heap p).map fun r => { r with nextPrev := none }) := rfl
@[simp] theorem unlink_table : (s.unlink p hd).pidProcessHashTable = s.pidProcessHashTable := rfl
@[simp] theorem unlink_running :
    (s.unlink p hd).currentRunningProcessPid = s.currentRunningProcessPid := rfl
@[simp] theorem unlink_queue :
    (s.unlink p hd).queue = Function.update s.queue hd ((s.queue hd).erase p) := rfl
@[simp] theorem unlink_msgQueue : (s.unlink p hd).msgQueue = s.msgQueue := rfl
@[simp] theorem unlink_started : (s.unlink p hd).startedUserProcess = s.startedUserProcess := rfl
@[simp] theorem unlink_counter : (s.unlink p hd).counter = s.counter := rfl
@[simp] theorem unlink_semaphoreTable : (s.unlink p hd).semaphoreTable = s.semaphoreTable := rfl

@[simp] theorem setRunning_heap (k : Int) : (s.setRunning k).heap = s.heap := rfl
@[simp] theorem setRunning_table (k : Int) :
    (s.setRunning k).pidProcessHashTable = s.pidProcessHashTable := rfl
@[simp] theorem setRunning_running (k : Int) : (s.setRunning k).currentRunningProcessPid = k := rfl
@[simp] theorem setRunning_queue (k : Int) : (s.setRunning k).queue = s.queue := rfl
@[simp] theorem setRunning_started (k : Int) :
    (s.setRunning k).startedUserProcess = s.startedUserProcess := rfl

end projections

/-! ## The running process -/

/-- The process at `c`, with the record `r`, is the running one and is `actif`. -/
structure Running (s : Kernel) (c : Ptr) (r : Process) : Prop where
  table : s.pidProcessHashTable s.currentRunningProcessPid = some c
  heap : s.heap c = some r
  started : r.started = true
  state : r.state = .actif
  user : s.startedUserProcess = true

/-- The process at `c` called `scheduler`. -/
structure Caller (s : Kernel) (c : Ptr) (r : Process) : Prop where
  table : s.pidProcessHashTable s.currentRunningProcessPid = some c
  heap : s.heap c = some r
  started : r.started = true
  user : s.startedUserProcess = true

/-- The activatable queue is ordered by priority. -/
def ActOrder (s : Kernel) : Prop :=
  (s.queue .activatable).Pairwise fun a b => s.value Process.prioField a ≤ s.value Process.prioField b

/-- No activatable process has a greater priority than the running one. -/
def Calm (s : Kernel) : Prop :=
  ∀ c rc, s.pidProcessHashTable s.currentRunningProcessPid = some c → s.heap c = some rc →
    ∀ p ∈ s.queue .activatable, ∀ r, s.heap p = some r → r.prio ≤ rc.prio

/-- What a kernel function of the kind `K` leaves behind: it did its actions and a
process runs. Either `scheduler` had no part in it, or it had the last word. -/
structure Done (K : Kind) (s₀ t : Kernel) : Prop where
  chain : Chain K s₀ ∅ t
  running : ∃ c r, Running t c r
  calm : Chain K.quiet s₀ ∅ t ∨ ∃ H u, Chain K s₀ H u ∧ (ActOrder u → Calm t)

section running

variable {K : Kind} {H : Set Ptr} {s s₀ t : Kernel} {c p q : Ptr} {r x : Process} {E : Fault → Prop}

theorem Running.unlinked (h : Running s c r) (hi : Core H s) (hc : c ∉ H) : r.nextPrev = none := by
  have := hi.fits c r h.heap hc
  simp only [Process.Fits, h.started, h.state] at this
  exact this.1

theorem Running.caller (h : Running s c r) : Caller s c r := ⟨h.table, h.heap, h.started, h.user⟩

theorem Running.alive (h : Running s c r) : r.state.dead = false := by
  rw [h.state]
  rfl

theorem Caller.pid (h : Caller s c r) (hi : Core H s) : r.pid = s.currentRunningProcessPid := by
  obtain ⟨x, hx, hpid⟩ := hi.table _ _ h.table
  rw [h.heap] at hx
  cases hx
  exact hpid

theorem Caller.pid_ne (h : Caller s c r) (hi : Core H s) : s.currentRunningProcessPid ≠ -1 := by
  have := (hi.pool.used c r h.heap).1
  rw [h.pid hi] at this
  omega

theorem Kind.quiet_le (hl : K.resched) : K.quiet.Le K :=
  ⟨fun _ => hl, fun _ h => h, id, id, id, fun _ h => h, id, id, id, fun _ h => h, fun _ h => h, fun _ h => h⟩

theorem Kind.le_quiet (hr : K.rash) : K.Le K.quiet :=
  ⟨fun _ => hr, fun _ h => h, id, id, id, fun _ h => h, id, id, id, fun _ h => h, fun _ h => h, fun _ h => h⟩

end running

end Xinul
