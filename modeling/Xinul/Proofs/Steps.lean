import Xinul.Lib.Run
import Xinul.Proofs.Boot
import Xinul.Proofs.Messages
import Xinul.Proofs.Priority

/-!
# A step of the machine

Every event leads along a chain of actions to a state in which a process runs
again. `Kind.Admits` collects what a kind must allow for the event; the results
about runs choose the kind so that this is what their condition says.
-/

namespace Xinul

open Prog Machine

/-- What holds between two events. -/
structure Ready (s : Kernel) : Prop where
  inv : Inv ∅ s
  lineage : Lineage s
  stage : Booting s ∨ ∃ c r, Running s c r
  unmuted : s.parentBlock = false

/-- The clock `scheduler` reads when it is called in the event. -/
def Event.clock (s : Kernel) : Event → Nat
  | .timer => s.tick.counter
  | .resume => match s.current with
    | some r => if r.context = .stimer then s.tick.counter else s.counter
    | none => s.counter
  | _ => s.counter

/-- The event is a timer interrupt, or the second handler of one goes on. -/
def Event.Ticks (s : Kernel) : Event → Prop
  | .timer => True
  | .resume => ∃ r, s.current = some r ∧ r.context = .stimer
  | _ => False

/-- The number of ticks the event puts the running process to sleep for. -/
def Event.sleeps : Event → Option Nat
  | .syscall (.sleep nbrMs) => some (nbrMs / ticPer)
  | .syscall (.waitClock clock) => some clock
  | _ => none

/-- How many characters the `cons_read` that runs in the event asks for. -/
def Event.reading (s : Kernel) : Event → Option Nat
  | .syscall (.consRead length) => if length = 0 then none else some length
  | .resume => s.current.bind fun r => match r.context with
    | .consRead length => some length
    | _ => none
  | _ => none

/-- The semaphore all waiters of which the event wakes. -/
def Event.flushes : Event → Option Int
  | .syscall (.sdelete sem) => some (toInt32 sem)
  | .syscall (.sreset sem _) => some (toInt32 sem)
  | _ => none

/-- The process `kill` is called for by the event, if it may be killed. -/
def Event.target (s : Kernel) : Event → Option Ptr
  | .syscall (.kill pid) => if toInt32 pid = idleId ∨ toInt32 pid = kernelId then none
    else s.pidProcessHashTable (toInt32 pid)
  | _ => none

/-- The event is a `preceive`, or one that goes on, whose store faults. -/
def Event.storeFaults (s : Kernel) : Event → Bool
  | .syscall (.preceive fid message) => s.storeFaults (toInt32 fid) message
  | .resume => match s.current with
    | some r => r.context = .preceive .unmapped && r.message.status = .received
    | none => false
  | _ => false

/-- The process the event is to end. -/
def Event.victim (s : Kernel) : Event → Option Ptr
  | .syscall (.exit _) => s.pidProcessHashTable s.currentRunningProcessPid
  | .syscall (.preceive fid message) => if s.storeFaults (toInt32 fid) message then
      s.pidProcessHashTable s.currentRunningProcessPid else none
  | .pageFault => s.pidProcessHashTable s.currentRunningProcessPid
  | .resume => if Event.resume.storeFaults s then s.pidProcessHashTable s.currentRunningProcessPid else none
  | e => e.target s

/-- The process whose priority the event changes, and the new one. -/
def Event.reprios (s : Kernel) : Event → Option (Ptr × Nat)
  | .syscall (.chprio pid newprio) => if toInt32 newprio > maxPrio ∨ toInt32 newprio < minPrio then none
    else (s.pidProcessHashTable (toInt32 pid)).map (·, (toInt32 newprio).toNat)
  | _ => none

/-- The event is a call of `start_virtual` that fails too late. -/
def Event.Stillborn (s : Kernel) : Event → Prop
  | .syscall (.start (some name) ssize prio env) => s.Stillborn name ssize (toInt32 prio) env
  | _ => False

/-- What a kind must allow for the event `e` in the state `s`; `F` tells whether the
family is to be followed. The defaults are for a kind that allows everything. -/
structure Kind.Admits (K : Kind) (F : Prop) (s : Kernel) (e : Event) : Prop where
  resched : K.resched := by trivial
  family : K.family := by trivial
  spawn : K.spawn := by trivial
  mute : K.mute := by trivial
  safe : K.usesFreed ∨ F := by exact .inl trivial
  wakes : ∀ p x, s.heap p = some x → x.nextPrev = some .asleep → x.Overdue (e.clock s) → K.stale p := by
    intros; trivial
  sleeps : ∀ k c r, e.sleeps = some k → Running s c r →
    ({ r with wakeTime := s.wakeAt k } : Process).Overdue s.counter → K.stale c := by intros; trivial
  meets : ∀ fid b p, e = .syscall (.preceive fid b) → s.producerMet (toInt32 fid) = some p →
    if b = .unmapped then K.strand else K.stale p := by intros; split <;> trivial
  flushes : ∀ sem, e.flushes = some sem → K.flush sem := by intros; trivial
  acts : ∀ c r, Running s c r → K.acts c := by intros; trivial
  reads : ∀ c r n, Running s c r → e.reading s = some n → K.reads c := by intros; trivial
  reprio : ∀ p x v, e.reprios s = some (p, v) → s.heap p = some x → K.Reprio x v := by
    intros; exact ⟨.inl trivial, fun _ _ => .inl trivial, fun _ => .inl trivial⟩
  ends : ∀ c r, Running s c r → e.victim s = some c → ∃ cs, Passing K F s c r cs := by
    intros; exact ⟨[], False.elim, False.elim, False.elim, .inl trivial⟩
  kills : ∀ p x c r, Running s c r → e.target s = some p → s.heap p = some x → p ≠ c → x.state.dead = false →
    K.Kills F s r p x

/-- What a step leads to. -/
structure Outcome (K : Kind) (F G : Prop) (s t : Kernel) : Prop where
  after : After K s t
  family : F → Family t
  started : G → AllStarted t
  unmuted : s.parentBlock = false → t.parentBlock = false

section outcome

variable {K L : Kind} {F G : Prop} {s t : Kernel} {c : Ptr} {r : Process}

/-- The kind of the functions that leave the family and `parent_block` alone. -/
def Kind.still (K : Kind) : Kind := { K with family := False, spawn := False, mute := False }

/-- The kind of the functions that make no record and leave `parent_block` alone. -/
def Kind.barren (K : Kind) : Kind := { K with spawn := False, mute := False }

/-- The kind of the functions that leave `parent_block` alone. -/
def Kind.unmuted (K : Kind) : Kind := { K with mute := False }

theorem After.mono (h : After K s t) (hKL : K.Le L) (hq : K.quiet.Le L.quiet) : After L s t where
  chain := h.chain.mono hKL
  ready := h.ready
  calm := h.calm.imp (·.mono hq) fun ⟨H, u, hch, hu⟩ => ⟨H, u, hch.mono hKL, hu⟩

theorem Act.unmuted {H H' : Set Ptr} (a : Act K H s H' t) (hK : ¬ K.mute) (h : s.parentBlock = false) :
    t.parentBlock = false := by
  cases a with
  | parentBlock hb => exact hb.resolve_right hK
  | other same => rw [same.parentBlock, h]
  | _ => exact h

theorem Chain.unmuted {H : Set Ptr} (ch : Chain K s H t) (hK : ¬ K.mute) (h : s.parentBlock = false) :
    t.parentBlock = false :=
  ch.induct (P := fun _ t => t.parentBlock = false) h fun _ _ _ _ _ h a => a.unmuted hK h

theorem After.outcome_still (h : After K.still s t) (hfam : F → Family s) (hG : G → AllStarted s) :
    Outcome K F G s t where
  after := h.mono ⟨id, fun _ => id, id, id, id, fun _ => id, False.elim, False.elim, False.elim, fun _ => id, fun _ => id, fun _ => id⟩
    ⟨id, fun _ => id, id, id, id, fun _ => id, False.elim, False.elim, False.elim, fun _ => id, fun _ => id, fun _ => id⟩
  family hf := h.chain.family id (hfam hf)
  started hg := h.chain.allStarted id (hG hg)
  unmuted hb := h.chain.unmuted id hb

theorem After.outcome (h : After K.barren s t) (hfam : F → Family t) (hG : G → AllStarted s) :
    Outcome K F G s t where
  after := h.mono ⟨id, fun _ => id, id, id, id, fun _ => id, id, False.elim, False.elim, fun _ => id, fun _ => id, fun _ => id⟩
    ⟨id, fun _ => id, id, id, id, fun _ => id, id, False.elim, False.elim, fun _ => id, fun _ => id, fun _ => id⟩
  family := hfam
  started hg := h.chain.allStarted id (hG hg)
  unmuted hb := h.chain.unmuted id hb

/-- What holds between two events holds after the step. -/
theorem Outcome.ready (h : Outcome K F G s t) (hs : Ready s) : Ready t where
  inv := h.after.chain.inv
  lineage := h.after.chain.lineage hs.lineage
  stage := h.after.ready
  unmuted := h.unmuted hs.unmuted

end outcome

/-! ## The system calls -/

section steps

variable {K : Kind} {F G : Prop} {s : Kernel} {c : Ptr} {r : Process} {e : Event}

theorem wp_still {k : KernelM Unit} (hfam : F → Family s) (hG : G → AllStarted s)
    (h : wp k (fun _ t => Done K.still s t) K.still.Allows s) :
    wp k (fun _ t => Outcome K F G s t) K.Allows s :=
  wp_mono h (fun _ _ _ hd => hd.after.outcome_still hfam hG) (fun _ _ h => h)

theorem wp_tree {k : KernelM Unit} {u : Kernel} (hG : G → AllStarted s)
    (h : wp k (fun _ t => Done K.barren s t ∧ (F → Family t)) K.barren.Allows u) :
    wp k (fun _ t => Outcome K F G s t) K.Allows u :=
  wp_mono h (fun _ _ _ hd => hd.1.after.outcome hd.2 hG) (fun _ _ h => h)

/-- A kernel function starts in the running process. -/
theorem Running.mid (hr : Running s c r) (hi : Inv ∅ s) (hw : K.Wakes s) (ha : K.acts c) : Mid K s ∅ s c r :=
  ⟨.refl hi, hr, by simp, hw, ha⟩

theorem Passing.barren {p : Ptr} {x : Process} {cs : List Ptr} (h : Passing K F s p x cs) :
    Passing K.barren F s p x cs := ⟨h.family, h.children, h.dead, h.safe⟩

theorem Kind.Kills.barren {p : Ptr} {x : Process} (h : K.Kills F s r p x) : K.barren.Kills F s r p x := by
  refine ⟨h.ends, h.linked, h.parent, h.waiting, fun hst => ?_, h.allowed⟩
  obtain ⟨cs, hp⟩ := h.passing hst
  exact ⟨cs, hp.barren⟩

theorem Running.unique {c' : Ptr} {r' : Process} (h : Running s c r) (h' : Running s c' r') : c = c' ∧ r = r' := by
  obtain rfl : c = c' := Option.some.inj (h.table.symm.trans h'.table)
  exact ⟨rfl, Option.some.inj (h.heap.symm.trans h'.heap)⟩

/-- The family does not change in the middle of `preceive`. -/
theorem Kernel.Faulted.alike {fid : Int} {u : Kernel} (h : s.Faulted fid u) : s.Alike u := by
  have hnext : u.nextPtr = s.nextPtr := by cases h <;> rfl
  obtain heap | ⟨p, x, q, hp, -, heap⟩ := h.heap
  · exact .of_heap heap hnext
  · refine .update hp ?_ heap hnext
    exact ⟨rfl, rfl, rfl, rfl, rfl, rfl, fun _ => .inl rfl, .inl⟩

theorem syscallHandler_outcome {sc : Syscall} (hs : Ready s) (hr : Running s c r)
    (hu : s.pidProcessHashTable idleId ≠ some c) (hK : K.Admits F s (.syscall sc)) (hfam : F → Family s)
    (hG : G → AllStarted s ∧ ¬ Event.Stillborn s (.syscall sc)) :
    wp (syscallHandler sc) (fun _ t => Outcome K F G s t) K.Allows s := by
  have hG1 : G → AllStarted s := fun hg => (hG hg).1
  have hl := hK.resched
  have m : Mid K.still.quiet s ∅ s c r := hr.mid hs.inv hK.wakes (hK.acts c r hr)
  have mt : Mid K.barren.quiet s ∅ s c r := hr.mid hs.inv hK.wakes (hK.acts c r hr)
  cases sc with
  | start name ssize prio env =>
    have mn : Mid K.unmuted.quiet s ∅ s c r := hr.mid hs.inv hK.wakes (hK.acts c r hr)
    refine wp_mono (startVirtual_done (F := F) (G := G) mn hl hK.family hK.spawn hu hK.safe hfam _ _ _ _
      fun hg => ⟨hG1 hg, fun n hn => ?_⟩) (fun _ t _ h => ⟨h.1.after.mono ?_ ?_, h.2.1, h.2.2, ?_⟩) (fun _ _ h => h)
    · subst hn
      exact (hG hg).2
    · exact ⟨id, fun _ => id, id, id, id, fun _ => id, id, id, False.elim, fun _ => id, fun _ => id, fun _ => id⟩
    · exact ⟨id, fun _ => id, id, id, id, fun _ => id, id, id, False.elim, fun _ => id, fun _ => id, fun _ => id⟩
    · exact fun hb => h.1.chain.unmuted id hb
  | getpid => exact wp_still hfam hG1 (m.wp_answer hl _ _)
  | getprio pid => exact wp_still hfam hG1 (getprio_done m hl _)
  | chprio pid newprio =>
    refine wp_still hfam hG1 (chprio_done m hl _ _ fun hrange p x hp hx => ?_)
    obtain ⟨h1, h2, h3⟩ := hK.reprio p x (toInt32 newprio).toNat (by simp [Event.reprios, hrange, hp]) hx
    exact ⟨h1, h2, h3⟩
  | kill pid =>
    refine wp_tree hG1 (kill_done mt hl hK.family hu hs.lineage hfam _ (fun hid hself => ?_) fun hid p x hp hx hpc hd => ?_)
    · obtain ⟨cs, hp⟩ := hK.ends c r hr (by simpa [Event.victim, Event.target, hid] using hself)
      exact ⟨cs, hp.barren⟩
    · exact (hK.kills p x c r hr (by simpa [Event.target, hid] using hp) hx hpc hd).barren
  | waitpid pid retvalp => exact wp_tree hG1 (waitpid_done mt hl hK.family hu hK.safe hfam _ _)
  | exit retval =>
    obtain ⟨cs, hp⟩ := hK.ends c r hr hr.table
    exact wp_tree hG1 (exitProcess_done (mt.resched hl) hl hK.family hu hs.lineage hp.barren _)
  | consRead length =>
    exact wp_still hfam hG1 (consRead_done m hl hu _ fun hn => hK.reads c r length hr (by simp [Event.reading, hn]))
  | consEcho on => exact wp_still hfam hG1 (consEcho_done m hl _)
  | pcount fid count => exact wp_still hfam hG1 (pcount_done m hl _)
  | pcreate count queueOk arrOk => exact wp_still hfam hG1 (pcreate_done m hl _ _ _)
  | pdelete fid => exact wp_still hfam hG1 (pdelete_done m hl)
  | preceive fid message =>
    have meets := fun p => hK.meets fid message p rfl
    refine preceiveWith_done (K := K.still) m hl hu (fun hm p hp => ?_) (fun t ht _ => ht.after.outcome_still hfam hG1)
      fun hm u hu' => ?_
    · exact (if_neg hm).mp (meets p hp)
    -- the process is killed in the middle of the call
    have hmid := (mt.resched hl).faulted (fun p hp => (if_pos hm).mp (meets p hp)) hu'
    obtain ⟨cs, hp⟩ := hK.ends c r hr (by simp [Event.victim, hu'.storeFaults hm, hr.table])
    exact wp_tree hG1 (pageFault_done hmid hl hK.family (by rwa [hu'.table]) hs.lineage (hp.barren.alike hu'.alike (.refl r)))
  | preset fid => exact wp_still hfam hG1 (preset_done m hl)
  | psend fid message => exact wp_still hfam hG1 (psend_done m hl hu _)
  | sleep nbrMs => exact wp_still hfam hG1 (waitClock_done m hl hu _ (hK.sleeps _ c r rfl hr))
  | waitClock clock => exact wp_still hfam hG1 (waitClock_done m hl hu _ (hK.sleeps _ c r rfl hr))
  | currentClock => exact wp_still hfam hG1 (m.wp_answer hl _ _)
  | scount sem => exact wp_still hfam hG1 (scount_done m hl)
  | screate count semOk => exact wp_still hfam hG1 (screate_done m hl _ _ Int.bmod_bmod)
  | sdelete sem =>
    refine wp_still hfam hG1 (wp_mono (sdelete_done m hl (hK.flushes _ rfl)) ?_ (fun _ _ h => h))
    exact fun _ _ _ h => h.1
  | signal sem => exact wp_still hfam hG1 (signal_done m hl (.inr hs.unmuted))
  | signaln sem count =>
    have mm : Mid ({ K with family := False, spawn := False } : Kind).quiet s ∅ s c r := hr.mid hs.inv hK.wakes (hK.acts c r hr)
    refine wp_mono (signaln_done mm hl hK.mute _)
      (fun _ t _ h => ⟨h.1.after.mono ?_ ?_, fun hf => ?_, fun hg => ?_, h.2⟩) (fun _ _ h => h)
    · exact ⟨id, fun _ => id, id, id, id, fun _ => id, False.elim, False.elim, id, fun _ => id, fun _ => id, fun _ => id⟩
    · exact ⟨id, fun _ => id, id, id, id, fun _ => id, False.elim, False.elim, id, fun _ => id, fun _ => id, fun _ => id⟩
    · exact h.1.chain.family id (hfam hf)
    · exact h.1.chain.allStarted id (hG1 hg)
  | sreset sem count =>
    refine wp_still hfam hG1 (wp_mono (sreset_done m hl (hK.flushes _ rfl) _) ?_ (fun _ _ h => h))
    exact fun _ _ _ h => h.1
  | tryWait sem => exact wp_still hfam hG1 (tryWait_done m hl)
  | wait sem => exact wp_still hfam hG1 (wait_done m hl hu)

/-! ## The events -/

theorem Ready.user (hs : Ready s) (hr : Running s c r) (hne : s.currentRunningProcessPid ≠ idleId) :
    s.pidProcessHashTable idleId ≠ some c := by
  intro hi
  obtain ⟨x, hx, hpid⟩ := hs.inv.table _ _ hi
  rw [hr.heap] at hx
  cases hx
  exact hne ((hr.caller.pid hs.inv.toCore).symm.trans hpid)

theorem Running.current (hr : Running s c r) : s.current = some r := by
  simp [Kernel.current, hr.table, hr.heap]

/-- The idle process is only interrupted between two timer handlers. -/
theorem Ready.resumes (hs : Ready s) (hr : Running s c r) (hk : ¬ r.context.interrupted) :
    s.pidProcessHashTable idleId ≠ some c := fun hi => hk (hs.inv.idle_at hr.heap hi).2.2

/-- A process that runs is in no call it cannot return from. -/
theorem Ready.not_final (hs : Ready s) (hr : Running s c r) : r.context.final ≠ true := by
  rw [hs.inv.context_of_undead hr.heap hr.started hr.alive]
  decide

theorem resume_outcome (hs : Ready s) (hr : Running s c r) (hK : K.Admits F s .resume) (hfam : F → Family s)
    (hG1 : G → AllStarted s) : wp resume (fun _ t => Outcome K F G s t) K.Allows s := by
  have hl := hK.resched
  have hclock : r.context ≠ .stimer → Event.resume.clock s = s.counter := by
    intro h
    simp [Event.clock, hr.current, h]
  have wakes : r.context ≠ .stimer → K.Wakes s := by
    intro h p x hp hn ho
    exact hK.wakes p x hp hn (by rwa [hclock h])
  have hnf := hs.not_final hr
  have m : r.context ≠ .stimer → Mid K.still.quiet s ∅ s c r := fun h => hr.mid hs.inv (wakes h) (hK.acts c r hr)
  have mt : r.context ≠ .stimer → Mid K.barren.quiet s ∅ s c r := fun h => hr.mid hs.inv (wakes h) (hK.acts c r hr)
  have alive := hr.alive
  simp only [resume, wp_bind, wp_getCurrentProcess, hr.table, wp_derefOpt hr.heap]
  cases hctx : r.context with
  | user a =>
    have m1 : Mid K.still.quiet s ∅ s c r := m (by simp [hctx])
    exact wp_still (k := pure ()) hfam hG1 ⟨m1.chain.mono (Kind.quiet_le hl), ⟨c, r, hr⟩, .inl m1.chain⟩
  | start p =>
    refine wp_tree hG1 (startResume_done (mt (by simp [hctx])) hl hfam (hK.safe.imp id fun hf => ?_))
    obtain ⟨x, hx, _⟩ := (hfam hf).starts c r p hr.heap hr.started alive hctx
    exact ⟨x, hx⟩
  | psend => exact wp_still hfam hG1 (psendResume_done (m (by simp [hctx])) hl)
  | preceive message =>
    refine preceiveResumeWith_done (K := K.still) (m (by simp [hctx])) hl (fun t ht => ht.after.outcome_still hfam hG1) fun hm hst => ?_
    subst hm
    obtain ⟨cs, hp⟩ := hK.ends c r hr (by
      simp [Event.victim, Event.storeFaults, hr.current, hctx, hst, hr.table])
    exact wp_tree hG1 (pageFault_done ((mt (by simp [hctx])).resched hl) hl hK.family
      (hs.resumes hr (by simp [hctx, Context.interrupted])) hs.lineage hp.barren)
  | wait => exact wp_still hfam hG1 (waitResume_done (m (by simp [hctx])) hl)
  | waitpidAny retvalp =>
    have hu := hs.resumes hr (by simp [hctx, Context.interrupted])
    obtain ⟨cs, hcs⟩ := exists_list_of_imp fun hf => (hfam hf).children c r hr.heap hr.started alive
    exact wp_tree hG1 (waitpidAny_done (mt (by simp [hctx])) hl hK.family hu hK.safe hfam hcs retvalp)
  | waitpidChild temp before retvalp =>
    have hu := hs.resumes hr (by simp [hctx, Context.interrupted])
    obtain ⟨cs, hcs⟩ := exists_list_of_imp fun hf =>
      (hfam hf).waits c r temp before retvalp hr.heap hr.started alive hctx
    exact wp_tree hG1 (waitpidChild_done (mt (by simp [hctx])) hl hK.family hu hK.safe hfam hcs retvalp)
  | consRead length =>
    have hu := hs.resumes hr (by simp [hctx, Context.interrupted])
    exact wp_still hfam hG1 (consReadLoop_done (m (by simp [hctx])) hl hu length
      (hK.reads c r length hr (by simp [Event.reading, hr.current, hctx])))
  | stimer =>
    refine wp_still hfam hG1 (stimer_done (.refl hs.inv) hr hl (fun p x hp hn ho => ?_) (.user none (hK.acts c r hr)))
    refine hK.wakes p x hp hn ?_
    simpa [Event.clock, hr.current, hctx] using ho
  | exitProcess => exact absurd (by rw [hctx]; rfl) hnf
  | killSelf p pid => exact absurd (by rw [hctx]; rfl) hnf
  | pageFault p pid => exact absurd (by rw [hctx]; rfl) hnf

/-- A step from a ready state. -/
theorem step_outcome (hs : Ready s) (he : e.enabled s = true) (hK : K.Admits F s e) (hfam : F → Family s)
    (hG : G → AllStarted s ∧ ¬ e.Stillborn s) : wp (step e) (fun _ t => Outcome K F G s t) K.Allows s := by
  have hl := hK.resched
  have hG1 : G → AllStarted s := fun hg => (hG hg).1
  rcases hs.stage with hb | ⟨c, r, hr⟩
  · -- before the first interrupt nothing runs that could make a system call
    have hpid := hb.running
    have hcur : s.current = none := by simp [Kernel.current, hb.table_none]
    cases e with
    | syscall sc => simp [Event.enabled, hpid] at he
    | timer =>
      simp only [step, wp_bind, wp_get]
      exact wp_mono (hb.stimer (K := K.still) hl) (fun _ _ _ h => h.outcome_still hfam hG1) (fun _ _ h => h)
    | keyboard k => exact wp_mono (hb.keyboard (K := K.still) hl k) (fun _ _ _ h => h.outcome_still hfam hG1) (fun _ _ h => h)
    | pageFault => simp [Event.enabled, hpid] at he
    | resume => simp [Event.enabled, Kernel.inUserMode, hcur, hpid] at he
  · cases e with
    | syscall sc =>
      simp only [Event.enabled, Bool.and_eq_true, decide_eq_true_eq] at he
      exact syscallHandler_outcome hs hr (hs.user hr he.2) hK hfam hG
    | timer =>
      simp only [step, wp_bind, wp_get]
      refine wp_still hfam hG1 (stimer_done (.refl hs.inv) hr hl hK.wakes ?_)
      cases s.virt
      · exact .user none (hK.acts c r hr)
      · exact ⟨.inr rfl, (fun h => by cases h), fun _ => trivial, hK.acts c r hr⟩
    | keyboard k =>
      have m : Mid K.still.quiet s ∅ s c r := hr.mid hs.inv hK.wakes (hK.acts c r hr)
      exact wp_still hfam hG1 (keyboard_done m hl k none)
    | pageFault =>
      simp only [Event.enabled, Bool.and_eq_true, decide_eq_true_eq] at he
      obtain ⟨cs, hp⟩ := hK.ends c r hr hr.table
      have m : Mid K.barren s ∅ s c r := hr.mid hs.inv hK.wakes (hK.acts c r hr)
      exact wp_tree hG1 (pageFault_done m hl hK.family (hs.user hr he.2) hs.lineage hp.barren)
    | resume => exact resume_outcome hs hr hK hfam hG1

end steps

end Xinul
