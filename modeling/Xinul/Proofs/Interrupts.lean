import Xinul.Proofs.Semaphores

/-!
# The console, sleep and the timer

The functions of `cons_read.c`, `keyboard.c` and `timer.c`, and the first timer
interrupt, which switches to the first process.
-/

namespace Xinul

open Prog Waiting

section calls

variable {K : Kind} {s s₀ : Kernel} {c : Ptr} {r : Process} {k : Context}

/-- An interrupt returns to the running process. -/
theorem Mid.wp_save (m : Mid K.quiet s₀ ∅ s c r) (hl : K.resched) (hk : Saves K.quiet s c r k) :
    wp (saveContext k) (fun _ t => Done K s₀ t) K.Allows s := by
  simp only [saveContext, wp_bind, wp_getCurrentProcess, m.running.table, wp_modifyProc m.running.heap]
  have := m.chain.save m.running.heap hk
  exact ⟨this.mono (Kind.quiet_le hl), ⟨c, _, m.running.save⟩, .inl this⟩

theorem wp_ofConsole {α : Type} {o : Option α} {Q : α → Kernel → Prop} {E : Fault → Prop} (hE : E .hang)
    (h : ∀ a, o = some a → Q a s) : wp (ofConsole o) Q E s := by
  cases o with
  | some a => exact h a rfl
  | none => exact hE

theorem consEcho_done (m : Mid K.quiet s₀ ∅ s c r) (hl : K.resched) (on : Int) :
    wp (consEcho on) (fun _ t => Done K s₀ t) K.Allows s := by
  rw [consEcho, wp_bind, wp_modify]
  have m1 := m.other (t := { s with console := { s.console with echo := decide (on ≠ 0) } })
    (by constructor <;> rfl) rfl rfl
  exact m1.wp_answer hl _ _

theorem consReadLoop_done (m : Mid K.quiet s₀ ∅ s c r) (hl : K.resched)
    (hu : s.pidProcessHashTable idleId ≠ some c) (length : Nat) (hio : K.reads c) :
    wp (consReadLoop length) (fun _ t => Done K s₀ t) K.Allows s := by
  rw [consReadLoop, wp_bind, wp_get]
  simp only [wp_bind]
  refine wp_ofConsole trivial fun eol _ => ?_
  by_cases hwait : eol = false ∧ s.console.isBufferFull = false ∧ length > s.console.bufferCurrentSize
  · simp only [if_pos hwait, wp_bind, wp_getCurrentProcess, m.running.table]
    refine (m.resched hl).wp_blockSelf (d := .blockedIo) hl hu rfl rfl rfl rfl
      ⟨rfl, rfl, rfl, rfl, by rw [m.running.state]; rfl, .inl rfl⟩ rfl rfl (fun n => ?_)
      (fun _ h => by cases h) (by simp) (by simp) (by simp) rfl rfl (fun _ => hio)
    simp [Process.Fits, m.running.started]
  rw [if_neg hwait]
  by_cases hlast : s.console.lastWrittenCharIndex = -1
  · rw [if_pos hlast]
    trivial
  · simp only [if_neg hlast, wp_bind]
    refine wp_ofConsole trivial fun read _ => ?_
    obtain ⟨con, out⟩ := read
    rw [wp_modify]
    have m1 := m.other (t := { s with console := con }) (by constructor <;> rfl) rfl rfl
    exact m1.wp_answer hl _ _

theorem consRead_done (m : Mid K.quiet s₀ ∅ s c r) (hl : K.resched)
    (hu : s.pidProcessHashTable idleId ≠ some c) (length : Nat) (hio : length ≠ 0 → K.reads c) :
    wp (consRead length) (fun _ t => Done K s₀ t) K.Allows s := by
  rw [consRead, wp_ite]
  exact ⟨fun _ => m.wp_answer hl _ _, fun h => consReadLoop_done m hl hu length (hio h)⟩

theorem keyboard_done (m : Mid K.quiet s₀ ∅ s c r) (hl : K.resched) (key : UInt8) (a : Option Answer) :
    wp (handleKeyboardInterrupt key (.user a)) (fun _ t => Done K s₀ t) K.Allows s := by
  rw [handleKeyboardInterrupt, wp_bind, wp_get]
  simp only [wp_bind]
  refine wp_ofConsole trivial fun con _ => ?_
  rw [wp_modify]
  have m1 := m.other (t := { s with console := con }) (by constructor <;> rfl) rfl rfl
  refine wp_queueOut m1.inv.toCore (fun _ => m1.wp_save hl (.user a m1.acts)) ?_
  intro l p x _ hp hlink _
  -- the reader of greatest priority gets the keyboard
  have hst : x.started = true ∧ x.state = .blockedIo := by
    have hf := m1.inv.fits p x hp (by simp)
    cases hb : x.started <;> cases hs : x.state <;> simp_all [Process.Fits, QueueHead.queue?]
  have hdead : x.state.dead = false := by rw [hst.2]; rfl
  have m2 := (m1.resched hl).unlink hp hlink
  have hp' : s.heap p = some x := hp
  simp only [wp_bind]
  refine m2.wp_activate (x := { x with nextPrev := none }) (by simp) (by simp [hp']) hdead (.inl hl)
    rfl rfl rfl rfl rfl ⟨rfl, rfl, rfl, rfl, hdead.symm, .inl rfl⟩ rfl ?_
  exact fun t m3 _ => m3.wp_schedule hl (.user a m3.acts)

/-- The wake time `wait_clock` stores for a process that sleeps `clock` ticks. -/
def Kernel.wakeAt (s : Kernel) (clock : Nat) : Int := Int.bmod (-(s.counter + clock : Nat)) (2 ^ 64)

theorem waitClock_done (m : Mid K.quiet s₀ ∅ s c r) (hl : K.resched)
    (hu : s.pidProcessHashTable idleId ≠ some c) (clock : Nat)
    (hs : ({ r with wakeTime := s.wakeAt clock } : Process).Overdue s.counter → K.stale c) :
    wp (waitClock clock) (fun _ t => Done K s₀ t) K.Allows s := by
  simp only [waitClock, wp_bind, wp_getCurrentProcess, m.running.table, wp_get]
  refine (m.resched hl).wp_blockSelf (d := .asleep) hl hu rfl rfl rfl rfl
    ⟨rfl, rfl, rfl, rfl, by rw [m.running.state]; rfl, .inl rfl⟩ rfl rfl (fun n => ?_)
    (fun _ h => by cases h) (by simp) (by simp) (fun _ ho => hs ho) rfl rfl fun h => by cases h
  simp [Process.Fits, m.running.started]

/-- The globals after `counter++`. -/
def Kernel.tick (s : Kernel) : Kernel := { s with counter := (s.counter + 1) % 2 ^ 64 }

theorem Chain.tick {H : Set Ptr} (ch : Chain K s₀ H s) : Chain K s₀ H s.tick :=
  ch.step (.other (by constructor <;> rfl))

theorem stimer_done (ch : Chain K s₀ ∅ s) (hr : Running s c r) (hl : K.resched) (hw : K.Wakes s.tick)
    (hk : Saves K s c r k) :
    wp (handleStimerInterrupt k) (fun _ t => Done K s₀ t) K.Allows s := by
  have hn := hr.unlinked ch.inv.toCore (by simp)
  rw [handleStimerInterrupt, wp_bind, wp_modify]
  exact schedule_done (s := s.tick) ch.tick hl ⟨hr.table, hr.heap, hr.started, hr.user⟩
    (by rw [hn]; exact fun h => by cases h) hw ⟨hk.pointers, hk.final, hk.idle, hk.acts⟩

/-- A sleeper that outranks everybody runs as soon as it is woken. -/
theorem stimer_runs {w : Ptr} {x : Process} (hi : Inv ∅ s) (hr : Running s c r)
    (hw : Foremost s.tick w x) (hprio : r.prio ≤ x.prio) (hk : Saves .any s c r k)
    (hl : x.nextPrev ≠ none) :
    wp (handleStimerInterrupt k) (fun _ t => t.currentRunningProcessPid = x.pid) (fun _ => True) s := by
  have hn := hr.unlinked hi.toCore (by simp)
  have hcw : c ≠ w := by
    rintro rfl
    obtain rfl : r = x := Option.some.inj (hr.heap.symm.trans hw.heap)
    exact hl hn
  rw [handleStimerInterrupt, wp_bind, wp_modify]
  exact schedule_runs (s := s.tick) (Chain.tick (K := .any) (.refl hi)).inv
    ⟨hr.table, hr.heap, hr.started, hr.user⟩ (by rw [hn]; exact fun h => by cases h) hw hcw (.inr hprio)
    ⟨hk.pointers, hk.final, hk.idle, hk.acts⟩

end calls

/-! ## Before the first interrupt -/

/-- The kernel waits in `kernel_start`: every process is activatable, none runs. -/
structure Booting (s : Kernel) : Prop where
  inv : Inv ∅ s
  running : s.currentRunningProcessPid = -1
  user : s.startedUserProcess = false
  processes : ∀ p r, s.heap p = some r → r.started = true ∧ r.state = .activatable

/-- What a step of the machine leaves behind. -/
structure After (K : Kind) (s₀ t : Kernel) : Prop where
  chain : Chain K s₀ ∅ t
  ready : Booting t ∨ ∃ c r, Running t c r
  calm : Chain K.quiet s₀ ∅ t ∨ ∃ H u, Chain K s₀ H u ∧ (ActOrder u → Calm t)

section booting

variable {K : Kind} {s s₀ : Kernel} {k : Context}

theorem Done.after {t : Kernel} (h : Done K s₀ t) : After K s₀ t := ⟨h.chain, .inr h.running, h.calm⟩

/-- Before the first interrupt only the activatable queue is in use. -/
theorem Booting.queue_nil (h : Booting s) {d : QueueHead} (hd : d ≠ .activatable) : s.queue d = [] := by
  refine List.eq_nil_iff_forall_not_mem.2 fun p hp => ?_
  obtain ⟨r, hr, hn, _⟩ := h.inv.live_of_mem hp
  obtain ⟨hst, hs⟩ := h.processes p r hr
  have hf := h.inv.fits p r hr (by simp)
  simp only [Process.Fits, hst, hs] at hf
  rw [hf] at hn
  cases hn
  exact hd rfl

theorem Booting.table_none (h : Booting s) : s.pidProcessHashTable s.currentRunningProcessPid = none := by
  cases ht : s.pidProcessHashTable s.currentRunningProcessPid with
  | none => rfl
  | some p =>
    obtain ⟨r, hr, hpid⟩ := h.inv.table _ p ht
    have := (h.inv.pool.used p r hr).1
    rw [hpid, h.running] at this
    omega

theorem Booting.keyboard (h : Booting s) (hl : K.resched) (key : UInt8) :
    wp (handleKeyboardInterrupt key k) (fun _ t => After K s t) K.Allows s := by
  rw [handleKeyboardInterrupt, wp_bind, wp_get]
  simp only [wp_bind]
  refine wp_ofConsole trivial fun con _ => ?_
  rw [wp_modify]
  have ch : Chain K.quiet s ∅ { s with console := con } :=
    (Chain.refl h.inv).step (.other (by constructor <;> rfl))
  refine wp_queueOut ch.inv.toCore (fun _ => ?_) ?_
  · simp only [saveContext, wp_bind, wp_getCurrentProcess, h.table_none, wp_pure]
    exact ⟨ch.mono (Kind.quiet_le hl), .inl ⟨ch.inv, h.running, h.user, h.processes⟩, .inl ch⟩
  · intro l p x hlist
    rw [show ({ s with console := con } : Kernel).queue .blockedIo = [] from h.queue_nil (by decide)] at hlist
    simp at hlist

/-- The first timer interrupt switches to the first process. -/
theorem Booting.stimer (h : Booting s) (hl : K.resched) :
    wp (handleStimerInterrupt k) (fun _ t => After K s t) K.Allows s := by
  have ch : Chain K s ∅ s.tick := Chain.tick (.refl h.inv)
  have hsleep : s.tick.queue .asleep = [] := h.queue_nil (by decide)
  have hdead : s.tick.queue .dead = [] := h.queue_nil (by decide)
  rw [handleStimerInterrupt, wp_bind, wp_modify]
  change wp (schedule k) _ _ s.tick
  have htab : s.tick.pidProcessHashTable s.tick.currentRunningProcessPid = none := h.table_none
  simp only [schedule, saveContext, wp_bind, wp_getCurrentProcess, htab, wp_pure, scheduler]
  refine wp_mono (wp_awakeSleepingProcess (E := K.Allows) (P := fun u => u = s.tick)
    (by rintro _ rfl; exact ch.inv) trivial ?_ rfl) ?_ (fun _ _ h => h)
  · rintro _ l p r rfl hq
    simp [hsleep] at hq
  rintro _ _ - ⟨rfl, -⟩
  refine wp_mono (wp_freeDeadProcess (E := K.Allows) (P := fun u => u = s.tick)
    (by rintro _ rfl; exact ch.inv) ?_ rfl) ?_ (fun _ _ h => h)
  · rintro _ l p r rfl hq
    simp [hdead] at hq
  rintro _ _ - rfl
  simp only [scheduleNext, wp_bind, wp_getpid, if_pos (show s.tick.currentRunningProcessPid = -1 from h.running),
    wp_queueTop]
  -- the idle process at least is there
  obtain ⟨l, p, hq⟩ : ∃ l p, s.tick.queue .activatable = l ++ [p] := by
    obtain ⟨i, x, -, hx, hst, -⟩ := h.inv.idle
    have hf := h.inv.fits i x hx (by simp)
    simp only [Process.Fits, hst, (h.processes i x hx).2] at hf
    have hmem : i ∈ s.tick.queue .activatable := (h.inv.mem _ i).2 ⟨x, hx, hf⟩
    exact ⟨_, _, (List.dropLast_append_getLast (List.ne_nil_of_mem hmem)).symm⟩
  obtain ⟨x, hp, hn, hd, hst⟩ := ch.inv.top hq
  rw [hq, List.getLast?_concat]
  refine wp_dispatch ch.inv hq hp ?_
  have ch1 := ch.runTop hl hp hn (fun q y hy _ _ hpid => by
    have := (h.inv.pool.used q y hy).1
    rw [hpid, show s.tick.currentRunningProcessPid = -1 from h.running] at this
    omega)
  have hrec : ((s.tick.unlink p .activatable).setRunning x.pid).heap p = some { x with nextPrev := none } := by
    simp [hp]
  rw [wp_bind, wp_modifyProc hrec, wp_modify]
  have ch2 := (ch1.setActif (by simp) hrec hd rfl).step (.other (t := { ((s.tick.unlink p .activatable).setRunning
    x.pid).mapProc p (fun r => { r with state := .actif }) with startedUserProcess := true })
    (by constructor <;> rfl))
  have hpid : s.tick.pidProcessHashTable x.pid = some p := ch.inv.pidOf p x hp
  refine ⟨ch2, .inr ⟨p, { x with nextPrev := none, state := .actif }, hpid, ?_, hst, rfl, rfl⟩,
    .inr ⟨∅, s.tick, ch, ?_⟩⟩
  · simp [hp]
  · refine Calm.of_last (p := p) (.mapProc (.setRunning (.unlink (.refl _))) fun _ => rfl) hq hp hpid ?_
    intro q hqm
    simp only [mapProc_queue, setRunning_queue, unlink_queue, Function.update_self] at hqm
    exact .inl (List.mem_of_mem_erase hqm)

end booting

end Xinul
