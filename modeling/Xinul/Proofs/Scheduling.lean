import Xinul.Proofs.Exec

/-!
# `scheduler`

From any state of a chain `scheduler` leaves a process running, and if the
activatable queue was in order, one that no activatable process outranks. It never
returns to a caller that is not `actif`: the idle process is always there to be
switched to.
-/

namespace Xinul

open Prog Waiting

/-- The tick after which `awake_sleeping_process` wakes the process. -/
def Process.deadline (r : Process) : Int := Int.bmod (-r.wakeTime) (2 ^ 64)

/-- `awake_sleeping_process` wakes the process at the tick `now`. -/
def Process.Overdue (r : Process) (now : Nat) : Prop := 0 < r.deadline ∧ r.deadline < now

/-- The state after the sleeper `p`, whose record is `r`, was made activatable. -/
def Kernel.awaken (s : Kernel) (p : Ptr) (r : Process) : Kernel :=
  (s.unlink p .asleep).link p .activatable
    ((s.unlink p .asleep).inserted p { r with nextPrev := none } .activatable)

/-- Every sleeper whose time is up may be made activatable under its old state. -/
def Kind.Wakes (K : Kind) (s : Kernel) : Prop :=
  ∀ p r, s.heap p = some r → r.nextPrev = some .asleep → r.Overdue s.counter → K.stale p

section loops

variable {P : Kernel → Prop} {s : Kernel} {E : Fault → Prop}

theorem wp_getNextWakeTime {Q : Nat → Kernel → Prop} {H : Set Ptr} (h : Core H s)
    (hE : E .wakeTimeAssert) (hnone : s.queue .asleep = [] → Q 0 s)
    (hsome : ∀ l p r, s.queue .asleep = l ++ [p] → s.heap p = some r → r.nextPrev = some .asleep →
      0 ≤ r.deadline → Q r.deadline.toNat s) :
    wp getNextWakeTime Q E s := by
  rw [getNextWakeTime, wp_bind, wp_queueTop]
  cases hl : (s.queue .asleep).getLast? with
  | none => exact hnone (List.getLast?_eq_none_iff.1 hl)
  | some p =>
    obtain ⟨l, hql⟩ := List.getLast?_eq_some_iff.1 hl
    obtain ⟨r, hr, hn, _⟩ := h.live_of_mem (p := p) (d := .asleep) (by simp [hql])
    simp only [wp_bind, wp_deref hr]
    by_cases hd : r.deadline < 0
    · have hd' := hd
      unfold Process.deadline at hd'
      simp only [if_pos hd', wp_bind, wp_throw]
      exact hE
    · have := hsome l p r hql hr hn (by omega)
      unfold Process.deadline at hd this
      simp only [if_neg hd, wp_pure]
      exact this

/-- The first sleeper, if there is one, has time left. -/
def Kernel.Rested (s : Kernel) : Prop :=
  ∀ l p r, s.queue .asleep = l ++ [p] → s.heap p = some r → ¬ r.Overdue s.counter

/-- The loop rule of `awake_sleeping_process`. -/
theorem wp_awakeSleepingProcess (hinv : ∀ u, P u → Inv ∅ u) (hE : E .wakeTimeAssert)
    (turn : ∀ u l p r, P u → u.queue .asleep = l ++ [p] → u.heap p = some r →
      r.nextPrev = some .asleep → r.Overdue u.counter → P (u.awaken p r)) (h : P s) :
    wp awakeSleepingProcess (fun _ t => P t ∧ t.Rested) E s := by
  have loop : ∀ n u, P u → (u.queue .asleep).length < n →
      wp (awakeSleepingLoop n) (fun _ t => P t ∧ t.Rested) E u := by
    intro n
    induction n with
    | zero => exact fun u _ hn => absurd hn (Nat.not_lt_zero _)
    | succ n ih =>
      intro u hu hn
      rw [awakeSleepingLoop, wp_bind]
      refine wp_getNextWakeTime (hinv u hu).toCore hE (fun hnil => ?_) (fun l p r hq hp hl hd => ?_)
      · refine ⟨hu, fun l p r hq => ?_⟩
        simp [hnil] at hq
      · rw [wp_bind, wp_get]
        by_cases hw : r.deadline.toNat ≠ 0 ∧ u.counter > r.deadline.toNat
        · rw [if_pos hw, wp_bind]
          have hover : r.Overdue u.counter := ⟨by omega, by omega⟩
          refine wp_queueOut (hinv u hu).toCore (fun hc => by simp [hc] at hq) ?_
          intro l' p' r' hq' hp' hl' hH'
          obtain ⟨rfl, rfl⟩ : l' = l ∧ p' = p := by simpa using hq'.symm.trans hq
          rw [hp] at hp'
          cases hp'
          have hrec : (u.unlink p' .asleep).heap p' = some { r with nextPrev := none } := by
            simp [hp]
          rw [wp_bind]
          refine wp_queueAdd ((hinv u hu).unlink hp hl).toCore hrec rfl rfl ?_
          refine ih _ (turn u l' p' r hu hq hp hl hover) ?_
          simp only [link_queue, unlink_queue]
          rw [Function.update_of_ne (by decide), Function.update_self,
            List.length_erase_of_mem (by simp [hq])]
          rw [hq] at hn ⊢
          simp only [List.length_append, List.length_cons, List.length_nil] at hn ⊢
          omega
        · rw [if_neg hw]
          refine ⟨hu, fun l' p' r' hq' hp' ho => hw ?_⟩
          obtain ⟨_, rfl⟩ : l' = l ∧ p' = p := by simpa using hq'.symm.trans hq
          rw [hp] at hp'
          cases hp'
          have h1 : 0 < r.deadline := ho.1
          have h2 : r.deadline < u.counter := ho.2
          exact ⟨by omega, by omega⟩
  rw [awakeSleepingProcess, wp_bind, wp_get]
  exact loop _ s h (Nat.lt_succ_self _)

/-- The loop rule of `free_dead_process`. -/
theorem wp_freeDeadProcess (hinv : ∀ u, P u → Inv ∅ u)
    (turn : ∀ u l p r, P u → u.queue .dead = l ++ [p] → u.heap p = some r →
      r.nextPrev = some .dead → P ((u.unlink p .dead).freeRecord p r.pid)) (h : P s) :
    wp freeDeadProcess (fun _ t => P t) E s := by
  have loop : ∀ n u, P u → (u.queue .dead).length < n →
      wp (freeDeadLoop n) (fun _ t => P t) E u := by
    intro n
    induction n with
    | zero => exact fun u _ hn => absurd hn (Nat.not_lt_zero _)
    | succ n ih =>
      intro u hu hn
      rw [freeDeadLoop, wp_bind]
      refine wp_queueOut (hinv u hu).toCore (fun _ => by simpa using hu) (fun l p r hq hp hl _ => ?_)
      have hrec : (u.unlink p .dead).heap p = some { r with nextPrev := none } := by simp [hp]
      simp only [freeProcessMemory, wp_bind, wp_deref hrec, wp_modify, wp_pure]
      refine ih _ (turn u l p r hu hq hp hl) ?_
      simp only [Kernel.freeRecord, unlink_queue, Function.update_self]
      rw [List.length_erase_of_mem (by simp [hq])]
      rw [hq] at hn ⊢
      simp only [List.length_append, List.length_cons, List.length_nil] at hn ⊢
      omega
  rw [freeDeadProcess, wp_bind, wp_get]
  exact loop _ s h (Nat.lt_succ_self _)

end loops

/-! ## Actions of the scheduler -/

section actions

variable {K : Kind} {H : Set Ptr} {s s₀ t : Kernel} {c p q : Ptr} {r x : Process} {E : Fault → Prop}

/-- A process in the activatable queue has not ended. -/
theorem Process.Fits.undead {running : Int} (h : x.Fits running)
    (hl : x.nextPrev = some .activatable) : x.state.dead = false := by
  cases hb : x.started <;> cases hs : x.state <;> simp_all [Process.Fits, ProcessState.dead]

/-- What is chained in the asleep queue sleeps. -/
theorem Process.Fits.asleep {running : Int} (h : x.Fits running) (hl : x.nextPrev = some .asleep) :
    x.started = true ∧ x.state = .asleep := by
  cases hb : x.started <;> cases hs : x.state <;> simp_all [Process.Fits, QueueHead.queue?]

/-- What is chained in the dead queue was killed. -/
theorem Process.Fits.killed {running : Int} (h : x.Fits running) (hl : x.nextPrev = some .dead) :
    x.started = true ∧ x.state = .killed := by
  cases hb : x.started <;> cases hs : x.state <;> simp_all [Process.Fits, QueueHead.queue?]

/-- The state of a process in hand that has not ended becomes `v`. -/
theorem Act.setState {v : ProcessState} (h : Inv H s) (hH : p ∈ H) (hp : s.heap p = some x)
    (hd : x.state.dead = false) (hv : v.dead = false)
    (hi : s.pidProcessHashTable idleId = some p → v = .actif ∨ v = .activatable)
    (ha : v.ready = true ∨ K.acts p) (hio : v ≠ .blockedIo) : Act K H s H (s.mapProc p fun r => { r with state := v }) := by
  refine .set hH hp rfl rfl rfl rfl ?_ (.inr ⟨rfl, rfl, rfl, rfl, ?_, .inl rfl⟩) (.inr ?_) ?_ ?_
    ⟨ha.elim (fun h => .inr (.inl ⟨rfl, .inr h⟩)) .inl, fun h => absurd h hio⟩
  · intro hc
    rw [hd] at hc
    cases hc
  · exact hv.trans hd.symm
  · rintro rfl
    cases hv
  · intro hc
    rw [show _ = _ from h.context_of_undead hp (h.unlinked hp hH).2 hd] at hc
    cases hc
  · exact fun hid => ⟨hi hid, (h.idle_at hp hid).2.2⟩

/-- A process leaves the activatable queue and becomes the running one. -/
theorem Chain.runTop (ch : Chain K s₀ H s) (hl : K.resched) (hp : s.heap p = some x)
    (hlk : x.nextPrev = some .activatable)
    (old : ∀ q y, s.heap q = some y → q ≠ p → q ∉ H → y.pid = s.currentRunningProcessPid →
      y.Fits x.pid) :
    Chain K s₀ (insert p H) ((s.unlink p .activatable).setRunning x.pid) := by
  refine (ch.step (.unlink hp hlk)).step
    (.run (p := p) (r := { x with nextPrev := none }) hl (by simp) (by simp [hp]) ?_)
  intro q y hy hq hpid
  have hqp : q ≠ p := fun hc => hq (by simp [hc])
  refine old q y ?_ hqp (fun hc => hq (by simp [hc])) hpid
  simpa [hqp] using hy

/-- The process switched to becomes `actif`. -/
theorem Chain.setActif (ch : Chain K s₀ (insert p H) s) (hH : p ∉ H) (hp : s.heap p = some x)
    (hd : x.state.dead = false) (hrun : x.pid = s.currentRunningProcessPid) :
    Chain K s₀ H (s.mapProc p fun r => { r with state := .actif }) := by
  obtain ⟨hn, hst⟩ := ch.inv.unlinked hp (by simp)
  refine (ch.step (Act.setState ch.inv (by simp) hp hd rfl (fun _ => .inl rfl) (.inl rfl) fun h => by cases h)).step
    (.release (r := { x with state := .actif }) hH (by simp [hp]) ?_ (by simp) (by simp))
  simp [Process.Fits, hst, hn, hrun]

/-- Priorities are as they were. -/
def SamePrio (s t : Kernel) : Prop :=
  ∀ p r, t.heap p = some r → ∃ r', s.heap p = some r' ∧ r'.prio = r.prio

theorem SamePrio.refl (s : Kernel) : SamePrio s s := fun _ r h => ⟨r, h, rfl⟩

theorem SamePrio.mapProc {f : Process → Process} (h : SamePrio s t) (hf : ∀ r, (f r).prio = r.prio) :
    SamePrio s (t.mapProc p f) := by
  intro q r hr
  rw [mapProc_heap] at hr
  by_cases hq : q = p
  · subst hq
    rw [Function.update_self, Option.map_eq_some_iff] at hr
    obtain ⟨y, hy, rfl⟩ := hr
    obtain ⟨r', hr', hpr⟩ := h q y hy
    exact ⟨r', hr', hpr.trans (hf y).symm⟩
  · rw [Function.update_of_ne hq] at hr
    exact h q r hr

theorem SamePrio.link {hd : QueueHead} {l : List Ptr} (h : SamePrio s t) : SamePrio s (t.link p hd l) :=
  h.mapProc (p := p) (f := fun r => { r with nextPrev := some hd, stamp := t.insertions }) fun _ => rfl

theorem SamePrio.unlink {hd : QueueHead} (h : SamePrio s t) : SamePrio s (t.unlink p hd) :=
  h.mapProc (p := p) (f := fun r => { r with nextPrev := none }) fun _ => rfl

theorem SamePrio.setRunning {k : Int} (h : SamePrio s t) : SamePrio s (t.setRunning k) := h

/-- The process at the end of an activatable queue that is in order has the
greatest priority. -/
theorem ActOrder.le_last {l : List Ptr} (h : ActOrder s) (hq : s.queue .activatable = l ++ [p])
    (hp : s.heap p = some x) {r : Process} (hm : q ∈ s.queue .activatable) (hr : s.heap q = some r) :
    r.prio ≤ x.prio := by
  unfold ActOrder at h
  rw [hq] at h hm
  rcases List.mem_append.1 hm with hm | hm
  · have := (List.pairwise_append.1 h).2.2 q hm p (by simp)
    simpa [Kernel.value, hp, hr, Process.prioField] using this
  · obtain rfl : q = p := by simpa using hm
    rw [hp] at hr
    cases hr
    exact le_rfl

/-- The process of greatest priority runs, and only it and the process that ran
before changed places. -/
theorem Calm.of_last {l : List Ptr} (same : SamePrio s t) (hq : s.queue .activatable = l ++ [p])
    (hp : s.heap p = some x) (htop : t.pidProcessHashTable t.currentRunningProcessPid = some p)
    (hmem : ∀ q ∈ t.queue .activatable, q ∈ s.queue .activatable ∨
      ∃ r, s.heap q = some r ∧ r.prio ≤ x.prio) (ho : ActOrder s) : Calm t := by
  intro c rc hc hrc q hqm r hr
  rw [htop] at hc
  cases hc
  obtain ⟨x', hx', hpx⟩ := same p rc hrc
  rw [hp] at hx'
  cases hx'
  obtain ⟨r', hr', hpr⟩ := same q r hr
  rw [← hpx, ← hpr]
  rcases hmem q hqm with hq' | ⟨y, hy, hle⟩
  · exact ho.le_last hq hp hq' hr'
  · rw [hy] at hr'
    cases hr'
    exact hle

end actions

/-! ## The switch -/

section switch

variable {K : Kind} {H : Set Ptr} {s s₀ t : Kernel} {c p q : Ptr} {r x : Process} {l : List Ptr}

theorem wp_dispatch {E : Fault → Prop} {Q : Unit → Kernel → Prop} {k : KernelM Unit} (h : Inv H s)
    (hq : s.queue .activatable = l ++ [p]) (hp : s.heap p = some x)
    (hk : wp k Q E ((s.unlink p .activatable).setRunning x.pid)) : wp (dispatch p k) Q E s := by
  rw [dispatch, wp_bind]
  refine wp_queueOut h.toCore (fun hc => by simp [hc] at hq) ?_
  intro l' p' r' hq' _ _ _
  obtain ⟨rfl, rfl⟩ : l' = l ∧ p' = p := by simpa using hq'.symm.trans hq
  have hrec : (s.unlink p' .activatable).heap p' = some { x with nextPrev := none } := by simp [hp]
  have htab : (s.unlink p' .activatable).pidProcessHashTable x.pid = some p' := h.pidOf p' x hp
  have hpos : ¬ x.pid < 0 := by
    have := (h.pool.used p' x hp).1
    omega
  simp only [wp_bind, wp_deref hrec, setpid, wp_getProcessStructOfPid, htab, wp_modify, wp_pure,
    if_neg hpos]
  exact hk

/-- The process at the end of the activatable queue. -/
theorem Inv.top (h : Inv H s) (hq : s.queue .activatable = l ++ [p]) :
    ∃ x, s.heap p = some x ∧ x.nextPrev = some .activatable ∧ x.state.dead = false ∧
      x.started = true := by
  obtain ⟨x, hx, hn, hH⟩ := h.live_of_mem (p := p) (d := .activatable) (by simp [hq])
  have hf := h.fits p x hx hH
  exact ⟨x, hx, hn, hf.undead hn, (hf.linked hn).1⟩

/-- The idle process is there to be switched to. -/
theorem Caller.queue_ne_nil (h : Caller s c r) (hi : Inv ∅ s) (hs : r.state ≠ .actif) :
    s.queue .activatable ≠ [] := by
  obtain ⟨i, x, hid, hx, hst, hact, _⟩ := hi.idle
  have hf := hi.fits i x hx (by simp)
  rcases hact with hact | hact
  · -- an `actif` idle process would be the caller
    simp only [Process.Fits, hst, hact] at hf
    have hci : c = i := hi.pid_inj h.heap hx ((h.pid hi.toCore).trans hf.2.symm)
    subst hci
    rw [h.heap] at hx
    cases hx
    exact absurd hact hs
  · simp only [Process.Fits, hst, hact] at hf
    have : i ∈ s.queue .activatable := (hi.mem _ i).2 ⟨x, hx, hf⟩
    exact List.ne_nil_of_mem this

/-- An `actif` caller goes back to the activatable queue. -/
theorem Chain.preempt (ch : Chain K s₀ ∅ s) (hl : K.resched) (hc : Running s c r)
    (hq : s.queue .activatable = l ++ [p]) (hp : s.heap p = some x) (hle : r.prio ≤ x.prio) :
    wp (do
        modifyProc c fun r => { r with state := .activatable }
        modifyProc p fun r => { r with state := .actif }
        queueAdd c .activatable Process.prioField)
      (fun _ t => Done K s₀ t ∧ t.currentRunningProcessPid = x.pid) K.Allows
      ((s.unlink p .activatable).setRunning x.pid) := by
  obtain ⟨x', hx', hn, hd, hst⟩ := ch.inv.top hq
  rw [hp] at hx'
  cases hx'
  have hcn := hc.unlinked ch.inv.toCore (by simp)
  have hpid := hc.caller.pid ch.inv.toCore
  have hpc : p ≠ c := by
    rintro rfl
    rw [hc.heap] at hp
    cases hp
    rw [hcn] at hn
    cases hn
  -- the caller is held while the other process becomes the running one
  have ch1 := ch.step (.hold hc.heap hc.started hcn (by simp [hc.state]))
  have ch2 := ch1.runTop hl hp hn (fun q y hy _ hqH hqpid =>
    absurd (ch.inv.pid_inj hy hc.heap (hqpid.trans hpid.symm)) (by simpa using hqH))
  have hrec2 : ((s.unlink p .activatable).setRunning x.pid).heap c = some r := by
    simp [hpc.symm, hc.heap]
  rw [wp_bind, wp_modifyProc hrec2]
  have ch3 := ch2.step (Act.setState (v := .activatable) ch2.inv (by simp) hrec2
    (by simp [hc.state, ProcessState.dead]) rfl (fun _ => .inr rfl) (.inl rfl) fun h => by cases h)
  have hrec3 : (((s.unlink p .activatable).setRunning x.pid).mapProc c
      fun r => { r with state := .activatable }).heap p = some { x with nextPrev := none } := by
    simp [hpc, hp]
  rw [wp_bind, wp_modifyProc hrec3]
  have ch4 := ch3.setActif (by simp [hpc]) hrec3 hd rfl
  have hrec4 : ((((s.unlink p .activatable).setRunning x.pid).mapProc c
      fun r => { r with state := .activatable }).mapProc p fun r => { r with state := .actif }).heap c
      = some { r with state := .activatable } := by
    simp [hpc.symm, hc.heap]
  refine wp_queueAdd ch4.inv.toCore hrec4 hcn rfl ⟨⟨ch4.step (.link (by simp) hrec4 ?_ ?_ ?_ ?_),
    ⟨p, { x with nextPrev := none, state := .actif }, ?_, ?_, hst, rfl, hc.user⟩, .inr ⟨∅, s, ch, ?_⟩⟩, rfl⟩
  · simp [Process.Fits, hc.started]
  · exact fun q hq => by cases hq
  · exact fun _ => .inl rfl
  · exact fun _ => .inl hl
  · exact ch.inv.pidOf p x hp
  · simp [hpc, hp]
  · refine Calm.of_last (p := p) ?_ hq hp (ch.inv.pidOf p x hp) ?_
    · exact .link (.mapProc (.mapProc (.setRunning (.unlink (.refl s))) fun _ => rfl) fun _ => rfl)
    · intro q hqm
      rw [link_queue, Function.update_self, (Kernel.inserted_perm _).mem_iff] at hqm
      rcases List.mem_cons.1 hqm with rfl | hqm
      · exact .inr ⟨r, hc.heap, hle⟩
      · simp only [mapProc_queue, setRunning_queue, unlink_queue, Function.update_self] at hqm
        exact .inl (List.mem_of_mem_erase hqm)

/-- A caller that is not `actif` leaves the processor to the process at the end of
the activatable queue. -/
theorem Chain.switchAway (ch : Chain K s₀ ∅ s) (hl : K.resched) (hc : Caller s c r)
    (hq : s.queue .activatable = l ++ [p]) (hp : s.heap p = some x)
    (hcur : c ≠ p → r.Fits x.pid) :
    wp (modifyProc p fun r => { r with state := .actif })
      (fun _ t => Done K s₀ t ∧ t.currentRunningProcessPid = x.pid) K.Allows
      ((s.unlink p .activatable).setRunning x.pid) := by
  obtain ⟨x', hx', hn, hd, hst⟩ := ch.inv.top hq
  rw [hp] at hx'
  cases hx'
  have hrun := ch.runTop hl hp hn (fun q y hy hqp _ hpid => by
    have hqc : q = c := ch.inv.pid_inj hy hc.heap (hpid.trans (hc.pid ch.inv.toCore).symm)
    subst hqc
    rw [hc.heap] at hy
    cases hy
    exact hcur hqp)
  have hrec : ((s.unlink p .activatable).setRunning x.pid).heap p = some { x with nextPrev := none } := by
    simp [hp]
  rw [wp_modifyProc hrec]
  refine ⟨⟨hrun.setActif (by simp) hrec hd rfl,
    ⟨p, { x with nextPrev := none, state := .actif }, ch.inv.pidOf p x hp, by simp [hp], hst, rfl, hc.user⟩,
    .inr ⟨∅, s, ch, ?_⟩⟩, rfl⟩
  refine Calm.of_last (p := p) (.mapProc (.setRunning (.unlink (.refl s))) fun _ => rfl) hq hp
    (ch.inv.pidOf p x hp) ?_
  intro q hqm
  simp only [mapProc_queue, setRunning_queue, unlink_queue, Function.update_self] at hqm
  exact .inl (List.mem_of_mem_erase hqm)

/-- `scheduler`, once sleepers were woken and the dead freed. -/
theorem scheduleNext_done (ch : Chain K s₀ ∅ s) (hl : K.resched) (hc : Caller s c r)
    (hund : r.nextPrev ≠ some .dead) :
    wp scheduleNext (fun _ t => Done K s₀ t ∧
      ∀ l p x, s.queue .activatable = l ++ [p] → s.heap p = some x →
        r.state ≠ .actif ∨ r.prio ≤ x.prio → t.currentRunningProcessPid = x.pid) K.Allows s := by
  have hi := ch.inv
  simp only [scheduleNext, wp_bind, wp_getpid, if_neg (hc.pid_ne hi.toCore), wp_get, hc.user,
    wp_getCurrentProcess, hc.table, wp_queueTop, Bool.true_eq_false, if_false]
  cases hlast : (s.queue .activatable).getLast? with
  | none =>
    have hnil := List.getLast?_eq_none_iff.1 hlast
    have hact : r.state = .actif := by
      by_contra hs
      exact hc.queue_ne_nil hi hs hnil
    refine ⟨⟨ch, ⟨c, r, hc.table, hc.heap, hc.started, hact, hc.user⟩, .inr ⟨∅, s, ch, ?_⟩⟩, ?_⟩
    · intro _ d rd _ _ q hq
      rw [hnil] at hq
      cases hq
    · intro l p x hq
      rw [hnil] at hq
      simp at hq
  | some p =>
    obtain ⟨l, hq⟩ := List.getLast?_eq_some_iff.1 hlast
    obtain ⟨x, hp, _, _, _⟩ := hi.top hq
    have fin : ∀ t : Kernel, Done K s₀ t ∧ t.currentRunningProcessPid = x.pid → Done K s₀ t ∧
        ∀ l p x, s.queue .activatable = l ++ [p] → s.heap p = some x →
          r.state ≠ .actif ∨ r.prio ≤ x.prio → t.currentRunningProcessPid = x.pid := by
      rintro t ⟨hd, ht⟩
      refine ⟨hd, fun l' p' x' hq' hp' _ => ?_⟩
      obtain ⟨_, rfl⟩ : l' = l ∧ p' = p := by simpa using hq'.symm.trans hq
      rw [hp] at hp'
      cases hp'
      exact ht
    simp only [wp_bind, wp_deref hc.heap]
    by_cases hact : r.state = .actif
    · have hrun : Running s c r := ⟨hc.table, hc.heap, hc.started, hact, hc.user⟩
      rw [if_pos hact, wp_bind, wp_deref hp]
      by_cases hle : x.prio ≥ r.prio
      · rw [if_pos hle]
        refine wp_dispatch hi hq hp ?_
        exact wp_mono (ch.preempt hl hrun hq hp hle) (fun _ t _ ht => fin t ht) (fun _ _ he => he)
      · rw [if_neg hle]
        refine ⟨⟨ch, ⟨c, r, hrun⟩, .inr ⟨∅, s, ch, ?_⟩⟩, ?_⟩
        · intro ho d rd hd' hrd q hqm y hy
          rw [hc.table] at hd'
          cases hd'
          rw [hc.heap] at hrd
          cases hrd
          have := ho.le_last hq hp hqm hy
          omega
        · rintro l' p' x' hq' hp' (hc' | hc')
          · exact absurd hact hc'
          · obtain ⟨_, rfl⟩ : l' = l ∧ p' = p := by simpa using hq'.symm.trans hq
            rw [hp] at hp'
            cases hp'
            exact absurd hc' hle
    · rw [if_neg hact]
      have hfc := hi.fits c r hc.heap (by simp)
      by_cases hk : r.state = .killed
      · rw [if_pos hk]
        simp only [Process.Fits, hc.started, hk] at hfc
        obtain hfc | ⟨hcn, _⟩ := hfc
        · exact absurd hfc hund
        -- the caller waits in the dead queue to be freed
        have ch1 := ch.step (.hold hc.heap hc.started hcn (by simp [hk]))
        have ch2 := ch1.step (.link (d := .dead) (by simp) hc.heap
          (by simp [Process.Fits, hc.started, hk]) (fun q hq => by cases hq) (fun hc => by cases hc)
          (fun hc => by cases hc))
        have hpc : p ≠ c := by
          rintro rfl
          exact hi.not_mem_of_unlinked hc.heap hcn .activatable (by simp [hq])
        rw [wp_bind]
        refine wp_queueAdd ch1.inv.toCore hc.heap hcn rfl ?_
        have hq2 : (s.link c .dead (s.inserted c r .dead)).queue .activatable = l ++ [p] := by simp [hq]
        have hp2 : (s.link c .dead (s.inserted c r .dead)).heap p = some x := by simp [hpc, hp]
        have hc2 : Caller (s.link c .dead (s.inserted c r .dead)) c
            { r with nextPrev := some .dead, stamp := s.insertions } :=
          ⟨hc.table, by simp [hc.heap], hc.started, hc.user⟩
        refine wp_dispatch ch2.inv hq2 hp2 ?_
        refine wp_mono (ch2.switchAway hl hc2 hq2 hp2 (fun _ => ?_)) (fun _ t _ ht => fin t ht)
          (fun _ _ he => he)
        simp [Process.Fits, hc.started, hk]
      · rw [if_neg hk]
        refine wp_dispatch hi hq hp ?_
        refine wp_mono (ch.switchAway hl hc hq hp (fun _ => ?_)) (fun _ t _ ht => fin t ht) (fun _ _ he => he)
        revert hfc hact hk
        cases hs : r.state <;> simp [Process.Fits, hc.started, hs]

end switch

/-! ## `scheduler` -/

section scheduler

variable {K : Kind} {H : Set Ptr} {s s₀ t u : Kernel} {c p q : Ptr} {r x : Process} {k : Context}

theorem awaken_heap_of_ne (hq : q ≠ p) : (s.awaken p x).heap q = s.heap q := by
  simp [Kernel.awaken, hq]

theorem awaken_heap_self (hp : s.heap p = some x) :
    (s.awaken p x).heap p = some { x with nextPrev := some .activatable, stamp := s.insertions } := by
  simp [Kernel.awaken, hp, Kernel.unlink, Kernel.mapProc]

theorem Chain.awaken (ch : Chain K s₀ ∅ s) (hl : K.resched) (hp : s.heap p = some x)
    (hn : x.nextPrev = some .asleep) (hs : K.stale p) : Chain K s₀ ∅ (s.awaken p x) := by
  obtain ⟨hst, hstate⟩ := (ch.inv.fits p x hp (by simp)).asleep hn
  refine (ch.step (.unlink hp hn)).step (.link (r := { x with nextPrev := none }) (by simp) (by simp [hp])
    ?_ (fun q hq => by cases hq) (fun _ => .inr hs) (fun _ => .inl hl))
  simp [Process.Fits, hst, hstate]

theorem Chain.freeDead (ch : Chain K s₀ ∅ s) (hp : s.heap p = some x)
    (hn : x.nextPrev = some .dead) (hne : x.pid ≠ s.currentRunningProcessPid) :
    Chain K s₀ ∅ ((s.unlink p .dead).freeRecord p x.pid) := by
  obtain ⟨hst, hstate⟩ := (ch.inv.fits p x hp (by simp)).killed hn
  have := (ch.step (.unlink hp hn)).step (.free (p := p) (r := { x with nextPrev := none }) (by simp [hp]) rfl
    (by simp [hstate, ProcessState.dead]) (.inl ⟨hst, hstate⟩) hne)
  rwa [show (insert p ∅ : Set Ptr) \ {p} = ∅ by ext; simp] at this

/-- The process at `c` is still the caller, with the same state and priority. -/
structure StillCaller (s : Kernel) (c : Ptr) (r : Process) (u : Kernel) : Prop where
  caller : ∃ r', Caller u c r' ∧ r'.nextPrev ≠ some .dead ∧ r'.state = r.state ∧ r'.prio = r.prio
  running : u.currentRunningProcessPid = s.currentRunningProcessPid

theorem awake_still (ch : Chain K s₀ ∅ s) (hl : K.resched) (hc : Caller s c r)
    (hund : r.nextPrev ≠ some .dead) (hw : K.Wakes s) :
    wp awakeSleepingProcess (fun _ u => Chain K s₀ ∅ u ∧ StillCaller s c r u) K.Allows s := by
  refine wp_mono (wp_awakeSleepingProcess
    (P := fun u => (Chain K s₀ ∅ u ∧ StillCaller s c r u) ∧ K.Wakes u)
    (fun u hu => hu.1.1.inv) trivial ?_ ⟨⟨ch, ⟨r, hc, hund, rfl, rfl⟩, rfl⟩, hw⟩)
    (fun _ _ _ h => h.1.1) (fun _ _ h => h)
  rintro u l p x ⟨⟨hch, ⟨r', hc', hund', hst', hpr'⟩, hrun'⟩, hw'⟩ hq hp hn hover
  refine ⟨⟨hch.awaken hl hp hn (hw' p x hp hn hover), ?_, hrun'⟩, ?_⟩
  · by_cases hcp : c = p
    · subst hcp
      rw [hc'.heap] at hp
      cases hp
      exact ⟨_, ⟨hc'.table, awaken_heap_self hc'.heap, hc'.started, hc'.user⟩, by simp, hst', hpr'⟩
    · exact ⟨r', ⟨hc'.table, (awaken_heap_of_ne hcp).trans hc'.heap, hc'.started, hc'.user⟩, hund', hst', hpr'⟩
  · intro q y hy hyn hyo
    by_cases hqp : q = p
    · subst hqp
      rw [awaken_heap_self hp] at hy
      cases hy
      cases hyn
    · rw [awaken_heap_of_ne hqp] at hy
      exact hw' q y hy hyn hyo

theorem freeDead_still (ch : Chain K s₀ ∅ s) (hc : Caller s c r) (hund : r.nextPrev ≠ some .dead) :
    wp freeDeadProcess (fun _ u => Chain K s₀ ∅ u ∧ StillCaller s c r u) K.Allows s := by
  refine wp_freeDeadProcess (fun u hu => hu.1.inv) ?_ ⟨ch, ⟨r, hc, hund, rfl, rfl⟩, rfl⟩
  rintro u l p x ⟨hch, ⟨r', hc', hund', hst', hpr'⟩, hrun'⟩ hq hp hn
  have hcp : c ≠ p := by
    rintro rfl
    rw [hc'.heap] at hp
    cases hp
    exact hund' hn
  have hne : x.pid ≠ u.currentRunningProcessPid := by
    rw [← hc'.pid hch.inv.toCore]
    exact fun he => hcp (hch.inv.pid_inj hc'.heap hp he.symm)
  refine ⟨hch.freeDead hp hn hne, ⟨r', ⟨?_, ?_, hc'.started, hc'.user⟩, hund', hst', hpr'⟩, hrun'⟩
  · simpa [Kernel.freeRecord, hne.symm] using hc'.table
  · simpa [Kernel.freeRecord, hcp] using hc'.heap

/-- `scheduler` leaves a process running. -/
theorem scheduler_done (ch : Chain K s₀ ∅ s) (hl : K.resched) (hc : Caller s c r)
    (hund : r.nextPrev ≠ some .dead) (hw : K.Wakes s) :
    wp scheduler (fun _ t => Done K s₀ t) K.Allows s := by
  rw [scheduler, wp_bind]
  refine wp_mono (awake_still ch hl hc hund hw) ?_ (fun _ _ h => h)
  rintro _ u - ⟨hch, ⟨r', hc', hund', _, _⟩, _⟩
  rw [wp_bind]
  refine wp_mono (freeDead_still hch hc' hund') ?_ (fun _ _ h => h)
  rintro _ v - ⟨hch2, ⟨r2, hc2, hund2, _, _⟩, _⟩
  exact wp_mono (scheduleNext_done hch2 hl hc2 hund2) (fun _ _ _ h => h.1) (fun _ _ h => h)

/-- The context `k` may be saved for the process at `c`. -/
structure Saves (K : Kind) (s : Kernel) (c : Ptr) (r : Process) (k : Context) : Prop where
  pointers : K.family ∨ k.pointers = []
  final : k.final = true → r.state.dead = true
  idle : s.pidProcessHashTable idleId = some c → k.interrupted
  acts : K.acts c

theorem Saves.user (a : Option Answer) (h : K.acts c) : Saves K s c r (.user a) :=
  ⟨.inr rfl, (fun h => by cases h), fun _ => trivial, h⟩

theorem Chain.save (ch : Chain K s₀ H s) (hp : s.heap c = some r) (hk : Saves K s c r k) :
    Chain K s₀ H (s.mapProc c fun r => { r with context := k }) := by
  refine ch.step (.write hp ⟨rfl, rfl, rfl, rfl, rfl, rfl⟩ rfl rfl rfl ?_ (fun _ => hk.final) hk.idle (.inr hk.acts))
  exact hk.pointers.imp (fun h => ⟨h, fun _ => rfl⟩) fun h => ⟨rfl, rfl, rfl, rfl, rfl, .inr h⟩

/-- A kernel function ends in a call of `scheduler`. -/
theorem schedule_done (ch : Chain K s₀ ∅ s) (hl : K.resched) (hc : Caller s c r)
    (hund : r.nextPrev ≠ some .dead) (hw : K.Wakes s) (hk : Saves K s c r k) :
    wp (schedule k) (fun _ t => Done K s₀ t) K.Allows s := by
  simp only [schedule, saveContext, wp_bind, wp_getCurrentProcess, hc.table, wp_modifyProc hc.heap]
  have hc' : Caller (s.mapProc c fun r => { r with context := k }) c { r with context := k } :=
    ⟨hc.table, by simp [hc.heap], hc.started, hc.user⟩
  refine scheduler_done (ch.save hc.heap hk) hl hc' hund ?_
  intro p x hp hn ho
  by_cases hpc : p = c
  · subst hpc
    simp [hc.heap] at hp
    subst hp
    exact hw p r hc.heap hn ho
  · exact hw p x (by simpa [hpc] using hp) hn ho

theorem scheduleAnswer_done (ch : Chain K s₀ ∅ s) (hl : K.resched) (hc : Caller s c r)
    (hund : r.nextPrev ≠ some .dead) (hw : K.Wakes s) (ha : K.acts c) (v : Int) (w : List Int) :
    wp (scheduleAnswer v w) (fun _ t => Done K s₀ t) K.Allows s :=
  schedule_done ch hl hc hund hw (.user _ ha)

theorem Running.save (hr : Running s c r) :
    Running (s.mapProc c fun r => { r with context := k }) c { r with context := k } :=
  ⟨hr.table, by simp [hr.heap], hr.started, hr.state, hr.user⟩

/-- A kernel function returns to the running process. -/
theorem answer_done (ch : Chain K.quiet s₀ ∅ s) (hl : K.resched) (hr : Running s c r) (ha : K.acts c) (v : Int)
    (w : List Int) : wp (answer v w) (fun _ t => Done K s₀ t) K.Allows s := by
  simp only [answer, saveContext, wp_bind, wp_getCurrentProcess, hr.table, wp_modifyProc hr.heap]
  have := ch.save hr.heap (Saves.user (some ⟨v, w⟩) ha)
  exact ⟨this.mono (Kind.quiet_le hl), ⟨c, _, hr.save⟩, .inl this⟩

/-- Everything is allowed. -/
def Kind.any : Kind := ⟨True, True, fun _ => True, True, True, True, fun _ => True, True, True, True, True, True,
  fun _ => True, fun _ => True, fun _ => True⟩

/-- The process at `w`, with the record `x`, will outrank every other activatable
process once it is in the queue, and nobody else is to be woken. -/
structure Foremost (s : Kernel) (w : Ptr) (x : Process) : Prop where
  heap : s.heap w = some x
  above : ∀ q ∈ s.queue .activatable, q ≠ w → ∀ y, s.heap q = some y → y.prio < x.prio
  alone : ∀ p y, s.heap p = some y → y.nextPrev = some .asleep → y.Overdue s.counter →
    p = w ∧ (s.queue .asleep).getLast? = some w
  place : (s.queue .activatable).getLast? = some w ∨ x.nextPrev = some .asleep ∧ x.Overdue s.counter

/-- The record `x` is the one at `w` still, as far as scheduling goes, and it is the
first to be switched to. -/
structure FirstInLine (s : Kernel) (w : Ptr) (x : Process) : Prop where
  heap : ∃ y, s.heap w = some y ∧ y.pid = x.pid ∧ y.prio = x.prio ∧ y.nextPrev = some .activatable
  last : (s.queue .activatable).getLast? = some w

theorem Foremost.awaken {w : Ptr} (h : Foremost s w x) (hi : Inv ∅ s) (hl : x.nextPrev = some .asleep) :
    FirstInLine (s.awaken w x) w x := by
  refine ⟨⟨_, awaken_heap_self h.heap, rfl, rfl, rfl⟩, ?_⟩
  have hq : (s.unlink w .asleep).queue .activatable = s.queue .activatable := by simp
  simp only [Kernel.awaken, Kernel.inserted, link_queue, Function.update_self]
  rw [insertWhile_of_forall, List.getLast?_concat]
  intro q hqm
  rw [hq] at hqm
  obtain ⟨y, hy, hyn, _⟩ := hi.live_of_mem hqm
  have hqw : q ≠ w := by
    rintro rfl
    rw [h.heap] at hy
    cases hy
    rw [hl] at hyn
    cases hyn
  have := h.above q hqm hqw y hy
  simpa [Kernel.value, hqw, hy, QueueHead.field, Process.prioField] using this

/-- No sleeper is to be woken. -/
def Kernel.NoneDue (s : Kernel) : Prop :=
  ∀ p r, s.heap p = some r → r.nextPrev = some .asleep → ¬ r.Overdue s.counter

theorem Foremost.awake {w : Ptr} (hi : Inv ∅ s) (hc : Caller s c r) (hund : r.nextPrev ≠ some .dead)
    (hw : Foremost s w x) : wp awakeSleepingProcess (fun _ u => (Chain .any s ∅ u ∧ StillCaller s c r u) ∧
      FirstInLine u w x) (fun _ => True) s := by
  have start : (x.nextPrev = some .asleep ∧ x.Overdue s.counter) ∨ FirstInLine s w x ∧ s.NoneDue := by
    rcases hw.place with hlast | hp
    · have hl : x.nextPrev = some .activatable := by
        obtain ⟨y, hy, hyn, _⟩ := hi.live_of_mem (List.mem_of_getLast? hlast)
        rw [hw.heap] at hy
        cases hy
        exact hyn
      refine .inr ⟨⟨⟨x, hw.heap, rfl, rfl, hl⟩, hlast⟩, fun p y hy hyn ho => ?_⟩
      obtain ⟨rfl, _⟩ := hw.alone p y hy hyn ho
      rw [hw.heap] at hy
      cases hy
      rw [hl] at hyn
      cases hyn
    · exact .inl hp
  -- before its turn the sleeper is where it was, after it nobody else is overdue
  refine wp_mono (wp_and (awake_still (K := .any) (.refl hi) trivial hc hund fun _ _ _ _ _ => trivial)
    (wp_awakeSleepingProcess (E := fun _ => True) (P := fun u => Inv ∅ u ∧
      ((u = s ∧ x.nextPrev = some .asleep ∧ x.Overdue s.counter) ∨ FirstInLine u w x ∧ u.NoneDue))
      (fun u hu => hu.1) trivial ?_ ⟨hi, start.imp (fun h => ⟨rfl, h⟩) id⟩)) ?_ (fun _ _ _ => trivial)
  · rintro u l p y ⟨hu, hcase⟩ hq hp hn ho
    have hu' : Inv ∅ (u.awaken p y) :=
      (Chain.awaken (K := .any) (.refl hu) trivial hp hn trivial).inv
    refine ⟨hu', ?_⟩
    rcases hcase with ⟨rfl, hl, -⟩ | ⟨-, hnone⟩
    · obtain ⟨rfl, _⟩ := hw.alone p y hp hn ho
      rw [hw.heap] at hp
      cases hp
      refine .inr ⟨hw.awaken hi hl, fun q z hz hzn hzo => ?_⟩
      by_cases hqw : q = p
      · subst hqw
        rw [awaken_heap_self hw.heap] at hz
        cases hz
        cases hzn
      · rw [awaken_heap_of_ne hqw] at hz
        exact hqw (hw.alone q z hz hzn hzo).1
    · exact absurd ho (hnone p y hp hn)
  · rintro _ u - ⟨hstill, ⟨-, hcase⟩, hrest⟩
    rcases hcase with ⟨rfl, hl, ho⟩ | ⟨hfirst, -⟩
    · obtain ⟨l, hlist⟩ := List.getLast?_eq_some_iff.1 (hw.alone w x hw.heap hl ho).2
      exact absurd ho (hrest l w x hlist hw.heap)
    · exact ⟨hstill, hfirst⟩

theorem FirstInLine.freeDead {w : Ptr} (ch : Chain .any s₀ ∅ s) (hc : Caller s c r)
    (hund : r.nextPrev ≠ some .dead) (hw : FirstInLine s w x) :
    wp freeDeadProcess (fun _ u => (Chain .any s₀ ∅ u ∧ StillCaller s c r u) ∧ FirstInLine u w x)
      (fun _ => True) s := by
  refine wp_mono (wp_and (freeDead_still ch hc hund) (wp_freeDeadProcess (E := fun _ => True)
    (P := fun u => (∃ d rd, Chain .any s₀ ∅ u ∧ Caller u d rd ∧ rd.nextPrev ≠ some .dead) ∧ FirstInLine u w x)
    ?_ ?_ ⟨⟨c, r, ch, hc, hund⟩, hw⟩)) (fun _ _ _ h => ⟨h.1, h.2.2⟩) (fun _ _ _ => trivial)
  · rintro u ⟨⟨_, _, hch, _, _⟩, _⟩
    exact hch.inv
  · rintro u l p y ⟨⟨d, rd, hch, hd, hdead⟩, ⟨⟨z, hz, hzp, hzr, hzn⟩, hlast⟩⟩ hq hp hn
    have hdp : d ≠ p := by
      rintro rfl
      rw [hd.heap] at hp
      cases hp
      exact hdead hn
    have hne : y.pid ≠ u.currentRunningProcessPid := by
      rw [← hd.pid hch.inv.toCore]
      exact fun he => hdp (hch.inv.pid_inj hd.heap hp he.symm)
    have hwp : w ≠ p := by
      rintro rfl
      rw [hz] at hp
      cases hp
      rw [hzn] at hn
      cases hn
    refine ⟨⟨d, rd, hch.freeDead hp hn hne, ⟨?_, ?_, hd.started, hd.user⟩, hdead⟩, ⟨z, ?_, hzp, hzr, hzn⟩, ?_⟩
    · simpa [Kernel.freeRecord, hne.symm] using hd.table
    · simpa [Kernel.freeRecord, hdp] using hd.heap
    · simpa [Kernel.freeRecord, hwp] using hz
    · simpa [Kernel.freeRecord] using hlast

/-- The process that outranks all others runs next. -/
theorem scheduler_runs {w : Ptr} (hi : Inv ∅ s) (hc : Caller s c r) (hund : r.nextPrev ≠ some .dead)
    (hw : Foremost s w x) (hprio : r.state ≠ .actif ∨ r.prio ≤ x.prio) :
    wp scheduler (fun _ t => t.currentRunningProcessPid = x.pid) (fun _ => True) s := by
  rw [scheduler, wp_bind]
  refine wp_mono (hw.awake hi hc hund) ?_ (fun _ _ h => h)
  rintro _ u - ⟨⟨hch, ⟨r', hc', hund', hst', hpr'⟩, _⟩, hfirst⟩
  rw [wp_bind]
  refine wp_mono (hfirst.freeDead hch hc' hund') ?_ (fun _ _ h => h)
  rintro _ v - ⟨⟨hch2, ⟨r2, hc2, hund2, hst2, hpr2⟩, _⟩, ⟨y, hy, hyp, hyr, _⟩, hlast⟩
  refine wp_mono (scheduleNext_done hch2 trivial hc2 hund2) ?_ (fun _ _ _ => trivial)
  rintro _ t - ⟨_, hnext⟩
  obtain ⟨l, hl⟩ := List.getLast?_eq_some_iff.1 hlast
  rw [← hyp]
  refine hnext l w y hl hy ?_
  rw [hst2, hst', hpr2, hpr', hyr]
  exact hprio

theorem schedule_runs {w : Ptr} (hi : Inv ∅ s) (hc : Caller s c r) (hund : r.nextPrev ≠ some .dead)
    (hw : Foremost s w x) (hcw : c ≠ w) (hprio : r.state ≠ .actif ∨ r.prio ≤ x.prio)
    (hk : Saves .any s c r k) :
    wp (schedule k) (fun _ t => t.currentRunningProcessPid = x.pid) (fun _ => True) s := by
  simp only [schedule, saveContext, wp_bind, wp_getCurrentProcess, hc.table, wp_modifyProc hc.heap]
  have same : ∀ p y, (s.mapProc c fun r => { r with context := k }).heap p = some y →
      ∃ z, s.heap p = some z ∧ z.prio = y.prio ∧ z.nextPrev = y.nextPrev ∧ z.wakeTime = y.wakeTime := by
    intro p y hy
    by_cases hpc : p = c
    · subst hpc
      simp only [mapProc_heap, Function.update_self, hc.heap, Option.map_some, Option.some.injEq] at hy
      subst hy
      exact ⟨r, hc.heap, rfl, rfl, rfl⟩
    · exact ⟨y, by simpa [hpc] using hy, rfl, rfl, rfl⟩
  refine scheduler_runs (r := { r with context := k }) ((Chain.refl hi).save hc.heap hk).inv
    ⟨hc.table, by simp [hc.heap], hc.started, hc.user⟩ hund ⟨?_, ?_, ?_, hw.place⟩ hprio
  · simpa [hcw.symm] using hw.heap
  · intro q hq hqw y hy
    obtain ⟨z, hz, hzp, _⟩ := same q y hy
    rw [← hzp]
    exact hw.above q hq hqw z hz
  · intro p y hy hn ho
    obtain ⟨z, hz, _, hzn, hzw⟩ := same p y hy
    refine hw.alone p z hz (hzn.trans hn) ?_
    simpa [Process.Overdue, Process.deadline, hzw] using ho

end scheduler

end Xinul
