import Xinul.Proofs.FrameSteps
import Xinul.Proofs.Interrupts
import Xinul.Proofs.Mail
import Xinul.Proofs.Order

/-!
# The queue of those asleep

`wait_clock` chains a process by the opposite of its wake-up time, so that the first to
wake is at the end of the queue. As long as every wake-up time fits in 63 bits and is not
zero, `awake_sleeping_process` wakes everybody whose time is up, and nobody else.
-/

namespace Xinul

open Prog Waiting

/-- Who is asleep in `t` was in `s`, until the same time; under `T` no tick passed. -/
structure Slept (T : Prop) (s t : Kernel) : Prop where
  counter : T → t.counter = s.counter
  fresh : s.nextPtr ≤ t.nextPtr
  asleep : t.queue .asleep ⊆ s.queue .asleep
  wakeTime : ∀ p ∈ t.queue .asleep, p < s.nextPtr → ∀ y, t.heap p = some y →
    ∃ x, s.heap p = some x ∧ x.wakeTime = y.wakeTime

/-- The assertion of `get_next_wake_time` fails only on the time of somebody who is
asleep. -/
def Alarm (T : Prop) (s : Kernel) (f : Fault) : Prop :=
  f = .wakeTimeAssert → ∃ u, Slept T s u ∧ Fault.wakeTimeAssert.cause u

/-- The queue is in the order of the wake-up times. -/
def NapOrder (s : Kernel) : Prop :=
  (s.queue .asleep).Pairwise fun a b => s.value Process.wakeTime a ≤ s.value Process.wakeTime b

/-- The opposite of the wake-up time is a negative 64-bit integer, and not the least. -/
def Process.Timed (r : Process) : Prop := -2 ^ 63 < r.wakeTime ∧ r.wakeTime < 0

/-- Everybody who is asleep has a wake-up time. -/
def Timetable (s : Kernel) : Prop := ∀ p ∈ s.queue .asleep, ∀ r, s.heap p = some r → r.Timed

section slept

variable {T : Prop} {s t u : Kernel} {p : Ptr} {r : Process}

instance : IsPreorder Kernel (Slept T) where
  refl s := ⟨fun _ => rfl, le_rfl, fun _ => id, fun _ _ _ y hy => ⟨y, hy, rfl⟩⟩
  trans s t u h h' := by
    refine ⟨fun hT => (h'.counter hT).trans (h.counter hT), h.fresh.trans h'.fresh, fun p hp => h.asleep (h'.asleep hp),
      fun p hp hlt z hz => ?_⟩
    obtain ⟨y, hy, hyz⟩ := h'.wakeTime p hp (hlt.trans_le h.fresh) z hz
    obtain ⟨x, hx, hxy⟩ := h.wakeTime p (h'.asleep hp) hlt y hy
    exact ⟨x, hx, hxy.trans hyz⟩

/-- One record was written, its wake-up time apart. -/
theorem Slept.map {f : Process → Process} (hf : ∀ r : Process, (f r).wakeTime = r.wakeTime)
    (heap : t.heap = (s.mapProc p f).heap) (asleep : t.queue .asleep ⊆ s.queue .asleep) (fresh : t.nextPtr = s.nextPtr)
    (counter : T → t.counter = s.counter) : Slept T s t := by
  refine ⟨counter, fresh.ge, asleep, fun q _ _ y hy => ?_⟩
  rw [heap] at hy
  rcases heap_update_cases hy with ⟨rfl, hv⟩ | ⟨_, hy⟩
  · obtain ⟨x, hx, rfl⟩ := Option.map_eq_some_iff.1 hv
    exact ⟨x, hx, (hf x).symm⟩
  · exact ⟨y, hy, rfl⟩

/-- No record was written. -/
theorem Slept.globals (heap : t.heap = s.heap) (asleep : t.queue .asleep ⊆ s.queue .asleep) (fresh : t.nextPtr = s.nextPtr)
    (counter : T → t.counter = s.counter) : Slept T s t :=
  ⟨counter, fresh.ge, asleep, fun _ _ _ y hy => ⟨y, heap ▸ hy, rfl⟩⟩

instance : HoldsOfWrites (Slept T) where
  write s t p f hf heap asleep base := .map (fun r => (hf r).wakeTime) heap asleep base.nextPtr fun _ => base.counter
  globals s t heap asleep base := .globals heap asleep base.nextPtr fun _ => base.counter
  free s p r _ := by
    refine ⟨fun _ => rfl, le_rfl, fun _ => id, fun q _ _ y hy => ?_⟩
    rcases heap_update_cases hy with ⟨_, hv⟩ | ⟨_, hy⟩
    · cases hv
    · exact ⟨y, hy, rfl⟩

theorem Slept.holdsOfStarts : HoldsOfStarts (Slept T) where
  enlist s n := .globals rfl (fun _ => id) rfl fun _ => rfl
  pids s l n := .globals rfl (fun _ => id) rfl fun _ => rfl
  alloc s t r _ heap next _ queue _ counter := by
    refine ⟨fun _ => counter, by rw [next]; exact Nat.le_succ _, by rw [queue]; exact fun _ => id, fun p _ hlt y hy => ?_⟩
    rw [heap, Function.update_of_ne hlt.ne] at hy
    exact ⟨y, hy, rfl⟩

instance : Spares (Slept T) (Alarm T) where
  reflects h he hf := by
    obtain ⟨u, hu, hc⟩ := he hf
    exact ⟨u, trans_of (Slept T) h hu, hc⟩
  cause {s f} h hf := ⟨s, refl_of (Slept T) s, hf ▸ h⟩

/-- With a timetable the assertion holds. -/
theorem Alarm.absent {H : Set Ptr} (h : Alarm T s .wakeTimeAssert) (hi : Inv H s) (ht : Timetable s) : False := by
  obtain ⟨u, hu, p, r, hp, hr, hneg⟩ := h rfl
  obtain ⟨x, hx, _⟩ := hi.live_of_mem (hu.asleep hp)
  obtain ⟨y, hy, hyr⟩ := hu.wakeTime p hp (hi.fresh p x hx) r hr
  have htimed := ht p (hu.asleep hp) y hy
  rw [Process.Timed, hyr] at htimed
  rw [Int.bmod_def] at hneg
  split at hneg <;> omega

/-- `chprio` chains a process back where it was. -/
theorem chprio_slept (hi : Inv ∅ s) (pid newprio : Int) :
    wp (chprio pid newprio) (fun _ t => Frame False False (Slept T) s t) (Alarm T s) s := by
  rw [chprio, wp_bind, wp_getProcessStructOfPid]
  cases hp : s.pidProcessHashTable pid with
  | none => exact apart_answer _ _ s
  | some p =>
    obtain ⟨x, hx, -⟩ := hi.table _ _ hp
    dsimp only
    rw [wp_ite]
    refine ⟨fun _ => apart_answer _ _ s, fun _ => ?_⟩
    rw [wp_bind, wp_validate hx, wp_ite]
    refine ⟨fun _ => apart_answer _ _ s, fun _ => ?_⟩
    have hx' : (s.mapProc p fun r => { r with prio := newprio.toNat }).heap p = some { x with prio := newprio.toNat } := by
      simp [hx]
    have first : Frame False False (Slept T) s (s.mapProc p fun r => { r with prio := newprio.toNat }) :=
      .mapProc (fun r hp => absurd hp.2 (by simp)) fun _ => .of_eq rfl
    simp only [wp_bind, wp_deref hx, wp_modifyProc hx, wp_deref hx']
    have again : ∀ hd, hd ≠ .asleep → Guards (Frame False False (Slept T)) (Alarm T) (queueAdd p hd Process.prioField) :=
      fun hd hne => apart_queueAdd False.elim (.inl hne)
    have hfits := hi.fits p x hx (by simp)
    cases hs : x.state with
    | activatable =>
      dsimp only
      exact (Guards.bind frame_queueDel fun _ => .bind (again .activatable fun h => by cases h) fun _ => apart_scheduleAnswer _ _).after
        first
    | actif => exact (apart_scheduleAnswer _ _).after first
    | blockedQueue =>
      dsimp only
      rw [wp_bind]
      cases hn : x.nextPrev with
      | none => exact (wp_queueDel_none hx' hn).2 fun hf => by cases hf
      | some d =>
        have hst : x.started = true := (hfits.linked hn).1
        simp only [Process.Fits, hst, hs] at hfits
        obtain ⟨hd, ⟨q, hq⟩, hhead, -⟩ := hfits
        rw [wp_queueDel hx' hn]
        simp only [hhead]
        have hne : hd ≠ .asleep := by
          rintro rfl
          cases hq
        refine (Guards.bind (frame_touchHead hd) fun _ => .bind (again hd hne) fun _ => apart_answer _ _).after ?_
        exact trans_of (Frame False False (Slept T)) first (.unlink False.elim)
    | blockedIo =>
      dsimp only
      exact (Guards.bind frame_queueDel fun _ => .bind (again .blockedIo fun h => by cases h) fun _ => apart_answer _ _).after first
    | _ => exact (apart_answer _ _).after first

end slept

/-! ## The order of the queue -/

section order

variable {K : Kind} {H H' : Set Ptr} {s s₀ t : Kernel} {p q : Ptr} {r : Process}

theorem value_mapProc {f : Process → Process} {g : Process → Int} (hp : s.heap p = some r) (hf : g (f r) = g r) :
    (s.mapProc p f).value g q = s.value g q := by
  unfold Kernel.value
  by_cases hq : q = p
  · subst hq
    simp [hp, hf]
  · simp [hq]

/-- Nobody's wake-up time, and nobody's place among those with the same one, changes while
he is asleep. -/
theorem Act.sleeper_eq {g : Process → Int} (hg : ∀ r r' : Process, r'.wakeTime = r.wakeTime → r'.stamp = r.stamp → g r' = g r)
    (a : Act K H s H' t) (hi : Inv H s) (hq : q ∈ s.queue .asleep) : t.value g q = s.value g q := by
  obtain ⟨x, hx, hn, hH⟩ := hi.live_of_mem hq
  have apart : ∀ {p}, q ≠ p → ∀ f, (s.mapProc p f).value g q = s.value g q := by
    intro p hne f
    simp [Kernel.value, hne]
  have held : ∀ {p}, p ∈ H → q ≠ p := fun hp he => hH (he ▸ hp)
  cases a with
  | write hp _ _ hstamp hw => exact value_mapProc hp (hg _ _ hw hstamp)
  | set hp => exact apart (held hp) _
  | link => exact apart (held (by simp)) fun r => { r with nextPrev := _, stamp := _ }
  | unlink hp => exact value_mapProc (f := fun r => { r with nextPrev := none }) hp (hg _ _ rfl rfl)
  | reprio hp => exact value_mapProc (f := fun r => { r with prio := _ }) hp (hg _ _ rfl rfl)
  | @free _ _ p r hp hnp =>
    have hne : q ≠ p := by
      rintro rfl
      rw [hx] at hp
      cases hp
      rw [hn] at hnp
      cases hnp
    simp [Kernel.value, Kernel.freeRecord, hne]
  | alloc =>
    have hne : q ≠ s.nextPtr := (hi.fresh q x hx).ne
    simp [Kernel.value, hne]
  | @birth _ _ p r f _ hp hold =>
    refine apart ?_ f
    rintro rfl
    rw [hx] at hp
    cases hp
    rw [((hi.fits q x hx hH).linked hn).1] at hold
    cases hold
  | @block _ _ p r sem =>
    have hne : q ≠ p := held (by simp)
    simp [Kernel.value, Kernel.markBlocked, Kernel.setBlocked, Kernel.mapProc, hne]
  | other same => simp [Kernel.value, same.heap]
  | _ => rfl

theorem Act.wakeTime_eq (a : Act K H s H' t) (hi : Inv H s) (hq : q ∈ s.queue .asleep) :
    t.value Process.wakeTime q = s.value Process.wakeTime q := a.sleeper_eq (fun _ _ hw _ => hw) hi hq

theorem Act.napOrder (a : Act K H s H' t) (hi : Inv H s) (h : NapOrder s) : NapOrder t := by
  have same : ∀ q ∈ s.queue .asleep, t.value Process.wakeTime q = s.value Process.wakeTime q := fun q hq =>
    a.wakeTime_eq hi hq
  have kept : (t.queue .asleep).Sublist (s.queue .asleep) → NapOrder t := fun hsub =>
    (h.sublist hsub).imp_of_mem fun ha hb hab => by rwa [same _ (hsub.subset ha), same _ (hsub.subset hb)]
  cases a with
  | @link _ _ p r d hH hp =>
    by_cases hd : d = .asleep
    · subst hd
      have hpt : (s.link p .asleep (s.inserted p r .asleep)).value Process.wakeTime p = r.wakeTime := by
        simp [Kernel.value, hp]
      have hvp : QueueHead.asleep.field r = r.wakeTime := rfl
      have hv : ∀ c, s.value QueueHead.asleep.field c = s.value Process.wakeTime c := fun _ => rfl
      unfold NapOrder
      rw [link_queue, Function.update_self]
      refine pairwise_insertWhile (h.imp_of_mem fun ha hb hab => by rwa [same _ ha, same _ hb])
        (fun c hc hlt => ?_) (fun c hc hge => ?_) fun a ha b hb hab hlt => ?_
      · rw [hpt, same c hc]
        simp only [decide_eq_true_eq, hv, hvp] at hlt
        exact hlt.le
      · rw [hpt, same c hc]
        simp only [decide_eq_false_iff_not, hv, hvp] at hge
        omega
      · rw [same a ha, same b hb] at hab
        simp only [decide_eq_true_eq, hv] at hlt ⊢
        omega
    · refine kept ?_
      simp [Ne.symm hd]
  | @unlink _ _ p r d =>
    refine kept ?_
    by_cases hd : QueueHead.asleep = d
    · subst hd
      simpa using List.erase_sublist
    · simp [hd]
  | other same => exact kept (by rw [same.queue])
  | _ => exact kept (List.Sublist.refl _)

theorem Chain.napOrder (ch : Chain K s₀ H s) (h : NapOrder s₀) : NapOrder s :=
  ch.induct (P := fun _ s => NapOrder s) h fun _ _ _ _ hi h a => a.napOrder hi h

end order

/-! ## Waking up -/

section waking

variable {T : Prop} {K : Kind} {H : Set Ptr} {s s₀ t u : Kernel} {c p q : Ptr} {r x : Process} {k : Context}

theorem Process.Timed.deadline_eq (h : r.Timed) : r.deadline = -r.wakeTime ∧ 0 < r.deadline := by
  obtain ⟨h1, h2⟩ := h
  unfold Process.deadline
  rw [Int.bmod_def]
  split <;> omega

theorem Timetable.slept (h : Timetable s) (hi : Inv H s) (hs : Slept T s u) : Timetable u := by
  intro p hp r hr
  obtain ⟨x, hx, _⟩ := hi.live_of_mem (hs.asleep hp)
  obtain ⟨y, hy, hyr⟩ := hs.wakeTime p hp (hi.fresh p x hx) r hr
  have := h p (hs.asleep hp) y hy
  rwa [Process.Timed, hyr] at this

/-- When the first sleeper has time left, everybody has. -/
theorem Kernel.Rested.noneDue (h : s.Rested) (hi : Inv H s) (ho : NapOrder s) (ht : Timetable s) : s.NoneDue := by
  intro p r hp hn hover
  have hmem : p ∈ s.queue .asleep := (hi.mem _ p).2 ⟨r, hp, hn⟩
  obtain ⟨l, q, hl⟩ : ∃ l q, s.queue .asleep = l ++ [q] :=
    ⟨_, _, (List.dropLast_append_getLast (List.ne_nil_of_mem hmem)).symm⟩
  obtain ⟨x, hx, _⟩ := hi.live_of_mem (p := q) (d := .asleep) (by simp [hl])
  obtain ⟨hdp, -⟩ := (ht p hmem r hp).deadline_eq
  obtain ⟨hdq, hpos⟩ := (ht q (by simp [hl]) x hx).deadline_eq
  have hle : r.wakeTime ≤ x.wakeTime := by
    unfold NapOrder at ho
    rw [hl] at ho hmem
    rcases List.mem_append.1 hmem with hm | hm
    · have := (List.pairwise_append.1 ho).2.2 p hm q (by simp)
      simpa [Kernel.value, hp, hx] using this
    · obtain rfl : p = q := by simpa using hm
      rw [hp] at hx
      cases hx
      exact le_rfl
  refine h l q x hl hx ⟨hpos, ?_⟩
  have hlt : r.deadline < s.counter := hover.2
  omega

/-- `awake_sleeping_process` moves those whose time is up to the activatable queue. -/
theorem awake_moves (hi : Inv ∅ s) (ho : NapOrder s) (ht : Timetable s) :
    wp awakeSleepingProcess (fun _ u => (Slept True s u ∧ u.NoneDue) ∧
      ∀ p ∈ s.queue .asleep, p ∈ u.queue .asleep ∨ p ∈ u.queue .activatable) (fun _ => True) s := by
  refine wp_mono (wp_awakeSleepingProcess (E := fun _ => True) (P := fun u => (Inv ∅ u ∧ NapOrder u ∧ Slept True s u) ∧
    ∀ p ∈ s.queue .asleep, p ∈ u.queue .asleep ∨ p ∈ u.queue .activatable)
    (fun u hu => hu.1.1) trivial ?_ ⟨⟨hi, ho, refl_of (Slept True) s⟩, fun p hp => .inl hp⟩) ?_ (fun _ _ h => h)
  · rintro u l p x ⟨⟨hu, hou, hsu⟩, hall⟩ hq hp hn -
    have ch := Chain.awaken (K := .any) (.refl hu) trivial hp hn trivial
    have hslept : Slept True u (u.awaken p x) :=
      trans_of (Slept True) (Frame.unlink (M := False) (W := False) (p := p) False.elim).also
        (Frame.link (M := False) (W := False) (p := p) False.elim (.inl ((fun h => by cases h) : QueueHead.activatable ≠ .asleep))).also
    refine ⟨⟨ch.inv, ch.napOrder hou, trans_of (Slept True) hsu hslept⟩, fun q hqm => ?_⟩
    simp only [Kernel.awaken, link_queue, unlink_queue, Function.update_self,
      Function.update_of_ne (show QueueHead.asleep ≠ .activatable by decide)]
    by_cases hqp : q = p
    · exact .inr (mem_insertWhile.2 (.inl hqp))
    · refine (hall q hqm).imp (fun h => (List.mem_erase_of_ne hqp).2 h) fun h => mem_insertWhile.2 (.inr ?_)
      simpa using h
  · rintro _ u - ⟨⟨⟨hu, hou, hsu⟩, hall⟩, hrest⟩
    exact ⟨⟨hsu, hrest.noneDue hu hou (ht.slept hi hsu)⟩, hall⟩

/-- Nobody leaves the activatable queue, and the same process runs. -/
structure Gathers (s t : Kernel) : Prop where
  running : t.currentRunningProcessPid = s.currentRunningProcessPid
  table : t.pidProcessHashTable = s.pidProcessHashTable
  queue : s.queue .activatable ⊆ t.queue .activatable

instance : IsPreorder Kernel Gathers where
  refl _ := ⟨rfl, rfl, fun _ => id⟩
  trans _ _ _ h h' := ⟨h'.running.trans h.running, h'.table.trans h.table, fun _ hp => h'.queue (h.queue hp)⟩

theorem gathers_modifyProc {f : Process → Process} : Respects Gathers (modifyProc p f) :=
  .bind (respects_deref p) fun _ => .modify fun _ => ⟨rfl, rfl, fun _ => id⟩

theorem gathers_queueAdd {hd : QueueHead} {f : Process → Int} : Respects Gathers (queueAdd p hd f) := by
  intro s
  refine wp_queueAdd_any fun l hl => ⟨rfl, rfl, fun q hq => ?_⟩
  rw [link_queue]
  by_cases hd' : QueueHead.activatable = hd
  · subst hd'
    rw [Function.update_self]
    exact hl.mem_iff.2 (List.mem_cons_of_mem _ hq)
  · rwa [Function.update_of_ne hd']

/-- Whoever leaves the activatable queue runs. -/
def Serving (s t : Kernel) : Prop := ∀ p ∈ s.queue .activatable, p ∈ t.queue .activatable ∨
  t.pidProcessHashTable t.currentRunningProcessPid = some p

theorem wp_dispatch_serving {m : KernelM Unit} {l : List Ptr} (hm : Respects Gathers m)
    (hq : s.queue .activatable = l ++ [p]) (hp : s.heap p = some x) (htab : s.pidProcessHashTable x.pid = some p)
    (hpos : ¬ x.pid < 0) : wp (dispatch p m) (fun _ t => Serving s t) (fun _ => True) s := by
  rw [dispatch, wp_bind]
  refine wp_queueOut_any (fun hc => by simp [hc] at hq) fun l' p' _ hq' _ => ?_
  obtain ⟨rfl, rfl⟩ : l' = l ∧ p' = p := by simpa using hq'.symm.trans hq
  have hrec : (s.unlink p' .activatable).heap p' = some { x with nextPrev := none } := by simp [hp]
  have htab' : (s.unlink p' .activatable).pidProcessHashTable x.pid = some p' := htab
  simp only [wp_bind, wp_deref hrec, setpid, wp_getProcessStructOfPid, htab', wp_modify, wp_pure, if_neg hpos]
  refine wp_mono (hm _) (fun _ t _ ht q hqm => ?_) (fun _ _ _ => trivial)
  by_cases hqp : q = p'
  · right
    rw [ht.running, ht.table, hqp]
    exact htab
  · refine .inl (ht.queue ?_)
    simpa [Kernel.setRunning, hqp] using hqm

theorem scheduleNext_serving (hi : Inv ∅ s) (hc : Caller s c r) :
    wp scheduleNext (fun _ t => Serving s t) (fun _ => True) s := by
  have actif : ∀ p, Respects Gathers (modifyProc p fun r => { r with state := .actif }) := fun _ => gathers_modifyProc
  simp only [scheduleNext, wp_bind, wp_getpid, if_neg (hc.pid_ne hi.toCore), wp_get, hc.user, Bool.true_eq_false, if_false,
    wp_getCurrentProcess, hc.table, wp_queueTop]
  cases hl : (s.queue .activatable).getLast? with
  | none =>
    intro p hp
    rw [List.getLast?_eq_none_iff.1 hl] at hp
    cases hp
  | some p =>
    obtain ⟨l, hq⟩ := List.getLast?_eq_some_iff.1 hl
    obtain ⟨x, hp, -⟩ := hi.top hq
    have htab := hi.pidOf p x hp
    have hpos : ¬ x.pid < 0 := by
      have := (hi.pool.used p x hp).1
      omega
    simp only [wp_bind, wp_deref hc.heap]
    rw [wp_ite]
    refine ⟨fun _ => ?_, fun _ => ?_⟩
    · rw [wp_bind, wp_deref hp, wp_ite]
      refine ⟨fun _ => ?_, fun _ q hqm => .inl hqm⟩
      exact wp_dispatch_serving (.bind gathers_modifyProc fun _ => .bind (actif p) fun _ => gathers_queueAdd) hq hp htab hpos
    · rw [wp_ite]
      refine ⟨fun _ => ?_, fun _ => wp_dispatch_serving (actif p) hq hp htab hpos⟩
      rw [wp_bind]
      refine wp_queueAdd_any fun l' _ => ?_
      have hq' : (s.link c .dead l').queue .activatable = l ++ [p] := by simp [hq]
      have hserve : ∀ y, (s.link c .dead l').heap p = some y → y.pid = x.pid →
          wp (dispatch p (modifyProc p fun r => { r with state := .actif })) (fun _ t => Serving s t) (fun _ => True)
            (s.link c .dead l') := by
        intro y hy hpid
        refine wp_mono (wp_dispatch_serving (actif p) hq' hy (by rw [hpid]; exact htab) (by rwa [hpid]))
          (fun _ t _ ht q hqm => ht q ?_) (fun _ _ h => h)
        simpa using hqm
      by_cases hpc : p = c
      · subst hpc
        exact hserve { x with nextPrev := some .dead, stamp := s.insertions } (by simp [hp]) rfl
      · exact hserve x (by simp [hpc, hp]) rfl

/-- `free_dead_process` leaves the activatable queue alone. -/
theorem keeps_activatable_freeDead : Keeps (fun s : Kernel => s.queue .activatable) freeDeadProcess := by
  have loop : ∀ n, Keeps (fun s : Kernel => s.queue .activatable) (freeDeadLoop n) := by
    intro n
    induction n with
    | zero => exact .throw _
    | succ n ih =>
      refine .bind (keeps_queueOut fun _ _ => by simp) fun o => ?_
      split
      · exact .pure _
      · refine .bind ?_ fun _ => ih
        exact .bind (keeps_deref _) fun _ => .bind (.modify fun _ => rfl) fun _ => .pure _
  exact .bind .get fun s => loop _

/-- After `scheduler` nobody is asleep whose time is up: he is activatable, or runs. -/
structure Punctual (s t : Kernel) : Prop where
  noneDue : ∀ p ∈ t.queue .asleep, ∀ r, t.heap p = some r → ¬ r.Overdue t.counter
  woken : ∀ p ∈ s.queue .asleep, ∀ r, s.heap p = some r → r.Overdue s.counter →
    p ∈ t.queue .activatable ∨ t.pidProcessHashTable t.currentRunningProcessPid = some p

/-- The record of somebody who is still asleep. -/
theorem Slept.record (h : Slept True s u) (hi : Inv H s) (hp : p ∈ u.queue .asleep) (hr : u.heap p = some r) :
    ∃ x, s.heap p = some x ∧ x.nextPrev = some .asleep ∧ ∀ n, x.Overdue n ↔ r.Overdue n := by
  obtain ⟨x, hx, hn, _⟩ := hi.live_of_mem (h.asleep hp)
  obtain ⟨y, hy, hyr⟩ := h.wakeTime p hp (hi.fresh p x hx) r hr
  rw [hx] at hy
  cases hy
  exact ⟨x, hx, hn, fun n => by simp [Process.Overdue, Process.deadline, hyr]⟩

theorem scheduler_punctual (hi : Inv ∅ s) (hc : Caller s c r) (hund : r.nextPrev ≠ some .dead) (ho : NapOrder s)
    (ht : Timetable s) : wp scheduler (fun _ t => Punctual s t) (fun _ => True) s := by
  rw [scheduler, wp_bind]
  refine wp_mono (wp_and (awake_still (K := .any) (.refl hi) trivial hc hund fun _ _ _ _ _ => trivial)
    (awake_moves hi ho ht)) ?_ (fun _ _ _ => trivial)
  rintro _ u - ⟨⟨hch, ⟨r', hc', hund', _, _⟩, _⟩, ⟨hsu, hnone⟩, hall⟩
  rw [wp_bind]
  refine wp_mono (wp_and (freeDead_still hch hc' hund') (wp_and
    (apart_freeDeadProcess (M := False) (W := False) (R := Slept True) (E := fun _ _ => True) u)
    (keeps_activatable_freeDead u))) ?_ (fun _ _ _ => trivial)
  rintro _ v - ⟨⟨hch2, ⟨r2, hc2, _⟩, _⟩, hsv, hactive⟩
  refine wp_mono (wp_and (scheduleNext_serving hch2.inv hc2)
    (apart_scheduleNext (M := False) (W := False) (R := Slept True) (E := fun _ _ => True) v)) ?_ (fun _ _ _ => trivial)
  rintro _ t - ⟨hserve, hst⟩
  have hut : Slept True u t := trans_of (Slept True) hsv.also hst.also
  refine ⟨fun p hp y hy hover => ?_, fun p hp x hx hover => ?_⟩
  · obtain ⟨x, hx, hn, hiff⟩ := hut.record hch.inv hp hy
    rw [hut.counter trivial, ← hiff] at hover
    exact hnone p x hx hn hover
  · refine hserve p ?_
    rw [show v.queue .activatable = u.queue .activatable from hactive]
    refine (hall p hp).resolve_left fun hpu => ?_
    obtain ⟨y, hy, hn, _⟩ := hch.inv.live_of_mem hpu
    obtain ⟨z, hz, -, hiff⟩ := hsu.record hi hpu hy
    rw [hx] at hz
    cases hz
    refine hnone p y hy hn ?_
    rwa [hsu.counter trivial, ← hiff]

/-- The same for a call of `scheduler` after which the caller goes on in `k`. -/
theorem schedule_punctual (hi : Inv ∅ s) (hc : Caller s c r) (hund : r.nextPrev ≠ some .dead) (ho : NapOrder s)
    (ht : Timetable s) (hk : Saves .any s c r k) : wp (schedule k) (fun _ t => Punctual s t) (fun _ => True) s := by
  simp only [schedule, saveContext, wp_bind, wp_getCurrentProcess, hc.table, wp_modifyProc hc.heap]
  have ch := (Chain.refl (K := .any) hi).save hc.heap hk
  have hslept : Slept True s (s.mapProc c fun r => { r with context := k }) :=
    .map (p := c) (f := fun r => { r with context := k }) (fun _ => rfl) rfl (fun _ => id) rfl fun _ => rfl
  have hc' : Caller (s.mapProc c fun r => { r with context := k }) c { r with context := k } :=
    ⟨hc.table, by simp [hc.heap], hc.started, hc.user⟩
  refine wp_mono (scheduler_punctual ch.inv hc' hund (ch.napOrder ho) (ht.slept hi hslept))
    (fun _ t _ h => ⟨h.noneDue, fun p hp x hx hover => ?_⟩) (fun _ _ h => h)
  obtain ⟨y, hy⟩ : ∃ y, (s.mapProc c fun r => { r with context := k }).heap p = some y := by
    by_cases hpc : p = c
    · subst hpc
      exact ⟨_, hc'.heap⟩
    · exact ⟨x, by simp [hpc, hx]⟩
  obtain ⟨z, hz, -, hiff⟩ := hslept.record hi hp hy
  rw [hx] at hz
  cases hz
  exact h.woken p hp y hy ((hiff _).1 hover)

end waking

end Xinul
