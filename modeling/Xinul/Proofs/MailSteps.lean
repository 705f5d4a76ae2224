import Xinul.Proofs.Faulting
import Xinul.Proofs.Mail
import Xinul.Runs.Ended

/-!
# What a step does to the messages

`chprio` moves a process within a list of a message queue and `kill` takes one out
of it; with the calls of `msgqueue.c` these are all the events that touch a message
queue or its lists (`MailStep`).
-/

namespace Xinul

open Prog Machine

section

variable {s t u : Kernel} {c p : Ptr} {x r : Process} {hd : QueueHead}

/-! ## `chprio` -/

theorem apart_prio (v : Nat) : Apart True True s (s.mapProc p fun r => { r with prio := v }) :=
  .mapProc (.of_call fun _ => rfl) fun _ => .of_eq rfl

/-- A process blocked on a message queue is moved to its place in the list `l`. -/
structure Moved (s t : Kernel) (p : Ptr) (x : Process) (hd : QueueHead) (l : List Ptr) : Prop where
  record : s.heap p = some x
  started : x.started = true
  blocked : x.state = .blockedQueue
  head : x.message.blockedHead = some hd
  live : ∃ q, hd.queue? = some q ∧ (s.msgQueue q).isSome
  perm : l.Perm (p :: (s.queue hd).erase p)
  sems : Apart False True s t
  mail : Mail s t s.allQueues s.msgQueue (Function.update s.queue hd l) fun _ x => x

/-- What `chprio` leaves when it puts the process at `p`, taken out of the list of `d`, into the
list `l` of `hd`. -/
def Kernel.requeued (s : Kernel) (p : Ptr) (v : Nat) (d hd : QueueHead) (l : List Ptr) : Kernel :=
  ((s.mapProc p fun r => { r with prio := v }).unlink p d).link p hd l

section requeue

variable {d : QueueHead} {l : List Ptr} {v : Nat}

theorem apart_requeued {M : Prop} (hd₁ : M → d.queue? = none) (hd₂ : M → hd.queue? = none) :
    Apart M True s (s.requeued p v d hd l) :=
  trans_of (Apart M True) (trans_of (Apart M True) ((apart_prio v).weaken (fun _ => trivial) id) (.unlink hd₁))
    (.link hd₂ (.inr fun _ _ _ _ _ _ _ => trivial))

/-- A process blocked on a message queue stands in its list, or in that of the activatable ones. -/
theorem unlink_place (hi : Core ∅ s) (hp : s.heap p = some x) {q : QueuePtr} (hq : hd.queue? = some q)
    (hd₁ : x.nextPrev = some d) (hplace : x.nextPrev = some hd ∨ x.nextPrev = some .activatable) :
    ((s.mapProc p fun r => { r with prio := v }).unlink p d).queue hd = (s.queue hd).erase p := by
  rw [unlink_queue, mapProc_queue]
  obtain hsame | hact := hplace
  · obtain rfl : hd = d := Option.some.inj (hsame.symm.trans hd₁)
    rw [Function.update_self]
  · have hne : hd ≠ d := by
      rintro rfl
      rw [hd₁] at hact
      cases hact
      cases hq
    rw [Function.update_of_ne hne, List.erase_of_not_mem]
    intro hmem
    obtain ⟨z, hz, hzn⟩ := (hi.mem hd p).1 hmem
    rw [hp] at hz
    cases hz
    exact hne (Option.some.inj (hzn.symm.trans hd₁))

theorem mail_requeued (hp : s.heap p = some x) (hd₁ : x.nextPrev = some d)
    (hplace : x.nextPrev = some hd ∨ x.nextPrev = some .activatable) :
    Mail s (s.requeued p v d hd l) s.allQueues s.msgQueue (Function.update s.queue hd l) fun _ x => x := by
  refine .of_call le_rfl rfl rfl (fun d' hd' => ?_) fun q y hy => ?_
  · by_cases hdh : d' = hd
    · simp [Kernel.requeued, hdh]
    · rw [Kernel.requeued, link_queue, Function.update_of_ne hdh, Function.update_of_ne hdh, unlink_queue, mapProc_queue]
      by_cases hdd : d' = d
      · subst hdd
        obtain hsame | hact := hplace
        · exact absurd (Option.some.inj (hd₁.symm.trans hsame)) hdh
        · rw [hd₁] at hact
          cases hact
          exact absurd rfl hd'
      · rw [Function.update_of_ne hdd]
  · by_cases hqp : q = p
    · subst hqp
      obtain rfl : _ = y := by simpa [Kernel.requeued, hp] using hy
      exact ⟨x, hp, rfl⟩
    · exact ⟨y, by simpa [Kernel.requeued, hqp] using hy, rfl⟩

/-- The call answers once the process is in the list of a message queue. -/
theorem Moved.wp_answer (hp : s.heap p = some x) (hstarted : x.started = true) (hs : x.state = .blockedQueue)
    (hhead : x.message.blockedHead = some hd) (hlive : ∃ q, hd.queue? = some q ∧ (s.msgQueue q).isSome)
    (hd₁ : x.nextPrev = some d) (hplace : x.nextPrev = some hd ∨ x.nextPrev = some .activatable)
    (hl : l.Perm (p :: (s.queue hd).erase p)) (w : Int) :
    wp (answer w []) (fun _ t => Moved s t p x hd l) (fun _ => True) (s.requeued p v d hd l) := by
  have hsems : Respects (Apart False True) (answer w []) := apart_answer w []
  have hmail : Respects (Apart True False) (answer w []) := apart_answer w []
  refine wp_mono (wp_and (hsems.run _) (hmail.run _)) (fun _ t _ ht => ?_) (fun _ _ h => h)
  exact ⟨hp, hstarted, hs, hhead, hlive, hl, trans_of (Apart False True) (apart_requeued False.elim False.elim) ht.1,
    (mail_requeued hp hd₁ hplace).apart ht.2⟩

end requeue

theorem chprio_mail (hi : Core ∅ s) (pid newprio : Int) :
    wp (chprio pid newprio) (fun _ t => Apart True True s t ∨ ∃ p x hd l, Moved s t p x hd l) (fun _ => True) s := by
  have refused : ∀ v u, Apart True True s u →
      wp (answer v []) (fun _ t => Apart True True s t ∨ ∃ p x hd l, Moved s t p x hd l) (fun _ => True) u :=
    fun v u h => wp_mono (Respects.after (apart_answer v []) h) (fun _ _ _ h => .inl h) (fun _ _ h => h)
  rw [chprio, wp_bind, wp_getProcessStructOfPid]
  cases hpid : s.pidProcessHashTable pid with
  | none => exact refused _ s (refl_of _ s)
  | some p =>
    obtain ⟨x, hp, -⟩ := hi.table pid p hpid
    dsimp only
    rw [wp_ite]
    refine ⟨fun _ => refused _ s (refl_of _ s), fun _ => ?_⟩
    rw [wp_bind, wp_validate hp, wp_ite]
    refine ⟨fun _ => refused _ s (refl_of _ s), fun hd => ?_⟩
    simp only [wp_bind, wp_deref hp, wp_modifyProc hp]
    set v := newprio.toNat
    have hp1 : (s.mapProc p fun r => { r with prio := v }).heap p = some { x with prio := v } := by simp [hp]
    have h1 : Apart True True s (s.mapProc p fun r => { r with prio := v }) := apart_prio v
    rw [wp_deref hp1]
    -- the process goes back to the list of a head that is not of a message queue
    have rechained : ∀ {d} {k : KernelM Unit}, x.nextPrev = some d → d.queue? = none → Respects (Apart True True) k →
        wp (queueDel p) (fun _ u => wp (queueAdd p d Process.prioField) (fun _ u => wp k (fun _ t =>
          Apart True True s t ∨ ∃ p x hd l, Moved s t p x hd l) (fun _ => True) u) (fun _ => True) u)
          (fun _ => True) (s.mapProc p fun r => { r with prio := v }) := by
      intro d k hn hq hk
      rw [wp_queueDel hp1 hn]
      refine wp_queueAdd_any fun l _ => ?_
      exact wp_mono (hk.after (apart_requeued (fun _ => hq) fun _ => hq)) (fun _ _ _ h => .inl h) (fun _ _ h => h)
    have unlinked : ∀ {Q : Unit → Kernel → Prop}, x.nextPrev = none →
        wp (queueDel p) Q (fun _ => True) (s.mapProc p fun r => { r with prio := v }) :=
      fun hn => (wp_queueDel_none hp1 hn).2 trivial
    have hfits := hi.fits p x hp (by simp)
    have hgiven : x.started = false → x.nextPrev = none := fun hb => by simpa [Process.Fits, hb] using hfits
    cases hs : x.state
    case activatable =>
      simp only [wp_bind]
      cases hb : x.started with
      | false => exact unlinked (hgiven hb)
      | true => exact rechained (by simpa [Process.Fits, hb, hs] using hfits) rfl (apart_scheduleAnswer _ _)
    case blockedIo =>
      simp only [wp_bind]
      cases hb : x.started with
      | false => exact unlinked (hgiven hb)
      | true => exact rechained (by simpa [Process.Fits, hb, hs] using hfits) rfl (apart_answer _ _)
    case blockedQueue =>
      simp only [wp_bind]
      cases hb : x.started with
      | false => exact unlinked (hgiven hb)
      | true =>
        obtain ⟨h, ⟨q, hq⟩, hhead, hplace⟩ : ∃ h : QueueHead, (∃ q, h.queue? = some q) ∧
          x.message.blockedHead = some h ∧
            (x.nextPrev = some h ∨ x.nextPrev = some .activatable ∨ x.nextPrev = none) := by
            simpa [Process.Fits, hb, hs] using hfits
        rw [← or_assoc] at hplace
        refine hplace.elim (fun hplace => ?_) unlinked
        obtain ⟨d, hd⟩ : ∃ d, x.nextPrev = some d := hplace.elim (fun h => ⟨_, h⟩) (fun h => ⟨_, h⟩)
        rw [wp_queueDel hp1 hd, hhead]
        simp only [wp_bind]
        refine wp_touchHead trivial fun hlive => wp_queueAdd_any fun l hl => ?_
        rw [unlink_place hi hp hq hd hplace] at hl
        exact wp_mono (Moved.wp_answer hp hb hs hhead ⟨q, hq, hlive q hq⟩ hd hplace hl _)
          (fun _ _ _ ht => .inr ⟨p, x, h, l, ht⟩) (fun _ _ h => h)
    case actif => exact wp_mono (Respects.after (apart_scheduleAnswer _ _) h1) (fun _ _ _ h => .inl h) (fun _ _ h => h)
    all_goals exact refused _ _ h1

/-! ## `kill` -/

/-- A process that is killed leaves what it was blocked on. -/
inductive Taken (s t : Kernel) (p : Ptr) (x : Process) : Prop where
  | semaphore : x.state = .blockedSemaphore → Apart True False s t → Taken s t p x
  | queue : x.state ≠ .blockedSemaphore → Apart False True s t →
      Mail s t s.allQueues s.msgQueue (fun hd => (s.queue hd).erase p) (fun _ x => x) → Taken s t p x

theorem Taken.apart (h : Taken s u p x) (h' : Apart True True u t) : Taken s t p x := by
  cases h with
  | semaphore hs ha => exact .semaphore hs (trans_of _ ha (h'.weaken id False.elim))
  | queue hs ha hm => exact .queue hs (trans_of _ ha (h'.weaken False.elim id)) (hm.apart (h'.weaken id False.elim))

theorem leaveQueue_mail (hi : Core ∅ s) (hp : s.heap p = some x) :
    wp (leaveQueueProcessIfNeeded p) (fun _ t => Taken s t p x) (fun _ => True) s := by
  rw [leaveQueueProcessIfNeeded, wp_bind, wp_deref hp, wp_ite]
  refine ⟨fun hs => ?_, fun hs => ?_⟩
  · rw [wp_bind]
    refine wp_mono (Respects.run (apart_procKillDiag (M := True) (R := fun _ _ => True)) s) (fun v t _ h => ?_) (fun _ _ h => h)
    rw [wp_ite]
    exact ⟨fun _ => .semaphore hs h, fun _ => .semaphore hs h⟩
  · rw [wp_bind]
    cases hn : x.nextPrev with
    | none => exact (wp_queueDel_none hp hn).2 trivial
    | some d =>
      rw [wp_queueDel hp hn, wp_pure]
      refine .queue hs (.unlink False.elim) (.of_call le_rfl rfl rfl (fun hd _ => ?_) fun q y hy => ?_)
      · rw [unlink_queue]
        by_cases hh : hd = d
        · subst hh
          rw [Function.update_self]
        · rw [Function.update_of_ne hh, List.erase_of_not_mem]
          intro hmem
          obtain ⟨z, hz, hzn⟩ := (hi.mem hd p).1 hmem
          rw [hp] at hz
          cases hz
          exact hh (Option.some.inj (hzn.symm.trans hn))
      · by_cases hq : q = p
        · subst hq
          obtain rfl : _ = y := by simpa [hp] using hy
          exact ⟨x, hp, rfl⟩
        · exact ⟨y, by simpa [hq] using hy, rfl⟩

theorem killOther_mail (hi : Core ∅ s) (hp : s.heap p = some x) (pid : Int) :
    wp (killOther p pid) (fun _ t => Taken s t p x) (fun _ => True) s := by
  rw [killOther]
  refine wp_seq (leaveQueue_mail hi hp) fun v u _ hu => ?_
  rw [wp_ite]
  refine ⟨fun _ => hu, fun _ => ?_⟩
  have rest : Respects (Apart True True) (do
      if (← turnCurrentProcessIntoAZombieOrKillIt false pid) < 0 then pure (-1)
      else
        modifyProc p fun r => { r with returnValue := 0 }
        pure (0 : Int)) :=
    .bind (apart_turn _ _) fun v => .ite (.pure _) (.bind (apart_fields fun _ => rfl) fun _ => .pure _)
  exact wp_mono (rest u) (fun _ t _ ht => hu.apart ht) (fun _ _ h => h)

/-- `kill` of another process that is alive. -/
structure Killed (s t : Kernel) (p : Ptr) (x : Process) : Prop where
  record : s.heap p = some x
  alive : x.state.dead = false
  taken : Taken s t p x
  zombie : ∃ z, t.heap p = some z ∧ z.state = .zombie

/-- The event does not kill a process that is blocked on a message queue. -/
def Unaimed (s : Kernel) (e : Event) : Prop :=
  ∀ p x, e.target s = some p → s.heap p = some x → x.state ≠ .blockedQueue

theorem kill_mail {pid : Int} (hs : Ready s) (hr : Running s c r) (hk : KillsAtEnd s (.syscall (.kill pid))) :
    wp (kill (toInt32 pid)) (fun _ t => (Apart True True s t ∧ Unaimed s (.syscall (.kill pid))) ∨
      ∃ p x, Event.target s (.syscall (.kill pid)) = some p ∧ p ≠ c ∧ Killed s t p x) (fun _ => True) s := by
  have spared : ∀ {k : KernelM Unit}, Respects (Apart True True) k → Unaimed s (.syscall (.kill pid)) →
      wp k (fun _ t => (Apart True True s t ∧ Unaimed s (.syscall (.kill pid))) ∨
        ∃ p x, Event.target s (.syscall (.kill pid)) = some p ∧ p ≠ c ∧ Killed s t p x) (fun _ => True) s :=
    fun hk hu => wp_mono (hk s) (fun _ _ _ h => .inl ⟨h, hu⟩) (fun _ _ h => h)
  unfold kill killWith
  rw [wp_ite]
  refine ⟨fun hid => spared (apart_answer _ _) fun p x hp => ?_, fun hreserved => ?_⟩
  · rw [Event.target, if_pos hid] at hp
    cases hp
  rw [wp_bind, wp_getProcessStructOfPid]
  cases hpid : s.pidProcessHashTable (toInt32 pid) with
  | none =>
    refine spared (apart_answer _ _) fun p x hp => ?_
    rw [Event.target, if_neg hreserved, hpid] at hp
    cases hp
  | some p =>
    obtain ⟨x, hp, hxpid⟩ := hs.inv.table _ p hpid
    have htarget : Event.target s (.syscall (.kill pid)) = some p := by simp [Event.target, hreserved, hpid]
    -- a process that is dead or running is not blocked
    have unaimed : x.state ≠ .blockedQueue → Unaimed s (.syscall (.kill pid)) := by
      intro hx q y hq hy
      rw [htarget] at hq
      cases hq
      rw [hp] at hy
      cases hy
      exact hx
    simp only [wp_bind, wp_validate hp]
    rw [wp_ite]
    refine ⟨fun hd => spared (apart_answer _ _) (unaimed fun hx => ?_), fun hd => ?_⟩
    · simp [hx, ProcessState.dead] at hd
    simp only [wp_bind, wp_deref hp, wp_getpid]
    rw [wp_ite]
    refine ⟨fun hself => spared (apart_exitProcess (k := .killSelf p (toInt32 pid)) 0 rfl (by simp) (by simp)) (unaimed fun hx => ?_),
      fun hne => ?_⟩
    · have hpc := hs.inv.pid_inj hp hr.heap (hself.trans (hr.caller.pid hs.inv.toCore).symm)
      subst hpc
      rw [hr.heap] at hp
      cases hp
      rw [hr.state] at hx
      cases hx
    have hpc : p ≠ c := by
      rintro rfl
      rw [hr.heap] at hp
      cases hp
      exact hne (hr.caller.pid hs.inv.toCore)
    have hdead : x.state.dead = false := by
      cases h : x.state.dead with
      | false => rfl
      | true => simp [h] at hd
    have hidle : s.pidProcessHashTable idleId ≠ some p := by
      intro hi
      obtain ⟨z, hz, hzp⟩ := hs.inv.table _ _ hi
      rw [hp] at hz
      cases hz
      exact hreserved (.inl (hxpid.symm.trans hzp))
    have m : Mid Kind.any s ∅ s c r := hr.mid hs.inv (fun _ _ _ _ _ => trivial) trivial
    have hpass : x.started = true → Passing Kind.any False s p x [] :=
      fun _ => ⟨False.elim, False.elim, False.elim, .inl trivial⟩
    have hzombie : wp (killOther p (toInt32 pid)) (fun _ t => Mid Kind.any s ∅ t c r ∧
        ∃ z, t.heap p = some z ∧ z.state = .zombie) Kind.any.Allows s :=
      m.wp_killOther trivial hs.lineage hp hpid hpc hdead hidle (hk p x htarget hp) (.inl trivial) hpass (.inl trivial)
        (fun _ _ _ _ _ => .inl trivial) trivial fun t z mt _ hz hzs => ⟨mt, z, hz, hzs⟩
    rw [wp_bind]
    refine wp_mono (wp_and (killOther_mail hs.inv.toCore hp _) hzombie) (fun v u _ hu => ?_) (fun _ _ h => h)
    obtain ⟨htaken, mu, z, hz, hzs⟩ := hu
    simp only [answer, saveContext, wp_bind, wp_getCurrentProcess, mu.running.table, wp_modifyProc mu.running.heap]
    refine .inr ⟨p, x, htarget, hpc, hp, hdead, htaken.apart (.mapProc (.context (fun _ => rfl) fun _ h => by cases h) fun _ => ⟨rfl, by simp, rfl⟩), z, ?_,
      hzs⟩
    simp [hpc, hz]

/-! ## The steps -/

/-- The message queue a call of `msgqueue.c` is made for. -/
def Event.onQueue (s : Kernel) : Event → Option QueuePtr
  | .syscall (.psend fid _) => s.queueOf (toInt32 fid)
  | .syscall (.preceive fid _) => s.queueOf (toInt32 fid)
  | .syscall (.preset fid) => s.queueOf (toInt32 fid)
  | .syscall (.pdelete fid) => s.queueOf (toInt32 fid)
  | _ => none

/-- What an event does to the messages. -/
inductive MailStep (s t : Kernel) : Event → Prop where
  | other {e} : e.onQueue s = none → Unaimed s e → Apart True False s t → MailStep s t e
  | psend {fid v c r q m} : Running s c r → s.queueOf (toInt32 fid) = some q → s.msgQueue q = some m →
      SendStep s t c q m (toInt32 v) → MailStep s t (.syscall (.psend fid v))
  | preceive {fid message c r q m} : Running s c r → s.queueOf (toInt32 fid) = some q → s.msgQueue q = some m →
      ReceiveStep s t c q m message → MailStep s t (.syscall (.preceive fid message))
  | preset {fid q m} : s.queueOf (toInt32 fid) = some q → s.msgQueue q = some m →
      Mail s t s.allQueues (Function.update s.msgQueue q (some m.reset)) (emptied s.queue q)
        (flushing (s.queue (.blockedCons q) ++ s.queue (.blockedProd q))) → MailStep s t (.syscall (.preset fid))
  | pdelete {fid q} : s.queueOf (toInt32 fid) = some q →
      Mail s t (Function.update s.allQueues (toInt32 fid).toNat none) (Function.update s.msgQueue q none)
        (emptied s.queue q) (flushing (s.queue (.blockedCons q) ++ s.queue (.blockedProd q))) →
      MailStep s t (.syscall (.pdelete fid))
  | pcreate {count queueOk arrOk} : CreateStep s t → MailStep s t (.syscall (.pcreate count queueOk arrOk))
  | moved {pid newprio p x hd l} : Moved s t p x hd l → MailStep s t (.syscall (.chprio pid newprio))
  | killed {pid c r p x} : Running s c r → Event.target s (.syscall (.kill pid)) = some p → p ≠ c → Killed s t p x →
      MailStep s t (.syscall (.kill pid))

theorem Unaimed.of_none {e : Event} (h : e.target s = none) : Unaimed s e := by
  intro p x hp
  rw [h] at hp
  cases hp

/-- A page fault ends the running process, which is in no list. -/
theorem pageFault_apart (hs : Ready s) : wp pageFault (fun _ t => Apart True True s t) (fun _ => True) s :=
  pageFault_acts s _ _ hs.inv.toCore.named (apart_endRunning.run s)

theorem syscallHandler_mail {sc : Syscall} (hs : Ready s) (hr : Running s c r) (hmode : r.context.mail = false)
    (hk : KillsAtEnd s (.syscall sc)) :
    wp (syscallHandler sc) (fun _ t => MailStep s t (.syscall sc)) (fun _ => True) s := by
  have other : ∀ {k : KernelM Unit} {sc : Syscall}, Event.onQueue s (.syscall sc) = none ∧
      Event.target s (.syscall sc) = none → Respects (Apart True False) k →
      wp k (fun _ t => MailStep s t (.syscall sc)) (fun _ => True) s :=
    fun he h => wp_mono (h s) (fun _ _ _ ht => .other he.1 (.of_none he.2) ht) (fun _ _ h => h)
  have hc := hr.table
  cases sc with
  | start name ssize prio env => exact other ⟨rfl, rfl⟩ (apart_startVirtual _ _ _ _ .all)
  | getpid => exact other ⟨rfl, rfl⟩ (.bind respects_getpid fun _ => apart_answer _ _)
  | getprio pid => exact other ⟨rfl, rfl⟩ (.bind (apart_getprio _) fun _ => apart_answer _ _)
  | chprio pid newprio =>
    refine wp_mono (chprio_mail hs.inv.toCore _ _) (fun _ t _ h => ?_) (fun _ _ h => h)
    rcases h with h | ⟨p, x, hd, l, h⟩
    · exact .other rfl (.of_none rfl) (h.weaken id False.elim)
    · exact .moved h
  | kill pid =>
    refine wp_mono (kill_mail hs hr hk) (fun _ t _ h => ?_) (fun _ _ h => h)
    rcases h with ⟨h, hu⟩ | ⟨p, x, ht, hpc, h⟩
    · exact .other rfl hu (h.weaken id False.elim)
    · exact .killed hr ht hpc h
  | waitpid pid retvalp => exact other ⟨rfl, rfl⟩ (apart_waitpid _ _)
  | exit retval => exact other ⟨rfl, rfl⟩ (apart_exitProcess _ rfl (by simp) (by simp))
  | consRead length => exact other ⟨rfl, rfl⟩ (apart_consRead _ (fun _ _ => trivial) (fun _ => trivial) fun _ _ => trivial)
  | consEcho on => exact other ⟨rfl, rfl⟩ (apart_consEcho _ fun _ _ => trivial)
  | pcount fid count => exact other ⟨rfl, rfl⟩ (apart_pcount _)
  | pcreate count queueOk arrOk =>
    exact wp_mono (pcreate_mail hc _ _ _) (fun _ t _ h => .pcreate h) (fun _ _ h => h)
  | pdelete fid =>
    refine wp_mono (pdelete_mail hc) (fun _ t _ h => ?_) (fun _ _ h => h)
    cases hq : s.queueOf (toInt32 fid) with
    | none => exact .other hq (.of_none rfl) (h.1 hq)
    | some q => exact .pdelete hq (h.2 q hq)
  | preceive fid message =>
    cases hf : s.storeFaults (toInt32 fid) message with
    | true =>
      obtain ⟨u, hu, hfault⟩ := preceiveWith_faults hs.inv.toCore hf
      obtain ⟨hsu, hru⟩ := hs.faulted hr hu
      refine (wp_congr (hfault pageFault)).2 (wp_mono (pageFault_apart hsu) (fun _ t _ h => ?_) (fun _ _ h => h))
      obtain ⟨q, hq⟩ := hu.queue
      -- the process that is killed was in no call
      have hquits : Quits t c := by
        intro y hy hys
        cases hmail : y.context.mail with
        | false => rfl
        | true =>
          obtain ⟨x, hx, hxy⟩ := h.records c y hy ⟨hys, .inl ⟨trivial, .inr hmail⟩⟩
          obtain rfl : r = x := Option.some.inj (hru.heap.symm.trans hx)
          rw [← hxy.mailing trivial hmail, hmode] at hmail
          cases hmail
      obtain ⟨m, hm, hst⟩ := hu.receives hq (h.weaken id False.elim) hquits
      obtain rfl := Kernel.unmapped_of_storeFaults hf
      exact .preceive hr hq hm hst
    | false =>
      refine (wp_congr (preceiveWith_stores pageFault (throw .hang) hf)).2 ?_
      refine wp_mono (preceiveWith_mail hc .hang _) (fun _ t _ h => ?_) (fun _ _ h => h)
      cases hq : s.queueOf (toInt32 fid) with
      | none => exact .other hq (.of_none rfl) (h.1 hq).1
      | some q =>
        obtain ⟨m, hm, hst⟩ := h.2 q hq
        exact .preceive hr hq hm hst
  | preset fid =>
    refine wp_mono (preset_mail hc) (fun _ t _ h => ?_) (fun _ _ h => h)
    cases hq : s.queueOf (toInt32 fid) with
    | none => exact .other hq (.of_none rfl) (h.1 hq)
    | some q =>
      obtain ⟨m, hm, hst⟩ := h.2 q hq
      exact .preset hq hm hst
  | psend fid message =>
    refine wp_mono (psend_mail hc _) (fun _ t _ h => ?_) (fun _ _ h => h)
    cases hq : s.queueOf (toInt32 fid) with
    | none => exact .other hq (.of_none rfl) (h.1 hq).1
    | some q =>
      obtain ⟨m, hm, hst⟩ := h.2 q hq
      exact .psend hr hq hm hst
  | sleep nbrMs => exact other ⟨rfl, rfl⟩ (apart_waitClock _ (fun _ _ _ _ _ _ _ => trivial) fun _ _ _ => trivial)
  | waitClock clock => exact other ⟨rfl, rfl⟩ (apart_waitClock _ (fun _ _ _ _ _ _ _ => trivial) fun _ _ _ => trivial)
  | currentClock => exact other ⟨rfl, rfl⟩ (.bind .get fun _ => apart_answer _ _)
  | scount sem => exact other ⟨rfl, rfl⟩ apart_scount
  | screate count semOk => exact other ⟨rfl, rfl⟩ (apart_screate _ _)
  | sdelete sem => exact other ⟨rfl, rfl⟩ apart_sdelete
  | signal sem => exact other ⟨rfl, rfl⟩ apart_signal
  | signaln sem count => exact other ⟨rfl, rfl⟩ (apart_signaln _)
  | sreset sem count => exact other ⟨rfl, rfl⟩ (apart_sreset _)
  | tryWait sem => exact other ⟨rfl, rfl⟩ apart_tryWait
  | wait sem => exact other ⟨rfl, rfl⟩ apart_wait

theorem resume_apart (hs : Ready s) (hr : Running s c r) :
    wp resume (fun _ t => Apart True True s t) (fun _ => True) s := by
  have hnf := hs.not_final hr
  simp only [resume, wp_bind, wp_getCurrentProcess, hr.table, wp_derefOpt hr.heap]
  cases hctx : r.context with
  | user a => exact (wp_pure ()).2 (refl_of _ s)
  | start p => exact Respects.run apart_startResume s
  | psend => exact Respects.run apart_psendResume s
  | preceive message =>
    exact preceiveResume_acts s _ _ hs.inv.toCore.named (Respects.run (apart_preceiveResumeWith apart_endRunning message) s)
  | wait => exact Respects.run apart_waitResume s
  | waitpidAny retvalp => exact Respects.run (apart_waitpidAny _) s
  | waitpidChild temp before retvalp => exact Respects.run (apart_waitpidChild _ _ _) s
  | consRead length => exact Respects.run (apart_consReadLoop _ (fun _ _ => trivial) (fun _ => trivial) fun _ _ => trivial) s
  | stimer => exact Respects.run (apart_handleStimerInterrupt (k := .user none) rfl (by simp) (by simp) fun _ _ => trivial) s
  | exitProcess => exact absurd (by rw [hctx]; rfl) hnf
  | killSelf p pid => exact absurd (by rw [hctx]; rfl) hnf
  | pageFault p pid => exact absurd (by rw [hctx]; rfl) hnf

/-- Only a system call does anything to a message or a semaphore. -/
theorem Step.apart {e : Event} (h : Step s e t) (hs : Ready s) (he : ∀ sc, e ≠ .syscall sc) : Apart True True s t := by
  have interrupt : wp (step .timer) (fun _ t => Apart True True s t) (fun _ => True) s := by
    simp only [step, wp_bind, wp_get]
    cases s.virt
    · exact Respects.run (apart_handleStimerInterrupt (k := .user none) rfl (by simp) (by simp) fun _ _ => trivial) s
    · exact Respects.run (apart_handleStimerInterrupt (k := .stimer) rfl (by simp) (by simp) fun _ _ => trivial) s
  rcases hs.stage with hb | ⟨c, r, hr⟩
  · have hen := h.1
    cases e with
    | syscall sc => exact absurd rfl (he sc)
    | timer => exact wp_ok interrupt h.2
    | keyboard k => exact wp_ok (Respects.run (apart_handleKeyboardInterrupt k fun _ _ => trivial) s) h.2
    | pageFault => simp [Event.enabled, hb.running] at hen
    | resume =>
      have hcur : s.current = none := by simp [Kernel.current, hb.table_none]
      simp [Event.enabled, Kernel.inUserMode, hcur, hb.running] at hen
  · cases e with
    | syscall sc => exact absurd rfl (he sc)
    | timer => exact wp_ok interrupt h.2
    | keyboard k => exact wp_ok (Respects.run (apart_handleKeyboardInterrupt k fun _ _ => trivial) s) h.2
    | pageFault => exact wp_ok (pageFault_apart hs) h.2
    | resume => exact wp_ok (resume_apart hs hr) h.2

/-- What a step does to the messages. -/
theorem Step.mail {e : Event} (h : Step s e t) (hs : Ready s) (hk : KillsAtEnd s e) : MailStep s t e := by
  cases e with
  | syscall sc =>
    rcases hs.stage with hb | ⟨c, r, hr⟩
    · have hen := h.1
      simp [Event.enabled, hb.running] at hen
    · have hen := h.1
      simp only [Event.enabled, Kernel.inUserMode, hr.current, Bool.and_eq_true] at hen
      refine wp_ok (syscallHandler_mail hs hr ?_ hk) h.2
      cases hctx : r.context <;> simp [hctx, Context.mail] at hen ⊢
  | timer => exact .other rfl (.of_none rfl) ((h.apart hs (by simp)).weaken id False.elim)
  | keyboard k => exact .other rfl (.of_none rfl) ((h.apart hs (by simp)).weaken id False.elim)
  | pageFault => exact .other rfl (.of_none rfl) ((h.apart hs (by simp)).weaken id False.elim)
  | resume => exact .other rfl (.of_none rfl) ((h.apart hs (by simp)).weaken id False.elim)

/-! ## Answers -/

/-- A call after which its process is alive, whether it is blocked or not. -/
def Syscall.mails : Syscall → Bool
  | .psend _ _ => true
  | .preceive _ _ => true
  | .pcount _ _ => true
  | _ => false

/-- The process that made the call is alive after it, unless its store faults. -/
theorem Step.lives {sc : Syscall} (h : Step s (.syscall sc) t) (hs : Ready s) (hr : Running s c r)
    (hsc : sc.mails = true) (hf : Event.storeFaults s (.syscall sc) = false) : Lives t c := by
  have he := h.1
  simp only [Event.enabled, Bool.and_eq_true, decide_eq_true_eq] at he
  have hu := hs.user hr he.2
  have m : Mid Kind.any.still.quiet s ∅ s c r := hr.mid hs.inv (fun _ _ _ _ _ => trivial) trivial
  have alive : Lives s c := ⟨r, hr.heap, hr.started, hr.alive⟩
  have lives : Done Kind.any.still s t → Lives t c := fun hd => hd.chain.lives id alive
  cases sc with
  | psend fid v => exact lives (wp_ok (psend_done m trivial hu _) h.2)
  | preceive fid message =>
    have done : wp (preceiveWith (throw .hang) (toInt32 fid) message) (fun _ t => Done Kind.any.still s t)
        Kind.any.still.Allows s :=
      preceiveWith_done m trivial hu (fun _ _ _ => trivial) (fun _ hd _ => hd) fun _ _ _ => trivial
    have hrun := h.stored (show s.storeFaults (toInt32 fid) message = false from hf) (throw .hang)
    exact lives (wp_ok done hrun)
  | pcount fid count => exact lives (wp_ok (pcount_done m trivial _) h.2)
  | _ => cases hsc

theorem Step.lives_resume (h : Step s .resume t) (hs : Ready s) (hr : Running s c r)
    (hctx : r.context.mail = true) (hf : Event.resume.storeFaults s = false) : Lives t c := by
  have m : Mid Kind.any.still.quiet s ∅ s c r := hr.mid hs.inv (fun _ _ _ _ _ => trivial) trivial
  have alive : Lives s c := ⟨r, hr.heap, hr.started, hr.alive⟩
  have lives : Done Kind.any.still s t → Lives t c := fun hd => hd.chain.lives id alive
  have done : wp resume (fun _ t => Done Kind.any.still s t) Kind.any.still.Allows s := by
    simp only [resume, wp_bind, wp_getCurrentProcess, hr.table, wp_derefOpt hr.heap]
    cases hk : r.context with
    | psend => exact psendResume_done m trivial
    | preceive message =>
      refine preceiveResumeWith_done m trivial (fun _ hd => hd) fun hm hst => ?_
      simp [Event.storeFaults, hr.current, hk, hm, hst] at hf
    | _ =>
      rw [hk] at hctx
      cases hctx
  exact lives (wp_ok done h.2)

/-- A process that is alive goes on where it is to. -/
theorem GoesOn.of_lives {k : Context} (h : GoesOn t c k) (hl : Lives t c) : (t.heap c).map (·.context) = some k := by
  obtain ⟨y, hy, _⟩ := hl
  rw [hy, Option.map_some, h y hy]

end

end Xinul
