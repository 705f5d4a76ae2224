import Xinul.Proofs.Semaphores

/-!
# `chprio`

A process is moved in the list its state field names; the state field of a woken
sleeper names none, and neither does that of a process blocked on a semaphore.
-/

namespace Xinul

open Prog Waiting

section chprio

variable {K : Kind} {H : Set Ptr} {s s₀ : Kernel} {c p : Ptr} {r x : Process} {v : Nat} {d : QueueHead}

/-- What `chprio` of the process with this record, to the priority `v`, needs. -/
structure Kind.Reprio (K : Kind) (x : Process) (v : Nat) : Prop where
  linked : K.assert ∨ x.started = true ∧ (x.state = .blockedQueue → x.nextPrev ≠ none)
  asleep : x.state = .asleep → x.nextPrev = some .activatable → K.reorder ∨ v = x.prio
  semaphore : x.state = .blockedSemaphore → K.reorderSem ∨ v = x.prio

theorem Mid.reprio (m : Mid K s₀ H s c r) (hp : s.heap p = some x) (hcp : c ≠ p)
    (h1 : v = x.prio ∨ K.reorder ∨ x.nextPrev = none ∨ x.nextPrev = some .asleep)
    (h2 : v = x.prio ∨ K.reorderSem ∨ ∀ sem, ¬ WaitsFor H s p sem) :
    Mid K s₀ H (s.mapProc p fun r => { r with prio := v }) c r := by
  refine m.step (.reprio hp h1 h2 (.inr (.inr ?_))) (by simp [hcp]) rfl rfl rfl m.mine
    (m.wakes.mapProc fun _ _ => ⟨rfl, rfl⟩)
  rw [m.running.table]
  exact fun h => hcp (Option.some.inj h)

/-- A priority can as well be written after the process was unchained. -/
theorem mapProc_unlink (s : Kernel) (p : Ptr) (v : Nat) (d : QueueHead) :
    (s.mapProc p fun r => { r with prio := v }).unlink p d =
      (s.unlink p d).mapProc p fun r => { r with prio := v } := by
  simp [Kernel.unlink, Kernel.mapProc, Function.comp_def]

/-- A process is unchained, gets its new priority and is chained again. -/
theorem Mid.wp_rechain {Q : Unit → Kernel → Prop} {d' : QueueHead} (m : Mid K s₀ ∅ s c r)
    (hp : s.heap p = some x) (hl : x.nextPrev = some d)
    (hf : ∀ n, ({ x with prio := v, nextPrev := some d', stamp := n } : Process).Fits s.currentRunningProcessPid)
    (hq : ∀ q, d'.queue? = some q → (s.msgQueue q).isSome)
    (hact : d' = .activatable → x.state = .activatable ∧ K.resched) (hsleep : d' ≠ .asleep)
    (hQ : ∀ t, Mid K s₀ ∅ t c r → Q () t) :
    wp (queueAdd p d' Process.prioField) Q K.Allows ((s.mapProc p fun r => { r with prio := v }).unlink p d) := by
  have hcp := m.ne_of_linked hp hl
  have m1 := m.unlink hp hl
  have hp1 : (s.unlink p d).heap p = some { x with nextPrev := none } := by simp [hp]
  have m2 := m1.reprio (v := v) hp1 hcp (.inr (.inr (.inl rfl))) (.inr (.inr fun sem h => h.1 (by simp)))
  have hp2 : ((s.unlink p d).mapProc p fun r => { r with prio := v }).heap p =
      some { x with nextPrev := none, prio := v } := by simp [hp]
  have hfield : d'.field = Process.prioField := by
    cases d' <;> first | rfl | exact absurd rfl hsleep
  rw [mapProc_unlink]
  refine wp_queueAdd m2.inv.toCore hp2 rfl hfield.symm (hQ _ ?_)
  refine m2.step (.link (by simp) hp2 (hf _) hq (fun h => .inl (hact h).1) (fun h => .inl (hact h).2))
    (by simp [hcp]) rfl rfl rfl (by simp) (m2.wakes.link hsleep)

theorem wp_touchHead {Q : Unit → Kernel → Prop} {E : Fault → Prop} (hE : E .badQueue)
    (h : (∀ q, d.queue? = some q → (s.msgQueue q).isSome) → Q () s) : wp (touchHead d) Q E s := by
  cases d with
  | blockedCons q =>
    rw [touchHead, wp_bind, wp_get]
    cases hq : s.msgQueue q with
    | none => exact hE
    | some v => exact h fun k hk => by cases hk; simp [hq]
  | blockedProd q =>
    rw [touchHead, wp_bind, wp_get]
    cases hq : s.msgQueue q with
    | none => exact hE
    | some v => exact h fun k hk => by cases hk; simp [hq]
  | _ => exact h fun k hk => by cases hk

theorem getprio_done (m : Mid K.quiet s₀ ∅ s c r) (hl : K.resched) (pid : Int) :
    wp (do answer (← getprio pid) []) (fun _ t => Done K s₀ t) K.Allows s := by
  simp only [wp_bind, getprio, wp_getProcessStructOfPid]
  cases hpid : s.pidProcessHashTable pid with
  | none =>
    simp only [validateActionProcessValid, wp_pure, show ((-1 : Int) < 0) by decide, if_true]
    exact m.wp_answer hl _ _
  | some p =>
    obtain ⟨x, hp, -⟩ := m.inv.table pid p hpid
    rw [wp_validate hp, wp_ite]
    refine ⟨fun _ => m.wp_answer hl _ _, fun _ => ?_⟩
    rw [wp_bind, wp_derefOpt hp, wp_pure]
    exact m.wp_answer hl _ _

theorem Kind.Reprio.semaphore_le (h : K.Reprio x v) (hp : s.heap p = some x) :
    v = x.prio ∨ K.reorderSem ∨ ∀ sem, ¬ WaitsFor ∅ s p sem := by
  by_cases hs : x.state = .blockedSemaphore
  · exact (h.semaphore hs).elim (fun h => .inr (.inl h)) .inl
  · exact .inr (.inr fun sem hw => hs (hw.state hp))

/-- A process in no list that `chprio` moves gets its priority where it stands. -/
theorem Mid.wp_reprioAnswer (m : Mid K.quiet s₀ ∅ s c r) (hl : K.resched) (hK : K.Reprio x v) (hp : s.heap p = some x)
    (hpc : p ≠ c) (hplace : x.nextPrev = none ∨ x.nextPrev = some .asleep ∨ x.nextPrev = some .activatable ∧ x.state = .asleep) :
    wp (answer x.prio []) (fun _ t => Done K s₀ t) K.Allows (s.mapProc p fun r => { r with prio := v }) := by
  refine (m.reprio hp hpc.symm ?_ (hK.semaphore_le hp)).wp_answer hl _ _
  obtain hnone | hasleep | ⟨hact, hs⟩ := hplace
  · exact .inr (.inr (.inl hnone))
  · exact .inr (.inr (.inr hasleep))
  · exact (hK.asleep hs hact).elim (fun h => .inr (.inl h)) .inl

/-- The caller's own priority. -/
theorem Mid.wp_reprioSelf (m : Mid K.quiet s₀ ∅ s c r) (hl : K.resched) (w : Int) :
    wp (scheduleAnswer w []) (fun _ t => Done K s₀ t) K.Allows (s.mapProc c fun r => { r with prio := v }) := by
  have hc : s.heap c = some r := m.running.heap
  have hn : r.nextPrev = none := m.unlinked
  have hsem : ∀ sem, ¬ WaitsFor ∅ s c sem := fun sem hw => by simpa [m.running.state] using hw.state hc
  refine scheduleAnswer_done (r := { r with prio := v }) (c := c)
    ((m.chain.mono (Kind.quiet_le hl)).step (.reprio hc (.inr (.inr (.inl hn))) (.inr (.inr hsem)) (.inr (.inl hl))))
    hl ⟨m.running.table, by simp [hc], m.running.started, m.running.user⟩ (by simp [hn])
    ((m.resched hl).wakes.mapProc fun _ _ => ⟨rfl, rfl⟩) m.acts _ _

/-- A process blocked in a message queue goes back to the list its call names, even when a
receiver has taken it out of that list. -/
theorem Mid.wp_requeue {head : QueueHead} {q : QueuePtr} (m : Mid K.quiet s₀ ∅ s c r) (hl : K.resched)
    (hp : s.heap p = some x) (hstarted : x.started = true) (hs : x.state = .blockedQueue)
    (hhead : x.message.blockedHead = some head) (hq : head.queue? = some q) (hlinked : K.assert ∨ x.nextPrev ≠ none) :
    wp (do queueDel p; touchHead head; queueAdd p head Process.prioField; answer x.prio [])
      (fun _ t => Done K s₀ t) K.Allows (s.mapProc p fun r => { r with prio := v }) := by
  have hp1 : (s.mapProc p fun r => { r with prio := v }).heap p = some { x with prio := v } := by simp [hp]
  simp only [wp_bind]
  cases hd : x.nextPrev with
  | none =>
    -- the receiver that took it off its list was killed
    rw [wp_queueDel_none hp1 hd]
    exact hlinked.resolve_right fun h => h hd
  | some d =>
    rw [wp_queueDel hp1 hd]
    -- the queue may be gone when the process was woken and kept its state
    refine wp_touchHead trivial fun hlive => ?_
    refine m.wp_rechain hp hd (fun n => ?_) hlive ?_ ?_ fun t m1 => m1.wp_answer hl _ _
    · simp only [Process.Fits, hstarted, hs, Bool.true_eq_false, if_false]
      exact ⟨head, ⟨q, hq⟩, hhead, .inl rfl⟩
    · rintro rfl
      cases hq
    · rintro rfl
      cases hq

theorem chprio_done (m : Mid K.quiet s₀ ∅ s c r) (hl : K.resched) (pid newprio : Int)
    (hK : ¬ (newprio > maxPrio ∨ newprio < minPrio) →
      ∀ p x, s.pidProcessHashTable pid = some p → s.heap p = some x → K.Reprio x newprio.toNat) :
    wp (chprio pid newprio) (fun _ t => Done K s₀ t) K.Allows s := by
  rw [chprio, wp_bind, wp_getProcessStructOfPid]
  cases hpid : s.pidProcessHashTable pid with
  | none => exact m.wp_answer hl _ _
  | some p =>
    by_cases hrange : newprio > maxPrio ∨ newprio < minPrio
    · simp only [if_pos hrange]
      exact m.wp_answer hl _ _
    obtain ⟨x, hp, -⟩ := m.inv.table pid p hpid
    have hx := hK hrange p x hpid hp
    simp only [if_neg hrange, wp_bind, wp_validate hp]
    by_cases hdead : x.state.dead = true
    · simp only [hdead, if_true, show ((-1 : Int) < 0) by decide]
      exact m.wp_answer hl _ _
    simp only [hdead, Bool.false_eq_true, if_false, show ¬ ((0 : Int) < 0) by decide, wp_bind, wp_deref hp,
      wp_modifyProc hp]
    have hp1 : (s.mapProc p fun r => { r with prio := newprio.toNat }).heap p =
        some { x with prio := newprio.toNat } := by simp [hp]
    rw [wp_deref hp1]
    have hfits := m.inv.fits p x hp (by simp)
    cases hb : x.started with
    | false =>
      -- a record that was given up is in no list to be taken out of
      have hpc : p ≠ c := by
        rintro rfl
        rw [m.running.heap] at hp
        cases hp
        rw [m.running.started] at hb
        cases hb
      have hn : x.nextPrev = none := by simpa [Process.Fits, hb] using hfits
      have unlisted : ∀ {Q : Unit → Kernel → Prop}, wp (queueDel p) Q K.Allows
          (s.mapProc p fun r => { r with prio := newprio.toNat }) :=
        (wp_queueDel_none hp1 hn).2 (hx.linked.resolve_right (by simp [hb]))
      cases hs : x.state
      case activatable => simp only [wp_bind]; exact unlisted
      case blockedQueue => simp only [wp_bind]; exact unlisted
      case blockedIo => simp only [wp_bind]; exact unlisted
      case actif =>
        exact ((m.resched hl).reprio hp hpc.symm (.inr (.inr (.inl hn))) (hx.semaphore_le hp)).wp_scheduleAnswer hl _ _
      all_goals exact m.wp_reprioAnswer hl hx hp hpc (.inl hn)
    | true =>
      have hne : x.state ≠ .actif → p ≠ c := by
        rintro hs rfl
        rw [m.running.heap] at hp
        cases hp
        exact hs m.running.state
      cases hs : x.state <;> simp only [Process.Fits, hb, hs, Bool.true_eq_false, if_false] at hfits
      case activatable =>
        simp only [wp_bind]
        rw [wp_queueDel hp1 hfits]
        exact (m.resched hl).wp_rechain hp hfits (fun n => by simp [Process.Fits, hb, hs])
          (fun q hq => by cases hq) (fun _ => ⟨hs, hl⟩) (by decide) (fun t m1 => m1.wp_scheduleAnswer hl _ _)
      case actif =>
        obtain rfl : p = c := m.inv.pid_inj hp m.running.heap
          (hfits.2.trans (m.running.caller.pid m.inv.toCore).symm)
        exact m.wp_reprioSelf hl _
      case blockedQueue =>
        obtain ⟨head, ⟨q, hq⟩, hhead, -⟩ := hfits
        rw [hhead]
        exact m.wp_requeue hl hp hb hs hhead hq (hx.linked.imp_right fun h => h.2 hs)
      case blockedIo =>
        simp only [wp_bind]
        rw [wp_queueDel hp1 hfits]
        exact m.wp_rechain hp hfits (fun n => by simp [Process.Fits, hb, hs]) (fun q hq => by cases hq)
          (fun h => by cases h) (by decide) (fun t m1 => m1.wp_answer hl _ _)
      case asleep =>
        exact m.wp_reprioAnswer hl hx hp (hne (by simp [hs])) (.inr (hfits.imp_right fun h => ⟨h, hs⟩))
      case blockedSemaphore => exact m.wp_reprioAnswer hl hx hp (hne (by simp [hs])) (.inl hfits)
      case blockedWaitChild => exact m.wp_reprioAnswer hl hx hp (hne (by simp [hs])) (.inl hfits)
      all_goals exact absurd (by rw [hs]; rfl) hdead

end chprio

end Xinul
