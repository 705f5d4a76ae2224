import Xinul.Runs.Answering
import Xinul.Runs.Families

/-!
# Processes that wait for their children

The runs are those of the family: a process that ends has no living child, and no call of
`start_virtual` fails too late.
-/

namespace Xinul

open Prog Machine

/-- The process the event ends if it is alive, and the value `waitpid` is to store for it. -/
def Event.exits (s : Kernel) : Event → Option (Ptr × Int)
  | .syscall (.exit retval) => s.caller.map (·, toInt32 retval)
  | e => (e.victim s).map (·, 0)

/-- What a step does to who has ended and who waits for a child. -/
inductive Moves (s : Kernel) (e : Event) (t : Kernel) : Prop where
  | starts : Starts s t → Moves s e t
  | blocks {c k} : s.caller = some c → Blocks s c k t → Moves s e t
  | ends {p v x} : e.exits s = some (p, v) → s.heap p = some x → x.state.dead = false → Departs s p x.parent t →
      Departing p v t → Moves s e t

section moves

variable {s₀ s t : Kernel} {e : Event} {c p q : Ptr} {r x y : Process}

theorem Moves.unmoved (h : Unmoved s t) : Moves s e t := .starts fun p y hy => .inl (h p y hy)

/-- The running process ends, nothing that matters having happened since `s₀`. -/
theorem wp_exit_moves {k : Context} {v : Int} (h0 : Unmoved s₀ s) (hs : Ready s) (hfam : Family s) (hr : Running s c r)
    (hu : s.pidProcessHashTable idleId ≠ some c) (hn : s.NoLivingChild c) (he : e.exits s₀ = some (c, v))
    (hc : s₀.heap c = some r) : wp (exitProcess v k) (fun _ t => Moves s₀ e t) (fun _ => True) s := by
  have m : Mid .any s ∅ s c r := hr.mid hs.inv (fun _ _ _ _ _ => trivial) trivial
  obtain ⟨cs, hpass⟩ := hfam.passing (K := .any) hr.heap hr.started hr.alive hn (.inl trivial)
  have still := m.wp_turnSelf trivial trivial hu hs.lineage hpass
    (Q := fun _ t => t.pidProcessHashTable t.currentRunningProcessPid = some c) fun _ _ d _ => d.table
  have still' := wp_mono still (fun _ _ _ h => h) fun (_ : Fault) _ _ => trivial
  refine wp_mono (wp_exitProcess_leaves hr still') (fun _ t _ h => ?_) (fun _ _ h => h)
  exact .ends he hc hr.alive (h.1.after h0) h.2

/-- `kill`, what follows it leaving everything alone. -/
theorem wp_killWith_moves {pid : Int} {after : Ptr → Context} {finish : Int → KernelM Unit} (h0 : Unmoved s₀ s) (hs : Ready s)
    (hfam : Family s) (hr : Running s c r) (hu : s.pidProcessHashTable idleId ≠ some c)
    (hfin : ∀ v, Respects Unmoved (finish v))
    (ends : ∀ p x, ¬ (pid = idleId ∨ pid = kernelId) → s.pidProcessHashTable pid = some p → s.heap p = some x →
      x.state.dead = false → e.exits s₀ = some (p, 0) ∧ s₀.heap p = some x ∧ s.NoLivingChild p ∧
        (p ≠ c → x.state = .blockedSemaphore → s.AtEnd x.semaphoreId p)) :
    wp (killWith pid after finish) (fun _ t => Moves s₀ e t) (fun _ => True) s := by
  have m : Mid .any s ∅ s c r := hr.mid hs.inv (fun _ _ _ _ _ => trivial) trivial
  have fails : ∀ v, wp (finish v) (fun _ t => Moves s₀ e t) (fun _ => True) s := fun v =>
    wp_mono ((hfin v).run s) (fun _ _ _ h => .unmoved (trans_of Unmoved h0 h)) (fun _ _ h => h)
  unfold killWith
  by_cases hreserved : pid = idleId ∨ pid = kernelId
  · rw [if_pos hreserved]
    exact fails _
  rw [if_neg hreserved, wp_bind, wp_getProcessStructOfPid]
  cases hpid : s.pidProcessHashTable pid with
  | none => exact fails _
  | some p =>
    obtain ⟨x, hp, hxpid⟩ := hs.inv.table pid p hpid
    simp only [wp_bind, wp_validate hp]
    by_cases hdead : x.state.dead = true
    · simp only [hdead, if_true, show ((-1 : Int) < 0) by decide]
      exact fails _
    simp only [hdead, Bool.false_eq_true, if_false, show ¬ ((0 : Int) < 0) by decide, wp_bind, wp_deref hp, wp_getpid]
    obtain ⟨he, hp0, hn, hend⟩ := ends p x hreserved hpid hp (by simpa using hdead)
    by_cases hpc : p = c
    · subst hpc
      obtain rfl : r = x := Option.some.inj (hr.heap.symm.trans hp)
      rw [if_pos (hr.caller.pid hs.inv.toCore)]
      exact wp_exit_moves h0 hs hfam hr hu hn he hp0
    · have hne : x.pid ≠ s.currentRunningProcessPid := fun he => hpc
        (hs.inv.pid_inj hp hr.heap (he.trans (hr.caller.pid hs.inv.toCore).symm))
      have left := m.wp_leaveQueue hp hpc (by simpa using hdead) (hend hpc) (.inl trivial)
        (Q := fun _ t => t.pidProcessHashTable pid = some p) fun t y _ hl => by rw [hl.table, hpid]
      have left' := wp_mono left (fun _ _ _ h => h) fun (_ : Fault) _ _ => trivial
      simp only [if_neg hne, wp_bind]
      refine wp_mono (wp_killOther_leaves hp left') (fun v u _ h => ?_) (fun _ _ h => h)
      refine wp_mono ((hfin v).run u) (fun _ t _ ht => ?_) (fun _ _ h => h)
      rcases h with hu | ⟨hl, hv⟩
      · exact .unmoved (trans_of Unmoved h0 (trans_of Unmoved hu ht))
      · exact .ends he hp0 (by simpa using hdead) ((hl.next ht).after h0) (hv.next ht)

/-- `strap_handler` kills the running process. -/
theorem wp_pageFault_moves (h0 : Unmoved s₀ s) (hs : Ready s) (hfam : Family s) (hr : Running s c r)
    (hu : s.pidProcessHashTable idleId ≠ some c) (hn : s.NoLivingChild c) (he : e.exits s₀ = some (c, 0))
    (hc : s₀.heap c = some r) : wp pageFault (fun _ t => Moves s₀ e t) (fun _ => True) s := by
  rw [pageFault, wp_bind, wp_getpid]
  refine wp_killWith_moves h0 hs hfam hr hu (fun _ => unmoved_schedule) fun p x _ hp hx _ => ?_
  obtain rfl : c = p := Option.some.inj (hr.table.symm.trans hp)
  obtain rfl : r = x := Option.some.inj (hr.heap.symm.trans hx)
  exact ⟨he, hc, hn, fun h => absurd rfl h⟩

/-- A producer that `preceive` took off its list goes on as it was to. -/
theorem Kernel.Faulted.unmoved {fid : Int} {u : Kernel} (h : s.Faulted fid u) : Unmoved s u := by
  intro q y hy
  obtain heap | ⟨p, x, d, hp, -, heap⟩ := h.heap
  · exact ⟨y, heap ▸ hy, .refl y⟩
  · rw [heap] at hy
    rcases heap_update_cases hy with ⟨rfl, hv⟩ | ⟨_, hy⟩
    · cases hv
      exact ⟨x, hp, ⟨rfl, rfl, rfl, id, id⟩⟩
    · exact ⟨y, hy, .refl y⟩

/-- The running process goes on after an interrupt or in a call that it is in. -/
theorem wp_resume_moves (hs : Ready s) (hfam : Family s) (hall : AllStarted s) (hC : NoneLeft s .resume) (hr : Running s c r)
    (hnf : r.context.final ≠ true) : wp resume (fun _ t => Moves s .resume t) (fun _ => True) s := by
  simp only [resume, wp_bind, wp_getCurrentProcess, hr.table, wp_derefOpt hr.heap]
  have still : ∀ {k : KernelM Unit}, Respects Unmoved k → wp k (fun _ t => Moves s .resume t) (fun _ => True) s := fun hk =>
    wp_mono (hk.run s) (fun _ _ _ h => .unmoved h) (fun _ _ h => h)
  have blocks : ∀ {k : KernelM Unit}, wp k (fun _ t => Unmoved s t ∨ ∃ k, Blocks s c k t) (fun _ => True) s →
      wp k (fun _ t => Moves s .resume t) (fun _ => True) s := by
    intro k hk
    refine wp_mono hk (fun _ _ _ h => ?_) (fun _ _ h => h)
    rcases h with h | ⟨k, h⟩
    · exact .unmoved h
    · exact .blocks hr.table h
  cases hctx : r.context with
  | user a => exact still (.pure ())
  | start q => exact still (.bind (respects_deref q) fun _ => unmoved_answer _ _)
  | psend => exact still unmoved_psendResume
  | preceive message =>
    by_cases hfault : message = .unmapped ∧ r.message.status = .received
    · have hf : Event.resume.storeFaults s = true := by simp [Event.storeFaults, hr.current, hctx, hfault]
      have hv : Event.resume.victim s = some c := by simp [Event.victim, hf, hr.table]
      refine (wp_congr (hr.preceiveResume_faults hfault)).2 ?_
      exact wp_pageFault_moves (refl_of Unmoved s) hs hfam hr (hs.resumes hr (by simp [hctx, Context.interrupted]))
        (hC.heirs c r hv hr.heap hr.alive) (by simp [Event.exits, hv]) hr.heap
    · refine (wp_congr (hr.preceiveResume_stores pageFault (pure ()) hfault)).2 ?_
      exact still (unmoved_preceiveResumeWith (.pure ()) message)
  | wait => exact still unmoved_waitResume
  | waitpidAny retvalp =>
    obtain ⟨cs, hcs⟩ := hfam.children c r hr.heap hr.started hr.alive
    exact blocks (wp_waitpidAny_moves hr hcs hall retvalp)
  | waitpidChild temp before retvalp => exact blocks (wp_waitpidChild_moves hr retvalp)
  | consRead length => exact still (unmoved_consReadLoop length)
  | stimer => exact still unmoved_handleStimerInterrupt
  | exitProcess => exact absurd (by rw [hctx]; rfl) hnf
  | killSelf p pid => exact absurd (by rw [hctx]; rfl) hnf
  | pageFault p pid => exact absurd (by rw [hctx]; rfl) hnf

/-- What a step of a run of the family does. -/
theorem Step.moves (hs : Ready s) (hfam : Family s) (hall : AllStarted s) (hC : NoneLeft s e) (hst : Step s e t) :
    Moves s e t := by
  have plain : ∀ {k : KernelM Unit}, Respects Unmoved k → k s = .ok ((), t) → Moves s e t := fun hk h =>
    .unmoved (wp_ok (hk.run s) h)
  obtain ⟨hen, hrun⟩ := id hst
  cases e with
  | timer => exact plain (.bind .get fun _ => unmoved_handleStimerInterrupt) hrun
  | keyboard k => exact plain (unmoved_handleKeyboardInterrupt k) hrun
  | pageFault =>
    simp only [Event.enabled, Bool.and_eq_true, decide_eq_true_eq] at hen
    obtain ⟨c, r, hr⟩ : ∃ c r, Running s c r := by
      refine hs.stage.resolve_left fun hb => ?_
      exact hen.1.2 hb.running
    have hu := hs.user hr hen.2
    have spec : wp pageFault (fun _ t => Moves s .pageFault t) (fun _ => True) s :=
      wp_pageFault_moves (refl_of Unmoved s) hs hfam hr hu (hC.heirs c r hr.table hr.heap hr.alive)
        (by simp [Event.exits, Event.victim, hr.table]) hr.heap
    exact wp_ok spec hrun
  | resume =>
    obtain ⟨c, r, hr⟩ := hs.running_of_resume hst
    exact wp_ok (wp_resume_moves hs hfam hall hC hr (hs.not_final hr)) hrun
  | syscall sc =>
    obtain ⟨c, r, hr⟩ := hs.running_of_syscall hst
    have hu := hs.user hr (by simp only [Event.enabled, Bool.and_eq_true, decide_eq_true_eq] at hen; exact hen.2)
    have m : Mid .any s ∅ s c r := hr.mid hs.inv (fun _ _ _ _ _ => trivial) trivial
    have hcall : syscallHandler sc s = .ok ((), t) := hrun
    cases sc with
    | start name ssize prio env => exact .starts (wp_ok (wp_startVirtual_starts m name ssize _ env) hrun)
    | kill pid =>
      have spec : wp (kill (toInt32 pid)) (fun _ t => Moves s (.syscall (.kill pid)) t) (fun _ => True) s := by
        rw [kill]
        refine wp_killWith_moves (refl_of Unmoved s) hs hfam hr hu (fun _ => unmoved_answer _ _) fun p x hres hp hx hd => ?_
        have ht : Event.target s (.syscall (.kill pid)) = some p := by simp only [Event.target, if_neg hres, hp]
        refine ⟨?_, hx, hC.heirs p x ht hx hd, fun _ => hC.ends p x ht hx⟩
        show (Event.target s (.syscall (.kill pid))).map (·, (0 : Int)) = some (p, 0)
        rw [ht]
        rfl
      exact wp_ok spec hrun
    | waitpid pid retvalp =>
      obtain ⟨cs, hcs⟩ := hfam.children c r hr.heap hr.started hr.alive
      have spec := wp_waitpid_moves hr hcs hall (toInt32 pid) retvalp
      rcases wp_ok spec hrun with h | ⟨k, h⟩
      · exact .unmoved h
      · exact .blocks hr.table h
    | exit retval =>
      have hn := hC.heirs c r hr.table hr.heap hr.alive
      have he : Event.exits s (.syscall (.exit retval)) = some (c, toInt32 retval) := by
        simp [Event.exits, Kernel.caller, hr.table]
      exact wp_ok (wp_exit_moves (refl_of Unmoved s) hs hfam hr hu hn he hr.heap) hrun
    | preceive fid message =>
      cases hf : s.storeFaults (toInt32 fid) message with
      | false => exact plain (unmoved_preceiveWith (.pure ()) message) (hst.stored hf (pure ()))
      | true =>
        -- the process is killed where its call has got to
        obtain ⟨u, c', r', hfaulted, hsu, hr', hru, hstu⟩ := hst.storeFaulted hs hf
        have hv : Event.victim s (.syscall (.preceive fid message)) = some c' := by simp [Event.victim, hf, hr'.table]
        obtain ⟨rfl, rfl⟩ := hr.unique hr'
        exact wp_ok (wp_pageFault_moves hfaulted.unmoved hsu (hfam.alike hfaulted.alike) hru (by rwa [hfaulted.table])
          ((hC.heirs c r hv hr.heap hr.alive).alike hfaulted.alike) (by simp [Event.exits, hv]) hr.heap) hstu.2
    | _ => exact plain (unmoved_syscallHandler (by rfl)) hcall

/-- `kill` of a process that waits for a child runs into the assertion of `queue_del`. -/
theorem Step.target_not_waiting (hs : Ready s) (hst : Step s e t) (ht : e.target s = some p) (hp : s.heap p = some x)
    (hx : x.started = true) : x.state ≠ .blockedWaitChild := by
  intro hw
  obtain ⟨pid, rfl⟩ : ∃ pid, e = .syscall (.kill pid) := by
    unfold Event.target at ht
    split at ht
    · exact ⟨_, rfl⟩
    · cases ht
  obtain ⟨c, r, hr⟩ := hs.running_of_syscall hst
  have hn : x.nextPrev = none := by
    have := hs.inv.fits p x hp (by simp)
    simpa [Process.Fits, hx, hw] using this
  simp only [Event.target] at ht
  split at ht
  · cases ht
  next hres =>
    have hne : x.pid ≠ s.currentRunningProcessPid := by
      intro he
      have hpc := hs.inv.pid_inj hp hr.heap (he.trans (hr.caller.pid hs.inv.toCore).symm)
      subst hpc
      rw [hr.heap] at hp
      cases hp
      rw [hr.state] at hw
      cases hw
    have spec : wp (kill (toInt32 pid)) (fun _ _ => False) (fun _ => True) s := by
      rw [kill, killWith, if_neg hres, wp_bind, wp_getProcessStructOfPid, ht]
      simp only [wp_bind, wp_validate hp, hw, ProcessState.dead, Bool.false_eq_true, if_false, show ¬ ((0 : Int) < 0) by decide,
        wp_deref hp, wp_getpid, if_neg hne, killOther, leaveQueueProcessIfNeeded, reduceCtorEq]
      exact (wp_queueDel_none hp hn).2 trivial
    exact wp_ok spec hst.2

end moves

/-! ## No wake-up is lost -/

/-- Whoever waits for a child does so in `waitpid`, and for none that has already ended. -/
def Heeded (s : Kernel) : Prop :=
  ∀ p x, s.heap p = some x → x.state = .blockedWaitChild →
    x.context.waiting = true ∧ ∀ q y, s.heap q = some y → x.context.Awaits p q y → y.state ≠ .zombie

section heeded

variable {s t : Kernel} {e : Event} {p q : Ptr} {x y : Process} {k : Context}

theorem Boot.heeded (h : Boot s) : Heeded s := by
  intro p x hp hw
  rw [(h.booting.processes p x hp).2] at hw
  cases hw

theorem Context.Awaits.back (h : k.Awaits p q y) (hpar : y.parent = x.parent) : k.Awaits p q x := by
  rcases h with ⟨hk, hp⟩ | h
  · exact .inl ⟨hk, hpar.symm.trans hp⟩
  · exact .inr h

theorem Heeded.step (hs : Ready s) (hfam : Family s) (hall : AllStarted s) (hC : NoneLeft s e) (hst : Step s e t)
    (hallt : AllStarted t) (h : Heeded s) : Heeded t := by
  intro p z hz hw
  -- a process that waited before goes on waiting in the same call
  have before : ∀ x, s.heap p = some x → x.state = .blockedWaitChild → z.context = x.context := by
    intro x hx hxw
    have hxs := hall p x hx
    have hc : s.caller ≠ some p := by
      intro hc
      obtain ⟨r, hr⟩ := hs.running_of_caller hc
      rw [hr.heap] at hx
      cases hx
      rw [hr.state] at hxw
      cases hxw
    obtain ⟨z', hz', -, hund⟩ := hst.undisturbed hs hC.ends hx hxs (by rw [hxw]; rfl) hc
      fun ht => hst.target_not_waiting hs ht hx hxs hxw
    rw [hz] at hz'
    cases hz'
    exact hund.1
  -- and the children it could be answered for have ended no more than before
  have old : ∀ x, s.heap p = some x → x.Uneventful z → (∀ q y, t.heap q = some y → y.state = .zombie →
      x.context.Awaits p q y → ∃ y', s.heap q = some y' ∧ y'.Uneventful y) →
      z.context.waiting = true ∧ ∀ q y, t.heap q = some y → z.context.Awaits p q y → y.state ≠ .zombie := by
    intro x hx hxz hold
    have hxw := hxz.waits hw
    obtain ⟨hctx, hkids⟩ := h p x hx hxw
    rw [before x hx hxw]
    refine ⟨hctx, fun q y hy haw hzomb => ?_⟩
    obtain ⟨y', hy', hyy⟩ := hold q y hy hzomb haw
    exact hkids q y' hy' (haw.back hyy.parent) (hyy.zombie hzomb)
  cases hst.moves hs hfam hall hC with
  | starts hmoves =>
    have back : ∀ q y, t.heap q = some y → y.state = .zombie ∨ y.state = .blockedWaitChild →
        ∃ x, s.heap q = some x ∧ x.Uneventful y := by
      intro q y hy hst
      refine (hmoves q y hy).resolve_right fun hnew => ?_
      obtain ⟨hnz, hnw⟩ := hnew.2 (hallt q y hy)
      exact hst.elim hnz hnw
    obtain ⟨x, hx, hxz⟩ := back p z hz (.inr hw)
    exact old x hx hxz fun q y hy hzomb _ => back q y hy (.inl hzomb)
  | @blocks c k hc hb =>
    by_cases hpc : p = c
    · subst hpc
      obtain ⟨rfl, -, -⟩ := hb.self z hz
      refine ⟨hb.waiting, fun q y hy haw hzomb => ?_⟩
      have hq : q ≠ p := by
        rintro rfl
        exact (hb.self y hy).2.1 hzomb
      obtain ⟨y', hy', hyy⟩ := hb.others q y hq hy
      exact hb.unmet q y' hy' (haw.back hyy.parent) (hyy.zombie hzomb)
    · obtain ⟨x, hx, hxz⟩ := hb.others p z hpc hz
      refine old x hx hxz fun q y hy hzomb _ => hb.others q y ?_ hy
      rintro rfl
      exact (hb.self y hy).2.1 hzomb
  | @ends v n w he hv hd hl hval =>
    have hpv : p ≠ v := by
      rintro rfl
      exact (hl.self z hz).2 hw
    obtain ⟨x, hx, hxz⟩ := hl.others p z hpv hz
    have hxw := hxz.waits hw
    refine old x hx hxz fun q y hy _ haw => hl.others q y ?_ hy
    -- the parent of the process that ended was woken
    rintro rfl
    refine hl.parent p z ?_ hz hw
    rcases haw with ⟨-, hpar⟩ | ⟨b, v, hk⟩
    · exact (hl.self y hy).1.symm.trans hpar
    · obtain ⟨cs, hcs, hb⟩ := hfam.waits p x q b v hx (hall p x hx) (by rw [hxw]; rfl) hk
      obtain ⟨w', hw', -, hpar⟩ := (hcs.mem q).1 hb.mem.1
      rw [hv] at hw'
      cases hw'
      exact hpar

end heeded

/-- In every run of the family a process that waits for a child waits in `waitpid`, and no
child it could be answered for has ended: whoever ended woke it. -/
theorem no_wake_up_lost {s : Kernel} (hs : Reached NoneLeft s) {p : Ptr} {x : Process} (hp : s.heap p = some x)
    (hw : x.state = .blockedWaitChild) :
    x.context.waiting = true ∧ ∀ q y, s.heap q = some y → x.context.Awaits p q y → y.state ≠ .zombie := by
  have both : (Ready s ∧ Family s ∧ AllStarted s) ∧ Heeded s := by
    refine hs.invariant (I := fun s => (Ready s ∧ Family s ∧ AllStarted s) ∧ Heeded s)
      (fun _ h => ⟨⟨h.ready, h.family, h.allStarted⟩, h.heeded⟩) fun s e t hi hc hst => ?_
    obtain ⟨⟨hready, hfam, hall⟩, hheed⟩ := hi
    have ho := hst.outcome hready (hc.admits hfam) (fun _ => hfam) (G := True) fun _ => ⟨hall, hc.born⟩
    exact ⟨⟨ho.ready hready, ho.family trivial, ho.started trivial⟩,
      hheed.step hready hfam hall hc hst (ho.started trivial)⟩
  exact both.2 p x hp hw

/-- The shell waits for its child. -/
theorem no_wake_up_lost_shell : ∃ s x, Reached NoneLeft s ∧ s.heap 1 = some x ∧ x.state = .blockedWaitChild ∧
    x.context.waiting = true ∧ ∀ q y, s.heap q = some y → x.context.Awaits 1 q y → y.state ≠ .zombie := by
  have hrun : (run boot [.timer, startShell 1, .syscall (.waitpid (-1) true)]).bind
      (fun s => (s.heap 1).map (·.state)) = some .blockedWaitChild := by decide +kernel
  have hcond : ∀ u, ∀ e ∈ [.timer, startShell 1, .syscall (.waitpid (-1) true)], NoneLeft u e := by
    intro u e he
    simp only [List.mem_cons, List.not_mem_nil, or_false] at he
    rcases he with rfl | rfl | rfl
    · exact .of_none rfl rfl id
    · exact .of_none rfl rfl fun h => absurd h.2.2.2.2.2 (by decide)
    · exact .of_none rfl rfl id
  obtain ⟨s, hs, hval⟩ := reached_of_run hcond hrun
  obtain ⟨x, hx, hw⟩ := Option.map_eq_some_iff.1 hval
  exact ⟨s, x, hs, hx, hw, no_wake_up_lost hs hx hw⟩

/-! ## The values of the ended -/

/-- Who has ended and the value it left, noted along a run. -/
def noteExit (s : Kernel) (e : Event) (n : Ptr → Option Int) : Ptr → Option Int :=
  match e.exits s with
  | some (p, v) => if (s.heap p).any (fun x => !x.state.dead) then Function.update n p (some v) else n
  | none => n

/-- The children the `waitpid` that runs in the event is about, and whether it stores the value. -/
def Event.awaits (s : Kernel) : Event → Option ((Ptr → Process → Prop) × Bool)
  | .syscall (.waitpid pid retvalp) => some (fun _ y => toInt32 pid < 0 ∨ y.pid = toInt32 pid, retvalp)
  | .resume => s.current.bind fun r => match r.context with
    | .waitpidAny retvalp => some (fun _ _ => True, retvalp)
    | .waitpidChild temp _ retvalp => some (fun p _ => p = temp, retvalp)
    | _ => none
  | _ => none

/-- A zombie keeps the value that was noted. -/
def Told (n : Ptr → Option Int) (s : Kernel) : Prop :=
  ∀ p x, s.heap p = some x → x.state = .zombie → n p = some x.returnValue

section told

variable {s t : Kernel} {e : Event} {p : Ptr} {x : Process} {n : Ptr → Option Int} {v : Int}

theorem noteExit_of_dead (hp : s.heap p = some x) (hd : x.state.dead = true) : noteExit s e n p = n p := by
  unfold noteExit
  cases e.exits s with
  | none => rfl
  | some f =>
    obtain ⟨q, v⟩ := f
    by_cases ha : (s.heap q).any (fun x => !x.state.dead) = true
    · have hne : p ≠ q := by
        rintro rfl
        simp [hp, hd] at ha
      simp only [if_pos ha, Function.update_of_ne hne]
    · simp only [if_neg ha]

theorem noteExit_of_exits (he : e.exits s = some (p, v)) (hp : s.heap p = some x) (hd : x.state.dead = false) :
    noteExit s e n p = some v := by
  simp [noteExit, he, hp, hd]

theorem Told.step (hs : Ready s) (hfam : Family s) (hall : AllStarted s) (hC : NoneLeft s e) (hst : Step s e t)
    (hallt : AllStarted t) (h : Told n s) : Told (noteExit s e n) t := by
  intro p z hz hzomb
  -- a process that had ended before
  have before : ∀ x, s.heap p = some x → x.Uneventful z → noteExit s e n p = some z.returnValue := by
    intro x hx hxz
    have hxe := hxz.zombie hzomb
    rw [noteExit_of_dead hx (by rw [hxe]; rfl), h p x hx hxe, hxz.returnValue]
  cases hst.moves hs hfam hall hC with
  | starts hmoves =>
    rcases hmoves p z hz with ⟨x, hx, hxz⟩ | ⟨-, hnew⟩
    · exact before x hx hxz
    · exact absurd hzomb (hnew (hallt p z hz)).1
  | @blocks c k hc hb =>
    by_cases hpc : p = c
    · subst hpc
      exact absurd hzomb (hb.self z hz).2.1
    · obtain ⟨x, hx, hxz⟩ := hb.others p z hpc hz
      exact before x hx hxz
  | @ends v w y he hv hd hl hval =>
    by_cases hpv : p = v
    · subst hpv
      rw [noteExit_of_exits he hv hd, hval z hz hzomb]
    · obtain ⟨x, hx, hxz⟩ := hl.others p z hpv hz
      exact before x hx hxz

/-- What holds along the noted runs of the family. -/
theorem Noted.told (h : Noted Boot Step NoneLeft (fun _ => none) noteExit s n) : Told n s := by
  induction h with
  | init hb =>
    intro p x hp hz
    rw [(hb.booting.processes p x hp).2] at hz
    cases hz
  | step hprev hc hst ih =>
    obtain ⟨hready, hfam, hall⟩ := NoneLeft.reached hprev.reach
    have ho := hst.outcome hready (hc.admits hfam) (fun _ => hfam) (G := True) fun _ => ⟨hall, hc.born⟩
    exact ih.step hready hfam hall hc hst (ho.started trivial)

end told

/-- A call of `waitpid`, or its going on after a wait, answers for the first child in the list
that it is about and that has ended, with the value this child gave to `exit` (0 when it was
killed), and frees it. When none has ended it goes on waiting, and a call that is about no
child returns -1. -/
theorem waitpid_answers {s t : Kernel} {e : Event} {n : Ptr → Option Int} {wanted : Ptr → Process → Prop} {retvalp : Bool}
    (hn : Noted Boot Step NoneLeft (fun _ => none) noteExit s n) (hst : Step s e t)
    (he : e.awaits s = some (wanted, retvalp)) :
    ∃ c r cs, Running s c r ∧ Children s c r cs ∧ Waited s c cs wanted retvalp t ∧
      (∀ q x, s.heap q = some x → x.state = .zombie → n q = some x.returnValue) ∧
      (e = .resume ∨ (∃ a ∈ cs, ∃ y, s.heap a = some y ∧ wanted a y) ∨ Answers t c (-1) []) := by
  obtain ⟨hready, hfam, hall⟩ := NoneLeft.reached hn.reach
  have htold := Noted.told hn
  unfold Event.awaits at he
  split at he
  · next pid v =>
    obtain ⟨c, r, hr⟩ := hready.running_of_syscall hst
    obtain ⟨cs, hcs⟩ := hfam.children c r hr.heap hr.started hr.alive
    cases he
    have spec := wp_ok (wp_waitpid_waited hready hr hcs hall (toInt32 pid) retvalp) hst.2
    exact ⟨c, r, cs, hr, hcs, spec.1, htold, .inr spec.2⟩
  · obtain ⟨c, r, hr⟩ := hready.running_of_resume hst
    obtain ⟨cs, hcs⟩ := hfam.children c r hr.heap hr.started hr.alive
    refine ⟨c, r, cs, hr, hcs, ?_, htold, .inl rfl⟩
    have hrun := hst.2
    simp only [hr.current, Option.bind_some] at he
    split at he
    · next v hctx =>
      cases he
      have spec : wp resume (fun _ t => Waited s c cs (fun _ _ => True) retvalp t) (fun _ => True) s := by
        simp only [resume, wp_bind, wp_getCurrentProcess, hr.table, wp_derefOpt hr.heap, hctx]
        exact wp_waitpidAny_waited hready hr hcs hall retvalp
      exact wp_ok spec hrun
    · next q b v hctx =>
      cases he
      have hq : q ∈ cs := by
        obtain ⟨cs', hcs', hb⟩ := hfam.waits c r q b retvalp hr.heap hr.started hr.alive hctx
        exact (hcs.mem q).2 ((hcs'.mem q).1 hb.mem.1)
      have spec : wp resume (fun _ t => Waited s c cs (fun a _ => a = q) retvalp t) (fun _ => True) s := by
        simp only [resume, wp_bind, wp_getCurrentProcess, hr.table, wp_derefOpt hr.heap, hctx]
        exact wp_waitpidChild_waited hready hr hcs hq retvalp
      exact wp_ok spec hrun
    · cases he
  · cases he

/-- The child of the shell exits with 7; the shell calls `waitpid` and reads this. -/
theorem waitpid_answers_shell : ∃ s t n c r cs, Noted Boot Step NoneLeft (fun _ => none) noteExit s n ∧ n 2 = some 7 ∧
    Step s (.syscall (.waitpid (-1) true)) t ∧ Answers t 1 3 [7] ∧ Running s c r ∧ Children s c r cs ∧
    Waited s c cs (fun _ y => toInt32 (-1) < 0 ∨ y.pid = toInt32 (-1)) true t := by
  have hrun : (runChecked (fun s e => e.endsChildless s) noteExit boot (fun _ => none) [.timer, startShell 3,
      .syscall (.exit 7), .resume]).bind (fun w => (run w.1 [.syscall (.waitpid (-1) true)]).map fun t =>
        (w.2 2, (t.heap 1).map (·.context))) = some (some 7, some (.user (some ⟨3, [7]⟩))) := by decide +kernel
  have hcond : ∀ u n, ∀ e ∈ [.timer, startShell 3, .syscall (.exit 7), .resume],
      Noted Boot Step NoneLeft (fun _ => none) noteExit u n → e.endsChildless u = true → NoneLeft u e := by
    intro u n e he hu hok
    refine .of_childless (NoneLeft.reached hu.reach).2.1 hok ?_
    simp only [List.mem_cons, List.not_mem_nil, or_false] at he
    rcases he with rfl | rfl | rfl | rfl
    · exact id
    · exact fun h => absurd h.2.2.2.2.2 (by decide)
    · exact id
    · exact id
  obtain ⟨s, n, hn, hval⟩ := noted_of_runChecked hcond hrun
  obtain ⟨t, ht, hval⟩ := Option.map_eq_some_iff.1 hval
  simp only [Prod.mk.injEq] at hval
  have hst := run_step ht
  obtain ⟨c, r, cs, hr, hcs, hw, -⟩ := waitpid_answers hn hst rfl
  exact ⟨s, t, n, c, r, cs, hn, hval.1, hst, hval.2, hr, hcs, hw⟩

end Xinul
