import Xinul.Proofs.MailSteps

/-!
# What a step does to the semaphores

With `kill` of a process that waits left out, the calls of `semaphore_api.c` are all
the events that touch a semaphore or a process in `wait` (`SemStep`).
-/

namespace Xinul

open Prog Machine Waiting

/-- The semaphore a call is about. -/
def Syscall.semaphore : Syscall → Option Int
  | .scount sem => some (toInt32 sem)
  | .sdelete sem => some (toInt32 sem)
  | .signal sem => some (toInt32 sem)
  | .signaln sem _ => some (toInt32 sem)
  | .sreset sem _ => some (toInt32 sem)
  | .tryWait sem => some (toInt32 sem)
  | .wait sem => some (toInt32 sem)
  | _ => none

/-- The semaphore an event is about. -/
def Event.semaphore : Event → Option Int
  | .syscall sc => sc.semaphore
  | _ => none

/-- The units a call of `signal` or `signaln` is for. -/
def Syscall.units : Syscall → Option Nat
  | .signal _ => some 1
  | .signaln _ count => some (toInt16 count).toNat
  | _ => none

/-- The process goes on in `wait`, blocked on the semaphore if `b`. -/
def Process.waits (sem : Int) (b : Bool) (x : Process) : Process :=
  if b then { x with semSignal := 0, context := .wait, state := .blockedSemaphore, semaphoreId := sem }
  else { x with semSignal := 0, context := .wait }

/-- The processes in `l` can be given the processor, or have it. -/
def Roused (t : Kernel) (l : List Ptr) : Prop := ∀ p ∈ l, ∀ y, t.heap p = some y → y.state.ready = true

/-- What an event does to the semaphores. -/
inductive SemStep (s t : Kernel) : Event → Prop where
  | other {e} : e.semaphore = none → Apart False True s t → SemStep s t e
  | created {count semOk} : 0 ≤ toInt16 count → t.semaphoreIdCounter = s.semaphoreIdCounter + 1 →
      t.semaphoreTable = Function.update s.semaphoreTable (s.semaphoreIdCounter + 1) (some ⟨toInt16 count, none⟩) →
      t.node = s.node → t.nextNode = s.nextNode →
      (∀ p y, t.heap p = some y → y.Parked False True → ∃ x, s.heap p = some x ∧ x.Since False True y) →
      SemStep s t (.syscall (.screate count semOk))
  | read {sem st} : s.semaphoreTable (toInt32 sem) = some st → Apart False True s t →
      SemStep s t (.syscall (.scount sem))
  | refused {sc i c r v} : sc.semaphore = some i → Running s c r → v < 0 →
      (∀ sem st, sc = .wait sem → s.semaphoreTable i = some st → st.count = minCount) →
      Apart False True s t → GoesOn t c (.user (some ⟨v, []⟩)) → SemStep s t (.syscall sc)
  | waited {sem c r st st' ps ps' ns} : Running s c r → s.semaphoreTable (toInt32 sem) = some st →
      Waiters ∅ s (toInt32 sem) st ps → t.semaphoreTable (toInt32 sem) = some st' → st'.count = st.count - 1 →
      Blocked t st' ns ps' → ps ⊆ ps' →
      Signals s t (toInt32 sem) (writing c (·.waits (toInt32 sem) (decide (st.count - 1 < 0)))) →
      GoesOn t c .wait → SemStep s t (.syscall (.wait sem))
  | tried {sem c r st st' ps ns} : Running s c r → s.semaphoreTable (toInt32 sem) = some st → 0 < st.count →
      Waiters ∅ s (toInt32 sem) st ps → t.semaphoreTable (toInt32 sem) = some st' → st'.count = st.count - 1 →
      Blocked t st' ns ps → Signals s t (toInt32 sem) (fun _ x => x) → GoesOn t c (.user (some ⟨0, []⟩)) →
      SemStep s t (.syscall (.tryWait sem))
  | signalled {sc i c r st st' ws l ns} {n : Nat} : sc.semaphore = some i → sc.units = some n → Running s c r →
      s.semaphoreTable i = some st → Waiters ∅ s i st (ws ++ l) → t.semaphoreTable i = some st' →
      st'.count = st.count + n → Blocked t st' ns l → Signals s t i (rousing ws signalCall) →
      GoesOn t c (.user (some ⟨0, []⟩)) → SemStep s t (.syscall sc)
  | deleted {sem c r st ps} : Running s c r → s.semaphoreTable (toInt32 sem) = some st →
      Waiters ∅ s (toInt32 sem) st ps → t.semaphoreTable (toInt32 sem) = none →
      Signals s t (toInt32 sem) (rousing ps sdeleteCall) → Roused t ps → GoesOn t c (.user (some ⟨0, []⟩)) →
      SemStep s t (.syscall (.sdelete sem))
  | reset {sem count c r st st' ps ns} : Running s c r → s.semaphoreTable (toInt32 sem) = some st →
      Waiters ∅ s (toInt32 sem) st ps → 0 ≤ toInt32 count → t.semaphoreTable (toInt32 sem) = some st' →
      st'.count = toInt16 (toInt32 count) → Blocked t st' ns [] →
      Signals s t (toInt32 sem) (rousing ps sresetCall) → Roused t ps → GoesOn t c (.user (some ⟨0, []⟩)) →
      SemStep s t (.syscall (.sreset sem count))

section

variable {M : Prop} {s t u : Kernel} {c p : Ptr} {x r : Process} {sem : Int} {st : Semaphore}
  {ns : List NodePtr} {ps : List Ptr} {g : Ptr → Process → Process}

/-- The waiters have nothing to do with `parent_block`. -/
theorem Waiters.congr (h : Waiters ∅ s sem st ps) (heap : t.heap = s.heap) (node : t.node = s.node)
    (next : t.nextNode = s.nextNode) : Waiters ∅ t sem st ps := by
  obtain ⟨ns, hb⟩ := h.list
  refine ⟨⟨ns, hb.congr (fun n _ => by rw [node]) next.symm.le⟩, h.nodup, fun p => ?_, h.room⟩
  rw [h.mem p, WaitsFor, WaitsFor, heap]

/-- A node is in the list of one semaphore. -/
theorem Inv.node_unique {i : Int} {w : Semaphore} {ns' : List NodePtr} {ps' : List Ptr} {n : NodePtr} (hi : Inv ∅ s)
    (hst : s.semaphoreTable sem = some st) (hb : Blocked s st ns ps) (hw : s.semaphoreTable i = some w)
    (hb' : Blocked s w ns' ps') (hn : n ∈ ns) (hn' : n ∈ ns') : i = sem := by
  obtain ⟨p, hp, hat⟩ := hb.mem_procs hn
  obtain ⟨q, hq, hat'⟩ := hb'.mem_procs hn'
  obtain rfl : p = q := Option.some.inj (hat.symm.trans hat')
  obtain ⟨-, x, hx, -, -, hid⟩ := ((hi.waiters hst hb).mem p).1 hp
  obtain ⟨-, y, hy, -, -, hid'⟩ := ((hi.waiters hw hb').mem p).1 hq
  obtain rfl : x = y := Option.some.inj (hx.symm.trans hy)
  exact hid'.symm.trans hid

/-- A call that is refused. -/
theorem SemStep.wp_refused {sc : Syscall} {i v : Int} (hr : Running s c r) (hsc : sc.semaphore = some i) (hv : v < 0)
    (hwait : ∀ sem st, sc = .wait sem → s.semaphoreTable i = some st → st.count = minCount) :
    wp (answer v []) (fun _ t => SemStep s t (.syscall sc)) (fun _ => True) s :=
  wp_answer_mail hr.table fun _ ha hgo => .refused hsc hr hv hwait ha hgo

theorem scount_sems (hr : Running s c r) (sem : Int) :
    wp (scount (toInt32 sem)) (fun _ t => SemStep s t (.syscall (.scount sem))) (fun _ => True) s := by
  rw [scount, wp_bind, wp_getSemaphoreStruct]
  cases hsem : s.semaphoreTable (toInt32 sem) with
  | none => exact SemStep.wp_refused hr rfl (by decide) (by simp)
  | some st => exact wp_mono (Respects.run (apart_answer _ _) s) (fun _ t _ ha => .read hsem ha) (fun _ _ h => h)

theorem screate_sems (hr : Running s c r) (count : Int) (semOk : Bool) :
    wp (screate (toInt16 count) semOk) (fun _ t => SemStep s t (.syscall (.screate count semOk))) (fun _ => True) s := by
  have failed : wp (answer (-1) []) (fun _ t => SemStep s t (.syscall (.screate count semOk))) (fun _ => True) s :=
    wp_mono (Respects.run (apart_answer _ _) s) (fun _ t _ ha => .other rfl ha) (fun _ _ h => h)
  rw [screate, wp_ite]
  refine ⟨fun _ => failed, fun hpos => ?_⟩
  rw [wp_bind, wp_get, wp_ite]
  refine ⟨fun _ => failed, fun _ => ?_⟩
  rw [wp_ite]
  refine ⟨fun _ => failed, fun _ => ?_⟩
  rw [wp_bind, wp_get]
  dsimp only
  rw [wp_ite]
  refine ⟨fun _ => ?_, fun _ => ?_⟩
  · rw [wp_bind, wp_throw]
    trivial
  · simp only [wp_bind, wp_modify]
    refine wp_answer_mail (M := False) (W := True) (by exact hr.table) fun t ha _ => ?_
    refine .created (by omega) (ha.sems trivial).2.2.2 ?_ (ha.sems trivial).2.1 (ha.sems trivial).2.2.1 fun p y hy hp => ?_
    · rw [(ha.sems trivial).1]
      simp [Kernel.setSem, toInt16, Int.bmod_bmod]
    · exact ha.records p y hy hp

theorem tryWait_sems (m : Mid Kind.any s ∅ s c r) (sem : Int) :
    wp (tryWait (toInt32 sem)) (fun _ t => SemStep s t (.syscall (.tryWait sem))) (fun _ => True) s := by
  have hr := m.running
  rw [tryWait, wp_bind, wp_getSemaphoreStruct]
  cases hsem : s.semaphoreTable (toInt32 sem) with
  | none => exact SemStep.wp_refused hr rfl (by decide) (by simp)
  | some st =>
    dsimp only
    rw [wp_ite]
    refine ⟨fun hpos => ?_, fun _ => SemStep.wp_refused hr rfl (by decide) (by simp)⟩
    · obtain ⟨ps, hw⟩ := m.inv.sems.lists (toInt32 sem) st hsem
      obtain ⟨ns, hb⟩ := hw.list
      rw [wp_bind, wp_modifySem hsem]
      refine wp_scheduleAnswer_mail (M := False) (W := True) (by exact hr.table) fun t ha hgo => ?_
      have htable : t.semaphoreTable (toInt32 sem) = some { st with count := st.count - 1 } := by
        rw [(ha.sems trivial).1]
        simp [Kernel.setSem]
      have hb' : Blocked t { st with count := st.count - 1 } ns ps :=
        Blocked.apart (s := s.setSem (toInt32 sem) (some { st with count := st.count - 1 }))
          ⟨hb.chain, hb.tail, hb.procs, hb.bound⟩ ha
      refine .tried hr hsem hpos hw htable rfl hb' (Wrote.apart ?_ ha) hgo
      exact .of_nodes rfl rfl (fun i hi => by simp [Kernel.setSem, hi]) rfl fun p y hy => ⟨y, hy, rfl⟩

/-- The units went to the semaphore, and `scheduler` is called. -/
theorem SemStep.wp_signalled {sc : Syscall} {i : Int} {n : Nat} {st' : Semaphore} (hsc : sc.semaphore = some i)
    (hn : sc.units = some n) (hr : Running s c r) (hsem : s.semaphoreTable i = some st)
    (hu : u.pidProcessHashTable u.currentRunningProcessPid = some c) (hsem' : u.semaphoreTable i = some st')
    (hcount : st'.count = st.count + n)
    (h : ∃ ws l, Waiters ∅ s i st (ws ++ l) ∧ Waiters ∅ u i st' l ∧ Wrote s u i (rousing ws signalCall)) :
    wp (scheduleAnswer 0 []) (fun _ t => SemStep s t (.syscall sc)) (fun _ => True) u := by
  obtain ⟨ws, l, hw, hw', hsig⟩ := h
  obtain ⟨ns, hb⟩ := hw'.list
  refine wp_scheduleAnswer_mail (M := False) (W := True) hu fun t ha hgo => ?_
  exact .signalled hsc hn hr hsem hw (by rw [(ha.sems trivial).1, hsem']) hcount (hb.apart ha) (hsig.apart ha) hgo

theorem signal_sems (m : Mid Kind.any s ∅ s c r) (hpb : s.parentBlock = false) (sem : Int) :
    wp (signal (toInt32 sem)) (fun _ t => SemStep s t (.syscall (.signal sem))) (fun _ => True) s := by
  have hr := m.running
  have hstep : wp (signalStep (toInt32 sem)) (fun v u => v < 0 ∧ u = s ∨
      v = 0 ∧ ∃ st st', s.semaphoreTable (toInt32 sem) = some st ∧ Mid Kind.any s ∅ u c r ∧
        u.semaphoreTable (toInt32 sem) = some st' ∧ st'.count = st.count + 1 ∧ u.parentBlock = s.parentBlock ∧
        ∃ ws l, Waiters ∅ s (toInt32 sem) st (ws ++ l) ∧ Waiters ∅ u (toInt32 sem) st' l ∧
          Wrote s u (toInt32 sem) (rousing ws signalCall)) Kind.any.Allows s := by
    refine m.wp_signalStep trivial (fun _ => .inl ⟨by decide, rfl⟩) (fun st _ _ => .inl ⟨by decide, rfl⟩) ?_
    exact fun st u st' hst _ mu hst' hc hb h => .inr ⟨rfl, st, st', hst, mu, hst', hc, hb, h⟩
  rw [signal, wp_bind]
  refine wp_mono hstep (fun v u _ h => ?_) (fun _ _ _ => trivial)
  rw [wp_ite]
  rcases h with ⟨hv, rfl⟩ | ⟨rfl, st, st', hst, mu, hst', hc, hb, h⟩
  · exact ⟨fun _ => SemStep.wp_refused hr rfl hv (by simp), fun hz => by omega⟩
  · refine ⟨fun hz => absurd rfl hz, fun _ => ?_⟩
    rw [wp_bind, wp_get, if_pos (hb.trans hpb)]
    exact SemStep.wp_signalled rfl rfl hr hst mu.running.table hst' (by simpa using hc) h

theorem signaln_sems (m : Mid Kind.any s ∅ s c r) (sem count : Int) :
    wp (signaln (toInt32 sem) (toInt16 count)) (fun _ t => SemStep s t (.syscall (.signaln sem count)))
      (fun _ => True) s := by
  have hr := m.running
  rw [signaln, wp_bind, wp_getSemaphoreStruct]
  cases hsem : s.semaphoreTable (toInt32 sem) with
  | none => exact SemStep.wp_refused hr rfl (by decide) (by simp)
  | some st =>
    dsimp only
    rw [wp_ite]
    refine ⟨fun _ => SemStep.wp_refused hr rfl (by decide) (by simp), fun hpos => ?_⟩
    rw [wp_ite]
    refine ⟨fun _ => SemStep.wp_refused hr rfl (by decide) (by simp), fun hroom => ?_⟩
    simp only [wp_bind, wp_modify]
    have hn : ((toInt16 count).toNat : Int) = toInt16 count := Int.toNat_of_nonneg (by omega)
    have hloop := (m.setParentBlock (b := true) (.inr trivial)).wp_signalnLoop (Q := fun v u => v = 0 ∧
      ∃ st', Mid Kind.any s ∅ u c r ∧ u.semaphoreTable (toInt32 sem) = some st' ∧
        st'.count = st.count + (toInt16 count).toNat ∧ ∃ ws l, Waiters ∅ s (toInt32 sem) st (ws ++ l) ∧
          Waiters ∅ u (toInt32 sem) st' l ∧ Wrote s u (toInt32 sem) (rousing ws signalCall))
      (n := (toInt16 count).toNat) trivial hsem (by omega) (by
        rintro u st' mu hst' hc ⟨ws, l, hw, hw', hsig⟩
        exact ⟨rfl, st', mu, hst', hc, ws, l, hw.congr rfl rfl rfl, hw', hsig.before rfl rfl rfl rfl rfl⟩)
    refine wp_mono hloop ?_ (fun _ _ _ => trivial)
    rintro v u - ⟨rfl, st', mu, hst', hc, ws, l, hw, hw', hsig⟩
    simp only [ne_eq, not_true_eq_false, if_false, wp_bind, wp_modify]
    refine SemStep.wp_signalled rfl rfl hr hsem mu.running.table hst' hc ⟨ws, l, hw, hw'.congr rfl rfl rfl, ?_⟩
    exact hsig.after rfl rfl rfl rfl fun _ _ => rfl

/-- Everybody who waits for the semaphore is woken. -/
theorem unblockAll_sems {v : Int} (m : Mid Kind.any s ∅ s c r) (hsem : s.semaphoreTable sem = some st)
    (hw : Waiters ∅ s sem st ps) : wp (unblockAll sem v (s.nextNode + 1)) (fun _ u => ∃ st', Mid Kind.any s ∅ u c r ∧
      u.semaphoreTable sem = some st' ∧ Waiters ∅ u sem st' [] ∧ Wrote s u sem (rousing ps v)) (fun _ => True) s :=
  wp_mono (m.wp_unblockAll (Q := fun _ u => ∃ st', Mid Kind.any s ∅ u c r ∧ u.semaphoreTable sem = some st' ∧
    Waiters ∅ u sem st' [] ∧ Wrote s u sem (rousing ps v)) trivial trivial hsem hw (Nat.lt_succ_of_le hw.length_lt)
    fun _ st' mu hst' hw' hsig => ⟨st', mu, hst', hw', hsig⟩) (fun _ _ _ h => h) (fun _ _ _ => trivial)

/-- `scheduler` is called once everybody was woken. -/
theorem wp_scheduleRoused {v : Int} {l : List Ptr} {R : Unit → Kernel → Prop} (hu : Wrote s u sem (rousing l v))
    (hc : u.pidProcessHashTable u.currentRunningProcessPid = some c)
    (h : ∀ t, Apart False True u t → Signals s t sem (rousing l v) → Roused t l → GoesOn t c (.user (some ⟨0, []⟩)) →
      R () t) : wp (scheduleAnswer 0 []) R (fun _ => True) u := by
  have ready : wp (scheduleAnswer 0 []) (fun _ t => Along StaysReady u t) (fun _ => True) u :=
    schedule_staysReady _ u
  have answered : wp (scheduleAnswer 0 []) (fun _ t => Apart False True u t ∧ GoesOn t c (.user (some ⟨0, []⟩)))
      (fun _ => True) u := wp_scheduleAnswer_mail hc fun t ha hgo => ⟨ha, hgo⟩
  refine wp_mono (wp_and ready answered) (fun _ t _ ht => h t ht.2.1 (hu.apart ht.2.1) (fun p hp y hy => ?_) ht.2.2)
    (fun _ _ h => h)
  obtain ⟨z, hz, hzy⟩ := ht.1 p y hy
  obtain ⟨x, hx, hcall⟩ := hu.heap p z hz
  refine hzy ?_
  simp only [rousing, if_pos hp, Process.call, Prod.mk.injEq] at hcall
  rw [hcall.2.1]
  rfl

theorem sdelete_sems (m : Mid Kind.any s ∅ s c r) (sem : Int) :
    wp (sdelete (toInt32 sem)) (fun _ t => SemStep s t (.syscall (.sdelete sem))) (fun _ => True) s := by
  have hr := m.running
  rw [sdelete, wp_bind, wp_getSemaphoreStruct]
  cases hsem : s.semaphoreTable (toInt32 sem) with
  | none => exact SemStep.wp_refused hr rfl (by decide) (by simp)
  | some st =>
    obtain ⟨ps, hw⟩ := m.inv.sems.lists (toInt32 sem) st hsem
    simp only [wp_bind, wp_get]
    refine wp_mono (unblockAll_sems m hsem hw) ?_ (fun _ _ h => h)
    rintro _ u - ⟨st', mu, -, -, hsig⟩
    rw [wp_modify]
    have hset := hsig.after (t := { u.setSem (toInt32 sem) none with
      currentlyRunningSemaphores := u.currentlyRunningSemaphores - 1 }) rfl rfl rfl rfl fun i hi => by simp [Kernel.setSem, hi]
    refine wp_scheduleRoused hset (by exact mu.running.table) fun t ha hsig hroused hgo => ?_
    refine .deleted hr hsem hw ?_ hsig hroused hgo
    rw [(ha.sems trivial).1]
    simp [Kernel.setSem]

theorem sreset_sems (m : Mid Kind.any s ∅ s c r) (sem count : Int) :
    wp (sreset (toInt32 sem) (toInt32 count)) (fun _ t => SemStep s t (.syscall (.sreset sem count)))
      (fun _ => True) s := by
  have hr := m.running
  rw [sreset, wp_bind, wp_getSemaphoreStruct]
  cases hsem : s.semaphoreTable (toInt32 sem) with
  | none => exact SemStep.wp_refused hr rfl (by decide) (by simp)
  | some st =>
    dsimp only
    rw [wp_ite]
    refine ⟨fun _ => SemStep.wp_refused hr rfl (by decide) (by simp), fun hpos => ?_⟩
    obtain ⟨ps, hw⟩ := m.inv.sems.lists (toInt32 sem) st hsem
    simp only [wp_bind, wp_get]
    refine wp_mono (unblockAll_sems m hsem hw) ?_ (fun _ _ h => h)
    rintro _ u - ⟨st', mu, hst', hw', hsig⟩
    obtain ⟨ns, hb⟩ := hw'.list
    rw [wp_modifySem hst']
    have hset := hsig.after (t := u.setSem (toInt32 sem) (some { st' with count := toInt16 (toInt32 count) }))
      rfl rfl rfl rfl fun i hi => by simp [Kernel.setSem, hi]
    refine wp_scheduleRoused hset (by exact mu.running.table) fun t ha hsig hroused hgo => ?_
    have htable : t.semaphoreTable (toInt32 sem) = some { st' with count := toInt16 (toInt32 count) } := by
      rw [(ha.sems trivial).1]
      simp [Kernel.setSem]
    have hb' : Blocked t { st' with count := toInt16 (toInt32 count) } ns [] :=
      Blocked.apart (s := u.setSem (toInt32 sem) (some { st' with count := toInt16 (toInt32 count) }))
        ⟨hb.chain, hb.tail, hb.procs, hb.bound⟩ ha
    exact .reset hr hsem hw (by omega) htable rfl hb' hsig hroused hgo

/-- `wait` writes the node of the caller and calls `scheduler`. -/
theorem wait_sems (m : Mid Kind.any s ∅ s c r) (hctx : r.context ≠ .wait) (sem : Int) :
    wp (wait (toInt32 sem)) (fun _ t => SemStep s t (.syscall (.wait sem))) (fun _ => True) s := by
  have hr := m.running
  have hc := hr.heap
  rw [wait, wp_bind, wp_getSemaphoreStruct]
  cases hsem : s.semaphoreTable (toInt32 sem) with
  | none =>
    refine SemStep.wp_refused hr rfl (by decide) fun _ st _ hst => ?_
    rw [hsem] at hst
    cases hst
  | some st =>
    simp only [wp_bind, wp_getCurrentProcess, hr.table, wp_modifyProc hc]
    set s1 := s.mapProc c fun r => { r with semSignal := 0 } with hs1
    have hsem1 : s1.semaphoreTable (toInt32 sem) = some st := hsem
    have hc1 : s1.heap c = some { r with semSignal := 0 } := by simp [hs1, hc]
    have others : ∀ p, p ≠ c → s1.heap p = s.heap p := fun p hp => by simp [hs1, hp]
    rw [wp_ite]
    refine ⟨fun hmin => ?_, fun _ => ?_⟩
    · refine wp_answer_mail (M := False) (W := True) (by exact hr.table) fun t ha hgo => ?_
      refine .refused rfl hr (by decide) (fun _ st' _ hst' => ?_) (trans_of (Apart False True) ?_ ha) hgo
      · rw [hsem] at hst'
        cases hst'
        exact hmin
      · -- the caller is in no call of `wait` yet
        refine ⟨False.elim, False.elim, fun _ => ⟨rfl, rfl, rfl, rfl⟩, fun p y hy hp => ?_, trivial⟩
        by_cases hpc : p = c
        · subst hpc
          obtain rfl : _ = y := Option.some.inj (hc1.symm.trans hy)
          rcases hp.2 with ⟨hf, -⟩ | ⟨-, hst | hw⟩
          · exact hf.elim
          · exact absurd (hr.state.symm.trans hst) fun h => by cases h
          · exact absurd hw hctx
        · exact ⟨y, others p hpc ▸ hy, .refl hp.1⟩
    · rw [wp_bind, wp_modifySem hsem1, wp_ite]
      obtain ⟨ps, hw⟩ := m.inv.sems.lists (toInt32 sem) st hsem
      obtain ⟨ns, hb⟩ := hw.list
      refine ⟨fun hneg => ?_, fun hpos => ?_⟩
      · have hb1 : Blocked s1 st ns ps := hb.congr (fun _ _ => rfl) le_rfl
        simp only [newNode, wp_bind, wp_get, wp_modify, wp_pure]
        refine (wp_deref (s := s1.withNode (toInt32 sem) { st with count := st.count - 1 } c) hc1).2 ?_
        refine wp_waitInsert (s := s1) hb1 rfl (fun q hq => ?_) fun st' N ns' hb' hcount hN => ?_
        · obtain ⟨_, x, hx, _⟩ := (hw.mem q).1 hq
          by_cases hqc : q = c
          · exact ⟨_, hqc ▸ hc1⟩
          · exact ⟨x, by rw [others q hqc, hx]⟩
        · refine wp_schedule_mail (M := False) (W := True) (by exact hr.table) fun t ha hgo => ?_
          have htable : t.semaphoreTable (toInt32 sem) = some st' := by
            rw [(ha.sems trivial).1]
            simp [Kernel.markBlocked, Kernel.setBlocked]
          have hlist : Blocked t st' ns' (insertWhile (fun q => ((r.prio : Nat) : Int) ≤ s1.value Process.prioField q) c ps) := by
            refine Blocked.apart (s := _) ?_ ha
            exact ⟨hb'.chain, hb'.tail, hb'.procs, hb'.bound⟩
          refine .waited hr hsem hw htable hcount hlist (fun q hq => mem_insertWhile.2 (.inr hq)) (Wrote.apart ?_ ha) hgo
          · refine ⟨fun i hi => ?_, fun i w ns₂ ps₂ hi hw₂ hb₂ => ?_, rfl, heap_writing hc (fun p hp => ?_) ?_⟩
            · simp [Kernel.markBlocked, Kernel.setBlocked, hi, hs1]
            · -- a node of another list is not in this one
              refine hb₂.congr (fun n hn => hN n (hb₂.bound n hn) fun hn' => ?_) (Nat.le_succ _)
              exact hi (m.inv.node_unique hsem hb hw₂ hb₂ hn' hn)
            · simp [Kernel.markBlocked, Kernel.setBlocked, hp, hs1]
            · simp [Kernel.markBlocked, Kernel.setBlocked, hs1, hc, Process.waits, hneg, Process.call]
      · refine wp_schedule_mail (M := False) (W := True) (by exact hr.table) fun t ha hgo => ?_
        have htable : t.semaphoreTable (toInt32 sem) = some { st with count := st.count - 1 } := by
          rw [(ha.sems trivial).1]
          simp [Kernel.setSem]
        have hlist : Blocked t { st with count := st.count - 1 } ns ps := by
          refine Blocked.apart (s := _) ?_ ha
          exact ⟨hb.chain, hb.tail, hb.procs, hb.bound⟩
        refine .waited hr hsem hw htable rfl hlist (List.Subset.refl ps) (Wrote.apart ?_ ha) hgo
        · refine .of_nodes rfl rfl (fun i hi => ?_) rfl (heap_writing hc (fun p hp => ?_) ?_)
          · simp [Kernel.setSem, hi, hs1]
          · simp [Kernel.setSem, hp, hs1]
          · simp [Kernel.setSem, hs1, hc, Process.waits, hpos, Process.call]

/-- No process that waits for a semaphore is killed. -/
def SparesWaiters (s : Kernel) (e : Event) : Prop :=
  ∀ p x, e.target s = some p → s.heap p = some x → x.state ≠ .blockedSemaphore

theorem SparesWaiters.of_none {e : Event} (h : e.target s = none) : SparesWaiters s e := by
  intro p x hp
  rw [h] at hp
  cases hp

theorem SparesWaiters.killsAtEnd {e : Event} (h : SparesWaiters s e) : KillsAtEnd s e :=
  fun p x hp hx hs => absurd hs (h p x hp hx)

theorem syscallHandler_sems {sc : Syscall} (hs : Ready s) (hr : Running s c r) (hctx : r.context ≠ .wait)
    (hk : SparesWaiters s (.syscall sc)) :
    wp (syscallHandler sc) (fun _ t => SemStep s t (.syscall sc)) (fun _ => True) s := by
  have other : ∀ {k : KernelM Unit} {sc : Syscall}, sc.semaphore = none → Respects (Apart False True) k →
      wp k (fun _ t => SemStep s t (.syscall sc)) (fun _ => True) s :=
    fun he h => wp_mono (h s) (fun _ _ _ ht => .other he ht) (fun _ _ h => h)
  have m : Mid Kind.any s ∅ s c r := hr.mid hs.inv (fun _ _ _ _ _ => trivial) trivial
  cases sc with
  | start name ssize prio env => exact other rfl (apart_startVirtual _ _ _ _ .all)
  | getpid => exact other rfl (.bind respects_getpid fun _ => apart_answer _ _)
  | getprio pid => exact other rfl (.bind (apart_getprio _) fun _ => apart_answer _ _)
  | chprio pid newprio =>
    refine wp_mono (chprio_mail hs.inv.toCore _ _) (fun _ t _ h => ?_) (fun _ _ h => h)
    rcases h with h | ⟨p, x, hd, l, h⟩
    · exact .other rfl (h.weaken False.elim id)
    · exact .other rfl h.sems
  | kill pid =>
    refine wp_mono (kill_mail hs hr hk.killsAtEnd) (fun _ t _ h => ?_) (fun _ _ h => h)
    rcases h with ⟨h, -⟩ | ⟨p, x, ht, hpc, h⟩
    · exact .other rfl (h.weaken False.elim id)
    · cases h.taken with
      | semaphore hsem _ => exact absurd hsem (hk p x ht h.record)
      | queue _ ha _ => exact .other rfl ha
  | waitpid pid retvalp => exact other rfl (apart_waitpid _ _)
  | exit retval => exact other rfl (apart_exitProcess _ rfl (by simp) (by simp))
  | consRead length => exact other rfl (apart_consRead _ (fun _ _ => trivial) (fun _ => trivial) fun _ _ => trivial)
  | consEcho on => exact other rfl (apart_consEcho _ fun _ _ => trivial)
  | pcount fid count => exact other rfl (apart_pcount _)
  | pcreate count queueOk arrOk => exact other rfl (apart_pcreate _ _ _)
  | pdelete fid => exact other rfl apart_pdelete
  | preceive fid message =>
    have hrun : wp (preceive (toInt32 fid) message) (fun _ t => Apart False True s t) (fun _ => True) s :=
      preceive_acts s _ _ hs.inv.toCore.named (Respects.run (apart_preceiveWith apart_endRunning message) s)
    exact wp_mono hrun (fun _ _ _ ht => .other rfl ht) (fun _ _ h => h)
  | preset fid => exact other rfl apart_preset
  | psend fid message => exact other rfl (apart_psend _)
  | sleep nbrMs => exact other rfl (apart_waitClock _ (fun _ _ _ _ _ _ _ => trivial) fun _ _ _ => trivial)
  | waitClock clock => exact other rfl (apart_waitClock _ (fun _ _ _ _ _ _ _ => trivial) fun _ _ _ => trivial)
  | currentClock => exact other rfl (.bind .get fun _ => apart_answer _ _)
  | scount sem => exact scount_sems hr sem
  | screate count semOk => exact screate_sems hr count semOk
  | sdelete sem => exact sdelete_sems m sem
  | signal sem => exact signal_sems m hs.unmuted sem
  | signaln sem count => exact signaln_sems m sem count
  | sreset sem count => exact sreset_sems m sem count
  | tryWait sem => exact tryWait_sems m sem
  | wait sem => exact wait_sems m hctx sem

/-- A system call is made in user mode. -/
theorem Step.user_context {sc : Syscall} (h : Step s (.syscall sc) t) (hr : Running s c r) : r.context ≠ .wait := by
  intro hctx
  have he := h.1
  simp [Event.enabled, Kernel.inUserMode, hr.current, hctx] at he

/-- What a step does to the semaphores. -/
theorem Step.sems {e : Event} (h : Step s e t) (hs : Ready s) (hk : SparesWaiters s e) : SemStep s t e := by
  cases e with
  | syscall sc =>
    obtain ⟨c, r, hr⟩ := hs.running_of_syscall h
    exact wp_ok (syscallHandler_sems hs hr (h.user_context hr) hk) h.2
  | timer => exact .other rfl ((h.apart hs (by simp)).weaken False.elim id)
  | keyboard k => exact .other rfl ((h.apart hs (by simp)).weaken False.elim id)
  | pageFault => exact .other rfl ((h.apart hs (by simp)).weaken False.elim id)
  | resume => exact .other rfl ((h.apart hs (by simp)).weaken False.elim id)

theorem Running.lives (hr : Running s c r) : Lives s c := ⟨r, hr.heap, hr.started, hr.alive⟩

/-- Nobody ends in a call about a semaphore. -/
theorem Step.lives_sem {sc : Syscall} {i : Int} (h : Step s (.syscall sc) t) (hs : Ready s) (hr : Running s c r)
    (hsc : sc.semaphore = some i) (hp : Lives s p) : Lives t p := by
  have he := h.1
  simp only [Event.enabled, Bool.and_eq_true, decide_eq_true_eq] at he
  have hu := hs.user hr he.2
  have m : Mid ({ Kind.any with family := False } : Kind).quiet s ∅ s c r := hr.mid hs.inv (fun _ _ _ _ _ => trivial) trivial
  have lives : Done { Kind.any with family := False } s t → Lives t p := fun hd => hd.chain.lives id hp
  cases sc with
  | scount sem => exact lives (wp_ok (scount_done m trivial) h.2)
  | sdelete sem => exact lives (wp_ok (sdelete_done m trivial trivial) h.2).1
  | signal sem => exact lives (wp_ok (signal_done m trivial (.inl trivial)) h.2)
  | signaln sem count => exact lives (wp_ok (signaln_done m trivial trivial _) h.2).1
  | sreset sem count => exact lives (wp_ok (sreset_done m trivial trivial _) h.2).1
  | tryWait sem => exact lives (wp_ok (tryWait_done m trivial) h.2)
  | wait sem => exact lives (wp_ok (wait_done m trivial hu) h.2)
  | _ => cases hsc

end

end Xinul
