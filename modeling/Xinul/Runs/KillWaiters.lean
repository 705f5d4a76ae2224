import Xinul.Runs.Base

/-!
# `kill` of a process blocked on a semaphore

`remove_proc_queue` has a case for the only node of the list, for the first, for the last
and for the others. The loop of the last case stops at the first node whose process does
*not* have the pid, which is the head of the list: it is unlinked from itself, and its
process leaves the state `BLOCKEDSEMAPHORE` in the place of the one that is killed.
-/

namespace Xinul

open Prog Linked

/-- The part of the state the blocked lists are in. -/
def Kernel.waitLists (s : Kernel) := (s.semaphoreTable, s.node, s.nextNode)

/-- `kill` took the process at `p` off the list of the semaphore and left the others
blocked on it. -/
structure KillsWaiter (s t : Kernel) (sem : Int) (p : Ptr) : Prop where
  struck : Struck s t sem p
  others : ∀ q, q ≠ p → WaitsFor ∅ s q sem → ∃ y, t.heap q = some y ∧ y.state = .blockedSemaphore

/-! ## What comes after the removal -/

section keeps

theorem keeps_freeChildZombie (p : Ptr) : Keeps Kernel.waitLists (freeChildZombieProcess p) := by
  refine .bind (keeps_deref p) fun r => .ite (.pure _) (.bind (.bind .get fun _ => .pure _) fun pid => .ite ?_ ?_)
  · exact .bind (keeps_modifyProc fun _ => rfl) fun _ => .pure _
  · exact .bind (keeps_deref p) fun _ => .bind (.modify fun _ => rfl) fun _ => .pure _

theorem keeps_killZombies (n : Nat) (o : Option Ptr) : Keeps Kernel.waitLists (killZombies n o) := by
  induction n generalizing o with
  | zero => exact .throw _
  | succ n ih =>
    cases o with
    | none => exact .pure _
    | some temp =>
      refine .bind (keeps_deref temp) fun r => .ite ?_ (ih _)
      have rest : Keeps Kernel.waitLists (do
          let next := (← deref temp).nextSibling
          if (← freeChildZombieProcess temp) < 0 then pure (-1) else killZombies n next) :=
        .bind (keeps_deref temp) fun _ => .bind (keeps_freeChildZombie temp) fun _ => .ite (.pure _) (ih _)
      dsimp only
      split
      · exact .bind (.pure _) fun _ => rest
      · exact .bind (ih _) fun _ => rest

theorem keeps_makeChildren (p : Ptr) : Keeps Kernel.waitLists (makeChildrenOrphansAndKillZombies p) :=
  .bind (keeps_deref p) fun _ => .ite (.pure _) (.bind .get fun _ => keeps_killZombies _ _)

theorem keeps_turn (self : Bool) (pid : Int) :
    Keeps Kernel.waitLists (turnCurrentProcessIntoAZombieOrKillIt self pid) := by
  refine .bind (.bind .get fun _ => .pure _) fun running => .bind (.bind .get fun _ => .pure _) fun o => ?_
  split
  · exact .pure _
  · next p =>
    refine .bind (keeps_makeChildren p) fun _ => .ite (.pure _) ?_
    refine .bind (keeps_modifyProc fun _ => rfl) fun _ => .bind (keeps_deref p) fun r => ?_
    split
    · exact keeps_freeChildZombie p
    · next parent hparent =>
      refine .bind (keeps_deref parent) fun pr => .ite (keeps_freeChildZombie p) (.ite ?_ (.pure _))
      refine .bind (keeps_modifyProc fun _ => rfl) fun _ => .bind (keeps_queueAdd fun _ _ => rfl) fun _ => .pure _

theorem keeps_answer (v : Int) (w : List Int) : Keeps Kernel.waitLists (answer v w) := by
  refine .bind keeps_getCurrentProcess fun o => ?_
  split
  · exact .pure _
  · exact keeps_modifyProc fun _ => rfl

end keeps

section kill

variable {s t u : Kernel} {c p q : Ptr} {r x : Process} {sem k : Int} {st : Semaphore} {ns : List NodePtr} {ps : List Ptr}

theorem Blocked.waitLists (h : Blocked s st ns ps) (hu : u.waitLists = s.waitLists) : Blocked u st ns ps := by
  obtain ⟨-, hnode, hnext⟩ : u.semaphoreTable = s.semaphoreTable ∧ u.node = s.node ∧ u.nextNode = s.nextNode := by
    simpa [Kernel.waitLists] using hu
  exact h.congr (fun n _ => by rw [hnode]) hnext.ge

theorem Kernel.waitLists_table (hu : u.waitLists = s.waitLists) : u.semaphoreTable = s.semaphoreTable :=
  congrArg Prod.fst hu

theorem Struck.waitLists (h : Struck s t sem p) (hu : u.waitLists = t.waitLists) : Struck s u sem p := by
  obtain ⟨st, st', ns, ns', ps, hst, hb, hst', hc, hb', hsub⟩ := h
  exact ⟨st, st', ns, ns', ps, hst, hb, by rw [Kernel.waitLists_table hu, hst'], hc, hb'.waitLists hu, hsub⟩

/-- What `proc_kill_diag` leaves of the lists is what `kill` leaves of them. -/
theorem wp_kill_waiter {P : Kernel → Prop} (hi : Inv ∅ s) (hr : Running s c r) (hx : s.heap p = some x)
    (hwf : WaitsFor ∅ s p sem) (htable : s.pidProcessHashTable k = some p)
    (hP : ∀ t u, P t → u.waitLists = t.waitLists → P u)
    (hdiag : wp (procKillDiag sem x.pid) (fun _ t => P t) (fun _ => True) s) :
    wp (kill k) (fun _ t => P t) (fun _ => True) s := by
  obtain ⟨-, x', hx', -, hstate, hid⟩ := hwf
  obtain rfl : x = x' := Option.some.inj (hx.symm.trans hx')
  have hpid : x.pid = k := by
    obtain ⟨y, hy, hyk⟩ := hi.table k p htable
    rw [hx] at hy
    cases hy
    exact hyk
  have hreserved : ¬ (k = idleId ∨ k = kernelId) := by
    rintro (rfl | rfl)
    · rcases (hi.idle_at hx htable).2.1 with h | h <;> rw [hstate] at h <;> cases h
    · have := (hi.pool.used p x hx).1
      rw [hpid] at this
      cases this
  have hother : ¬ x.pid = s.currentRunningProcessPid := by
    intro he
    have hpc := hi.pid_inj hx hr.heap (he.trans (hr.caller.pid hi.toCore).symm)
    subst hpc
    rw [hr.heap] at hx
    cases hx
    rw [hr.state] at hstate
    cases hstate
  have rest : ∀ {α : Type} {m : KernelM α} {v : Kernel}, Keeps Kernel.waitLists m → P v →
      wp m (fun _ t => P t) (fun _ => True) v := fun hm hv => wp_mono (hm _) (fun _ _ _ ht => hP _ _ hv ht) (fun _ _ h => h)
  unfold kill killWith
  rw [if_neg hreserved]
  simp only [wp_bind, wp_getProcessStructOfPid, htable, wp_validate hx, hstate, ProcessState.dead, Bool.false_eq_true,
    if_false, show ¬ ((0 : Int) < 0) by decide, wp_deref hx, wp_getpid, if_neg hother]
  rw [killOther, wp_bind, leaveQueueProcessIfNeeded, wp_bind, wp_deref hx, if_pos hstate, hid, wp_bind]
  refine wp_mono hdiag (fun v u _ hu => ?_) (fun _ _ h => h)
  have refused : wp (pure (-1) : KernelM Int) (fun w t => wp (answer w []) (fun _ t => P t) (fun _ => True) t)
      (fun _ => True) u := rest (keeps_answer _ _) hu
  by_cases hv : v < 0
  · rw [if_pos hv, wp_pure, if_pos (by decide)]
    exact refused
  rw [if_neg hv, wp_pure, if_neg (by decide), wp_bind]
  refine wp_mono (rest (keeps_turn _ _) hu) (fun v' u' _ hu' => ?_) (fun _ _ h => h)
  by_cases hv' : v' < 0
  · rw [if_pos hv']
    exact rest (keeps_answer _ _) hu'
  rw [if_neg hv', wp_bind]
  refine wp_mono (rest (keeps_modifyProc fun _ => rfl) hu') (fun _ u'' _ hu'' => ?_) (fun _ _ h => h)
  exact rest (keeps_answer _ _) hu''

/-- The loop of the last case goes no further than the head. -/
theorem wp_removeMiddle_head {Q : Option NodePtr → Kernel → Prop} {E : Fault → Prop} {n : NodePtr} {nd : Node} {y : Process}
    {pid : Int} {fuel : Nat} (hn : s.node n = some nd) (hy : s.heap nd.blockedProcess = some y) (hpid : y.pid ≠ pid)
    (hQ : Q (some n) s) : wp (removeMiddle pid (fuel + 1) (some n) n) Q E s := by
  rw [removeMiddle, wp_bind, wp_derefNode hn, wp_bind, wp_deref hy, if_pos hpid, wp_bind, wp_setNextBlockStruct hn,
    wp_pure]
  have hsame : s.setNode n { nd with nextBlockStruct := nd.nextBlockStruct } = s := by
    simp only [Kernel.setNode]
    rw [← hn, Function.update_eq_self]
  rw [hsame]
  exact hQ

/-- What `remove_proc_queue` does with a pid that neither the first nor the last process
of a list of two or more has: it takes the head for the node it looks for. -/
theorem wp_removeProcQueue_middle {Q : Int → Kernel → Prop} {E : Fault → Prop} {n tl : NodePtr} {nd ndt : Node} {y z : Process}
    {pid signal : Int} (hsem : s.semaphoreTable sem = some st) (hhead : st.head = some n) (htail : st.tail = some tl)
    (hne : n ≠ tl) (hn : s.node n = some nd) (ht : s.node tl = some ndt) (hy : s.heap nd.blockedProcess = some y)
    (hz : s.heap ndt.blockedProcess = some z) (hyp : y.pid ≠ pid) (hzp : z.pid ≠ pid)
    (hQ : wp (removeFinish signal n) Q E s) : wp (removeProcQueue sem signal pid) Q E s := by
  have hheader : st.listHeaderProcess = some ⟨some n, some tl⟩ := by rw [Semaphore.header_of_head hhead, htail]
  simp only [removeProcQueue, wp_bind]
  rw [wp_derefSem hsem, hheader]
  simp only [wp_bind]
  rw [wp_derefNode hn, if_neg (by simpa using hne), wp_bind, wp_deref hy, if_neg hyp]
  simp only [wp_bind]
  rw [wp_derefNode ht, wp_deref hz, if_neg hzp]
  simp only [wp_bind, wp_get]
  exact wp_removeMiddle_head hn hy hyp hQ

/-- The first and the last node of a list of two or more. -/
theorem Blocked.ends (hb : Blocked s st ns ps) (hw : Waiters ∅ s sem st ps) (hlen : 2 ≤ ps.length) :
    ∃ n tl nd ndt y z, st.head = some n ∧ st.tail = some tl ∧ n ≠ tl ∧ s.node n = some nd ∧ s.node tl = some ndt ∧
      s.heap nd.blockedProcess = some y ∧ s.heap ndt.blockedProcess = some z ∧
      ps.head? = some nd.blockedProcess ∧ ps.getLast? = some ndt.blockedProcess := by
  have hns : 2 ≤ ns.length := by rwa [hb.length_eq]
  obtain ⟨n, hn⟩ : ∃ n, ns.head? = some n := ⟨_, List.head?_eq_some_head (by rintro rfl; simp at hns)⟩
  obtain ⟨tl, htl⟩ : ∃ tl, ns.getLast? = some tl := ⟨_, List.getLast?_eq_some_getLast (by rintro rfl; simp at hns)⟩
  have hne : n ≠ tl := by
    rintro rfl
    obtain ⟨k, rfl⟩ := List.getLast?_eq_some_iff.1 htl
    have hnd := hb.chain.nodup
    cases k with
    | nil => simp at hns
    | cons m k =>
      obtain rfl : m = n := by simpa using hn
      simp at hnd
  obtain ⟨q, hq, hqn⟩ := hb.mem_procs (List.mem_of_head? hn)
  obtain ⟨q', hq', hqt⟩ := hb.mem_procs (List.mem_of_getLast? htl)
  obtain ⟨nd, hnode, rfl⟩ := Option.map_eq_some_iff.1 hqn
  obtain ⟨ndt, hnodet, rfl⟩ := Option.map_eq_some_iff.1 hqt
  obtain ⟨-, y, hy, -⟩ := (hw.mem _).1 hq
  obtain ⟨-, z, hz, -⟩ := (hw.mem _).1 hq'
  have hhead := hb.chain.head.trans hn
  have htail := hb.tail.trans htl
  refine ⟨n, tl, nd, ndt, y, z, hhead, htail, hne, hnode, hnodet, hy, hz, ?_, ?_⟩
  · rw [← hb.head_proc, hhead]
    exact hqn
  · rw [← hb.last_proc, htail]
    exact hqt

/-- The list of a process killed in the middle of it stays as it is. -/
theorem wp_procKillDiag_middle (hi : Inv ∅ s) (hx : s.heap p = some x) (hsem : s.semaphoreTable sem = some st)
    (hw : Waiters ∅ s sem st ps) (hb : Blocked s st ns ps) (hp : p ∈ ps) (hfirst : ps.head? ≠ some p)
    (hlast : ps.getLast? ≠ some p) :
    wp (procKillDiag sem x.pid) (fun _ t => ∃ st', t.semaphoreTable sem = some st' ∧ Blocked t st' ns ps)
      (fun _ => True) s := by
  have hlen : 2 ≤ ps.length := by
    obtain ⟨l, k, rfl⟩ := List.append_of_mem hp
    cases l with
    | nil => simp at hfirst
    | cons a l =>
      simp
      omega
  have hroom := hw.room
  have hmax : st.count ≠ maxCount := by
    unfold maxCount
    omega
  obtain ⟨n, tl, nd, ndt, y, z, hhead, htail, hne, hn, ht, hy, hz, hhp, hlp⟩ := hb.ends hw hlen
  have hpid : ∀ q y, s.heap q = some y → q ≠ p → y.pid ≠ x.pid := fun q y hy hq he => hq (hi.pid_inj hy hx he)
  simp only [procKillDiag, wp_bind, wp_getSemaphoreStruct, hsem, if_neg hmax, wp_modifySem hsem,
    if_pos (show st.count + 1 ≤ 0 by omega), wp_pure]
  refine wp_removeProcQueue_middle (s := s.setSem sem _) setSem_semaphoreTable_self (n := n) (y := y) (z := z) hhead
    htail hne hn ht hy hz ?_ ?_ ?_
  · refine hpid _ y hy ?_
    rintro rfl
    exact hfirst hhp
  · refine hpid _ z hz ?_
    rintro rfl
    exact hlast hlp
  · have hy1 : ((s.setSem sem (some { st with count := st.count + 1 })).mapProc nd.blockedProcess
        fun r => { r with state := .activatable }).heap nd.blockedProcess = some { y with state := .activatable } := by
      simp [hy]
    simp only [removeFinish, wp_bind]
    rw [wp_derefNode (s := s.setSem sem _) hn, wp_modifyProc (s := s.setSem sem _) hy]
    simp only [ne_eq, not_true_eq_false, if_false]
    rw [wp_bind, wp_modifyProc hy1, wp_pure]
    refine ⟨{ st with count := st.count + 1 }, setSem_semaphoreTable_self, ?_⟩
    exact ⟨hb.chain, hb.tail, hb.procs, hb.bound⟩

/-- `kill` of a waiting process takes it off the list exactly if it is at an end of it. -/
theorem kill_waiter_iff {pid : Int} (hs : Ready s) (hsem : s.semaphoreTable sem = some st) (hw : Waiters ∅ s sem st ps)
    (hp : p ∈ ps) (htable : s.pidProcessHashTable (toInt32 pid) = some p) (hst : Step s (.syscall (.kill pid)) t) :
    KillsWaiter s t sem p ↔ ps.head? = some p ∨ ps.getLast? = some p := by
  obtain ⟨c, r, hr⟩ := hs.running_of_syscall hst
  obtain ⟨ns, hb⟩ := hw.list
  have hwf := (hw.mem p).1 hp
  obtain ⟨-, x, hx, -⟩ := id hwf
  have hnodup := hw.nodup
  constructor
  · intro hkill
    by_contra hends
    obtain ⟨hfirst, hlast⟩ := not_or.1 hends
    have hlist := wp_ok (wp_kill_waiter hs.inv hr hx hwf htable
      (P := fun t => ∃ st', t.semaphoreTable sem = some st' ∧ Blocked t st' ns ps)
      (fun t u ⟨st', h1, h2⟩ hu => ⟨st', by rw [Kernel.waitLists_table hu, h1], h2.waitLists hu⟩)
      (wp_procKillDiag_middle hs.inv hx hsem hw hb hp hfirst hlast)) hst.2
    obtain ⟨st', hst', hb'⟩ := hlist
    obtain ⟨st₁, st₂, ns₁, ns₂, ps₁, hst₁, hb₁, hst₂, -, hb₂, -⟩ := hkill.struck
    obtain rfl : st = st₁ := Option.some.inj (hsem.symm.trans hst₁)
    obtain rfl : st' = st₂ := Option.some.inj (hst'.symm.trans hst₂)
    obtain ⟨-, rfl⟩ := hb.unique hb₁
    obtain ⟨-, he⟩ := hb'.unique hb₂
    rw [he] at hp
    exact hnodup.not_mem_erase hp
  · intro hends
    have hend : s.AtEnd sem p := by
      refine ⟨st, hsem, ?_⟩
      rwa [hb.head_proc, hb.last_proc]
    have hdiag : wp (procKillDiag sem x.pid) (fun _ t => Struck s t sem p) (fun _ => True) s := by
      have m : Mid .any s ∅ s c r := hr.mid hs.inv (fun _ _ _ _ _ => trivial) trivial
      exact wp_mono (m.wp_procKillDiag hx hwf hend fun _ _ _ _ _ h => h) (fun _ _ _ h => h) (fun _ _ _ => trivial)
    have hstruck := wp_ok (wp_kill_waiter hs.inv hr hx hwf htable (fun _ _ h hu => h.waitLists hu) hdiag) hst.2
    refine ⟨hstruck, fun q hqp hq => ?_⟩
    -- the lists of the state after it hold who waits
    have hready : Ready t := hs.step (fun q y hq hy hblocked => by
      have hqp : q = p := by
        have htarget : (if toInt32 pid = idleId ∨ toInt32 pid = kernelId then none
          else s.pidProcessHashTable (toInt32 pid)) = some q := hq
        split at htarget
        · cases htarget
        · exact Option.some.inj (htarget.symm.trans htable)
      subst hqp
      obtain ⟨-, y', hy', -, -, hid⟩ := hwf
      rw [hy] at hy'
      cases hy'
      rwa [hid]) hst
    obtain ⟨st₁, st₂, ns₁, ns₂, ps₁, hst₁, hb₁, hst₂, -, hb₂, -⟩ := hstruck
    obtain rfl : st = st₁ := Option.some.inj (hsem.symm.trans hst₁)
    obtain ⟨-, rfl⟩ := hb.unique hb₁
    obtain ⟨ps₂, hw₂⟩ := hready.inv.sems.lists sem st₂ hst₂
    obtain ⟨ns₃, hb₃⟩ := hw₂.list
    obtain ⟨-, rfl⟩ := hb₂.unique hb₃
    obtain ⟨-, y, hy, -, hstate, -⟩ := (hw₂.mem q).1 ((List.mem_erase_of_ne hqp).2 ((hw.mem q).2 hq))
    exact ⟨y, hy, hstate⟩

/-- `remove_proc_queue` with a pid nobody in the list has. -/
theorem removeProcQueue_foreign_iff {pid signal : Int} (hsem : s.semaphoreTable sem = some st)
    (hw : Waiters ∅ s sem st ps) (hpid : ∀ q ∈ ps, ∀ y, s.heap q = some y → y.pid ≠ pid) :
    removeProcQueue sem signal pid s = .ok (-1, s) ↔ ps.length = 1 := by
  obtain ⟨ns, hb⟩ := hw.list
  have other : ∀ (v : Int), v ≠ -1 → wp (removeProcQueue sem signal pid) (fun w _ => w = v) (fun _ => True) s →
      ¬ removeProcQueue sem signal pid s = .ok (-1, s) := by
    intro v hv hwp hrun
    exact hv (wp_ok hwp hrun).symm
  match hps : ps with
  | [] =>
    refine iff_of_false (other 1 (by decide) ?_) (by simp)
    obtain rfl : ns = [] := List.eq_nil_of_length_eq_zero (by simpa using hb.length_eq)
    have hnone : st.head = none := hb.chain.head
    simp only [removeProcQueue, wp_bind]
    rw [wp_derefSem hsem]
    cases hheader : st.listHeaderProcess with
    | none => rfl
    | some h =>
      obtain ⟨hd, tl⟩ := h
      obtain rfl : hd = none := by simpa [Semaphore.head, hheader] using hnone
      rfl
  | [q] =>
    refine iff_of_true ?_ rfl
    obtain ⟨n, ns', nd, rfl, hhead, hnd, hq, hseg, hprocs⟩ := hb.cons
    obtain rfl : ns' = [] := List.eq_nil_of_length_eq_zero (by simpa using hb.length_eq)
    obtain ⟨-, y, hy, -⟩ := (hw.mem q).1 (by simp)
    have htail : st.tail = some n := hb.tail
    have hwp : wp (removeProcQueue sem signal pid) (fun v t => v = -1 ∧ t = s) (fun _ => False) s := by
      simp only [removeProcQueue, wp_bind]
      rw [wp_derefSem hsem, Semaphore.header_of_head hhead, htail]
      simp only [wp_bind]
      rw [wp_derefNode hnd, if_pos trivial, wp_bind, wp_deref (hq ▸ hy), if_neg (hpid q (by simp) y hy)]
      exact ⟨rfl, rfl⟩
    obtain ⟨v, t, hrun, rfl, rfl⟩ := wp_returns hwp
    exact hrun
  | q :: q' :: l =>
    refine iff_of_false (other 0 (by decide) ?_) (by simp)
    obtain ⟨n, tl, nd, ndt, y, z, hhead, htail, hne, hn, ht, hy, hz, hhp, hlp⟩ := hb.ends hw (by simp)
    refine wp_removeProcQueue_middle hsem hhead htail hne hn ht hy hz
      (hpid _ (List.mem_of_head? hhp) y hy) (hpid _ (List.mem_of_getLast? hlp) z hz) ?_
    rw [removeFinish, wp_bind, wp_derefNode hn, wp_bind, wp_modifyProc hy]
    have last : ∀ u : Kernel, wp (do
        modifyProc nd.blockedProcess fun r => { r with semSignal := signal }
        pure (0 : Int)) (fun w _ => w = 0) (fun _ => True) u := by
      intro u
      rw [wp_bind]
      exact wp_modifyProc_any trivial fun _ _ => rfl
    split
    · rw [wp_bind]
      have chained : Keeps Kernel.waitLists (queueAdd nd.blockedProcess .activatable Process.prioField) :=
        keeps_queueAdd fun _ _ => rfl
      exact wp_mono (chained _) (fun _ u _ _ => last u) (fun _ _ h => h)
    · exact last _

/-- `kill` and `remove_proc_queue` treat the list of a semaphore as they should exactly for
the processes at its ends and, with a pid nobody in it has, for a list of one. -/
theorem waiter_removed_iff {pid : Int} (hs : Ready s) (hsem : s.semaphoreTable sem = some st)
    (hw : Waiters ∅ s sem st ps) :
    (∀ p ∈ ps, s.pidProcessHashTable (toInt32 pid) = some p → ∀ t, Step s (.syscall (.kill pid)) t →
      (KillsWaiter s t sem p ↔ ps.head? = some p ∨ ps.getLast? = some p)) ∧
    ((∀ p ∈ ps, ∀ x, s.heap p = some x → x.pid ≠ pid) → ∀ signal,
      (removeProcQueue sem signal pid s = .ok (-1, s) ↔ ps.length = 1)) :=
  ⟨fun _ hp htable _ hst => kill_waiter_iff hs hsem hw hp htable hst,
    fun hpid _ => removeProcQueue_foreign_iff hsem hw hpid⟩

end kill

/-- The only process that waits is killed. -/
theorem waiter_removed_iff_first : ∃ s t, Reached KillsAtEnd s ∧ Step s (.syscall (.kill 3)) t ∧ KillsWaiter s t 1 2 := by
  have hrun : (run boot [.timer, .syscall (.screate 0 true), startShell 3, .syscall (.wait 1), .resume]).bind
      (fun s => (s.semaphoreTable 1).bind fun st => (run s [.syscall (.kill 3)]).bind fun _ =>
        if s.pidProcessHashTable (toInt32 3) = some 2 ∧ st.head.bind s.blockedAt = some 2 then some () else none) =
      some () := by decide +kernel
  obtain ⟨s, hs, hf⟩ := reached_of_run (C := KillsAtEnd) (by
    intro u e he
    simp only [List.mem_cons, List.not_mem_nil, or_false] at he
    rcases he with rfl | rfl | rfl | rfl | rfl <;> exact .of_none rfl) hrun
  obtain ⟨st, hsem, hf⟩ := Option.bind_eq_some_iff.1 hf
  obtain ⟨t, ht, hf⟩ := Option.bind_eq_some_iff.1 hf
  split at hf
  · next h =>
    have hready : Ready s := hs.ready fun _ _ h => h
    obtain ⟨ps, hw⟩ := hready.inv.sems.lists 1 st hsem
    obtain ⟨ns, hb⟩ := hw.list
    have hhead : ps.head? = some 2 := hb.head_proc.symm.trans h.2
    exact ⟨s, t, hs, run_step ht, ((waiter_removed_iff hready hsem hw).1 2 (List.mem_of_head? hhead) h.1 t
      (run_step ht)).2 (.inl hhead)⟩
  · cases hf

/-- Three processes wait and the second is killed. -/
theorem waiter_not_removed : ¬ ∀ s t st ps sem pid p, Reached KillsAtEnd s → s.semaphoreTable sem = some st →
    Waiters ∅ s sem st ps → p ∈ ps → s.pidProcessHashTable (toInt32 pid) = some p →
    Step s (.syscall (.kill pid)) t → KillsWaiter s t sem p := by
  have hrun : (run boot [.timer, .syscall (.screate 0 true), startShell 3, .syscall (.wait 1), .resume, startShell 3,
      .syscall (.wait 1), .resume, startShell 3, .syscall (.wait 1), .resume]).bind
      (fun s => (s.semaphoreTable 1).bind fun st => (s.heap 3).bind fun x => (run s [.syscall (.kill 4)]).bind fun t =>
        (t.heap 2).bind fun y => (s.heap 2).bind fun z =>
        if (s.pidProcessHashTable (toInt32 4) = some 3 ∧ x.started = true ∧ x.state = .blockedSemaphore) ∧
          (x.semaphoreId = 1 ∧ z.semaphoreId = 1 ∧ z.started = true ∧ z.state = .blockedSemaphore) ∧
          y.state = .activatable then some () else none) =
      some () := by decide +kernel
  obtain ⟨s, hs, hf⟩ := reached_of_run (C := KillsAtEnd) (by
    intro u e he
    simp only [List.mem_cons, List.not_mem_nil, or_false] at he
    rcases he with rfl | rfl | rfl | rfl | rfl | rfl | rfl | rfl | rfl | rfl | rfl <;> exact .of_none rfl) hrun
  obtain ⟨st, hsem, hf⟩ := Option.bind_eq_some_iff.1 hf
  obtain ⟨x, hx, hf⟩ := Option.bind_eq_some_iff.1 hf
  obtain ⟨t, ht, hf⟩ := Option.bind_eq_some_iff.1 hf
  obtain ⟨y, hy, hf⟩ := Option.bind_eq_some_iff.1 hf
  obtain ⟨z, hz, hf⟩ := Option.bind_eq_some_iff.1 hf
  split at hf
  · next h =>
    obtain ⟨⟨htable, hxs, hxb⟩, ⟨hxi, hzi, hzs, hzb⟩, hya⟩ := h
    have hready : Ready s := hs.ready fun _ _ h => h
    obtain ⟨ps, hw⟩ := hready.inv.sems.lists 1 st hsem
    have hmem : 3 ∈ ps := (hw.mem 3).2 ⟨by simp, x, hx, hxs, hxb, hxi⟩
    intro hall
    obtain ⟨y', hy', hblocked⟩ := (hall s t st ps 1 4 3 hs hsem hw hmem htable (run_step ht)).others 2 (by decide)
      ⟨by simp, z, hz, hzs, hzb, hzi⟩
    rw [hy] at hy'
    cases hy'
    rw [hya] at hblocked
    cases hblocked
  · cases hf

end Xinul
