import Xinul.Runs.Order

/-!
# The running process has the greatest priority

A function that makes a process of a greater priority than the caller's activatable
calls `scheduler` afterwards; the exception is `kill`, which wakes the parent of the
process it ends when the parent waits for a child.
-/

namespace Xinul

open Prog Machine

/-- `kill` of another process does not wake a parent of a greater priority than the
caller's, and `chprio` gives a process still `ASLEEP` in the activatable queue the
priority it has. -/
structure KillsCalmly (s : Kernel) (e : Event) : Prop where
  kills : KillsAtEnd s e
  waiting : ∀ p x q z c r, e.target s = some p → s.heap p = some x → x.state.dead = false → x.parent = some q →
    s.heap q = some z → z.state = .blockedWaitChild → Running s c r → p ≠ c → z.prio ≤ r.prio
  asleep : ∀ p x v, e.reprios s = some (p, v) → s.heap p = some x → x.state = .asleep →
    p ∈ s.queue .activatable → v = x.prio

/-- The pid of the running process is in use, once there is one. -/
def Seated (s : Kernel) : Prop :=
  s.currentRunningProcessPid = -1 ∨ s.pidProcessHashTable s.currentRunningProcessPid ≠ none

theorem KillsCalmly.of_none {s : Kernel} {e : Event} (ht : e.target s = none) (hr : e.reprios s = none) :
    KillsCalmly s e := by
  refine ⟨.of_none ht, fun p x q z c r hp => ?_, fun p x v hp => ?_⟩
  · rw [ht] at hp
    cases hp
  · rw [hr] at hp
    cases hp

section

variable {K : Kind} {H H' : Set Ptr} {s s₀ t : Kernel} {e : Event} {p : Ptr} {r : Process}

theorem KillsCalmly.admits (h : KillsCalmly s e) (hi : Inv ∅ s) :
    ({ Kind.any with rash := False, reorder := False } : Kind).Admits False s e where
  reprio p x v hp hx := ⟨.inl trivial,
    fun hst hn => .inr (h.asleep p x v hp hx hst ((hi.mem _ p).2 ⟨x, hx, hn⟩)), fun _ => .inl trivial⟩
  kills p x c r hr hp hx hpc hd := ⟨h.kills p x hp hx, .inl trivial, .inl trivial,
    fun q z hq hz hst => .inr (h.waiting p x q z c r hp hx hd hq hz hst hr hpc),
    fun _ => ⟨[], False.elim, False.elim, False.elim, .inl trivial⟩, trivial⟩

theorem Act.seated (a : Act K H s H' t) (hi : Inv H s) (h : Seated s) : Seated t := by
  cases a with
  | @run _ _ p r _ _ hp =>
    right
    rw [setRunning_table, setRunning_running, hi.pidOf p r hp]
    exact Option.some_ne_none p
  | @free _ _ p r _ _ _ _ hne =>
    apply h.imp id
    intro hs
    simpa [Kernel.freeRecord, hne.symm] using hs
  | alloc =>
    apply h.imp id
    intro hs
    dsimp only
    rw [Function.update_apply]
    split
    · exact Option.some_ne_none _
    · exact hs
  | other same =>
    unfold Seated
    rw [same.running, same.table]
    exact h
  | _ => exact h

/-- No process in the activatable queue, and not the running process, gained or lost
priority. -/
theorem Calm.congr (h : Calm s) (same : SamePrio s t) (running : t.currentRunningProcessPid = s.currentRunningProcessPid)
    (table : t.pidProcessHashTable s.currentRunningProcessPid = s.pidProcessHashTable s.currentRunningProcessPid)
    (queue : ∀ p ∈ t.queue .activatable, p ∈ s.queue .activatable) : Calm t := by
  intro c rc hc hrc p hp r hr
  rw [running, table] at hc
  obtain ⟨rc', hrc', hcp⟩ := same c rc hrc
  obtain ⟨r', hr', hpp⟩ := same p r hr
  rw [← hcp, ← hpp]
  exact h c rc' hc hrc' p (queue p hp) r' hr'

theorem SamePrio.map {f : Process → Process} (hp : s.heap p = some r) (hf : (f r).prio = r.prio) :
    SamePrio s (s.mapProc p f) := by
  intro q x hx
  rw [mapProc_heap, hp] at hx
  rcases heap_update_cases hx with ⟨rfl, hv⟩ | ⟨_, hx⟩
  · cases hv
    exact ⟨r, hp, hf.symm⟩
  · exact ⟨x, hx, rfl⟩

/-- Without a call of `scheduler` nothing of a greater priority becomes activatable. -/
theorem Act.calm (a : Act K H s H' t) (hi : Inv H s) (hl : ¬ K.resched) (hr : ¬ K.reorder) (hs : Seated s)
    (h : Calm s) : Calm t := by
  cases a with
  | write hp _ prio => exact h.congr (.map hp prio) rfl rfl fun _ hm => hm
  | set _ hp _ prio => exact h.congr (.map hp prio) rfl rfl fun _ hm => hm
  | @link _ _ p r d _ hp _ _ _ hq =>
    intro c rc hc hrc q hm x hx
    obtain ⟨rc', hrc', hcp⟩ := (SamePrio.refl s).link c rc hrc
    obtain ⟨x', hx', hxp⟩ := (SamePrio.refl s).link q x hx
    rw [← hcp, ← hxp]
    by_cases hd : QueueHead.activatable = d
    · subst hd
      rw [link_queue, Function.update_self] at hm
      rcases Waiting.mem_insertWhile.1 hm with rfl | hm
      · rw [hp] at hx'
        cases hx'
        exact (hq rfl).resolve_left hl c rc' hc hrc'
      · exact h c rc' hc hrc' q hm x' hx'
    · rw [link_queue, Function.update_of_ne hd] at hm
      exact h c rc' hc hrc' q hm x' hx'
  | @unlink _ _ p r d hp =>
    apply h.congr (SamePrio.refl s).unlink rfl rfl
    intro q hm
    rw [unlink_queue, Function.update_apply] at hm
    split at hm
    · next hd => exact hd ▸ List.mem_of_mem_erase hm
    · exact hm
  | @reprio _ _ p r v hp h1 h2 h3 =>
    by_cases hv : v = r.prio
    · exact h.congr (.map hp hv) rfl rfl fun _ hm => hm
    -- the process is neither the running one nor in the queue
    have away : p ∉ s.queue .activatable := by
      intro hm
      obtain ⟨x, hx, hn, _⟩ := hi.live_of_mem hm
      rw [hp] at hx
      cases hx
      rw [hn] at h1
      rcases h1 with h1 | h1 | h1 | h1
      · exact hv h1
      · exact hr h1
      · cases h1
      · cases h1
    have idle := (h3.resolve_left hv).resolve_left hl
    intro c rc hc hrc q hm x hx
    have hcp : c ≠ p := fun he => idle (he ▸ hc)
    have hqp : q ≠ p := fun he => away (he ▸ hm)
    rw [mapProc_heap, Function.update_of_ne hcp] at hrc
    rw [mapProc_heap, Function.update_of_ne hqp] at hx
    exact h c rc hc hrc q hm x hx
  | run hresched => exact absurd hresched hl
  | @free _ _ p r hp _ _ _ hne =>
    refine h.congr ?_ rfl ?_ fun _ hm => hm
    · intro q x hx
      rcases heap_update_cases hx with ⟨_, hv⟩ | ⟨_, hx⟩
      · cases hv
      · exact ⟨x, hx, rfl⟩
    · simp [Kernel.freeRecord, hne.symm]
  | @alloc _ _ r pids it _ _ _ _ hused _ hnew =>
    intro c rc hc hrc q hm x hx
    dsimp only at hc
    have hcur : s.currentRunningProcessPid ≠ r.pid := by
      intro he
      rcases hs with hs | hs
      · omega
      · rw [he] at hs
        exact hs hnew
    rw [Function.update_of_ne hcur] at hc
    rcases heap_update_cases hrc with ⟨rfl, _⟩ | ⟨_, hrc⟩
    · obtain ⟨y, hy, _⟩ := hi.table _ _ hc
      exact absurd (hi.fresh _ y hy) (Nat.lt_irrefl _)
    · obtain ⟨y, hy, _⟩ := hi.live_of_mem hm
      rcases heap_update_cases hx with ⟨rfl, _⟩ | ⟨_, hx⟩
      · exact absurd (hi.fresh _ y hy) (Nat.lt_irrefl _)
      · exact h c rc hc hrc q hm x hx
  | birth _ hp _ _ _ prio => exact h.congr (.map hp prio) rfl rfl fun _ hm => hm
  | @block _ _ p r sem st st' ns ns' ps N _ hp =>
    refine h.congr ?_ rfl rfl fun _ hm => hm
    exact SamePrio.map (f := fun r => { r with
      semaphoreId := sem, state := .blockedSemaphore, stamp := s.insertions }) hp rfl
  | other same =>
    apply h.congr _ same.running (by rw [same.table]) (by simp [same.queue])
    intro q x hx
    exact ⟨x, same.heap ▸ hx, rfl⟩
  | _ => exact h.congr (.refl _) rfl rfl fun _ hm => hm

theorem Chain.calm (ch : Chain K s₀ H s) (hl : ¬ K.resched) (hr : ¬ K.reorder) (hs : Seated s₀) (h : Calm s₀) :
    Calm s := by
  have both := ch.induct (P := fun _ s => Seated s ∧ Calm s) ⟨hs, h⟩ fun _ _ _ _ hi h a =>
    ⟨a.seated hi h.1, a.calm hi hl hr h.1 h.2⟩
  exact both.2

theorem Ready.seated (h : Ready s) : Seated s := by
  rcases h.stage with hb | ⟨c, r, hr⟩
  · exact .inl hb.running
  · right
    rw [hr.table]
    exact Option.some_ne_none c

theorem Reached.calm (h : Reached KillsCalmly s) : Ready s ∧ QueueOrder s ∧ Calm s := by
  induction h with
  | init hb =>
    refine ⟨hb.ready, hb.queueOrder, fun c rc hc => ?_⟩
    rw [hb.booting.table_none] at hc
    cases hc
  | step _ hc hst ih =>
    obtain ⟨hready, horder, hcalm⟩ := ih
    have ho := hst.outcome hready (hc.admits hready.inv) False.elim (G := False) False.elim
    refine ⟨ho.ready hready, ho.after.chain.queueOrder id horder, ?_⟩
    rcases ho.after.calm with hch | ⟨H, u, hch, hcalm'⟩
    · exact hch.calm id id hready.seated hcalm
    · exact hcalm' ((hch.queueOrder id horder).actOrder hch.inv)

end

/-- In every run in which `kill` does not wake a waiting parent of a greater priority than
the caller's, and `chprio` does not change the priority of a process still `ASLEEP` in the
activatable queue: no activatable process has a greater priority than the running one. -/
theorem running_outranks {s : Kernel} {c p : Ptr} {rc r : Process} (hs : Reached KillsCalmly s)
    (hc : s.pidProcessHashTable s.currentRunningProcessPid = some c) (hrc : s.heap c = some rc)
    (hp : p ∈ s.queue .activatable) (hr : s.heap p = some r) : r.prio ≤ rc.prio :=
  hs.calm.2.2 c rc hc hrc p hp r hr

/-- A child that was started runs before its parent. -/
theorem running_outranks_start : ∃ s rc r, Reached KillsCalmly s ∧
    s.pidProcessHashTable s.currentRunningProcessPid = some 2 ∧ s.heap 2 = some rc ∧ 1 ∈ s.queue .activatable ∧
      s.heap 1 = some r ∧ r.prio ≤ rc.prio := by
  have hrun : (run boot [.timer, startShell 3]).bind (fun s => some (
      s.pidProcessHashTable s.currentRunningProcessPid, s.queue .activatable, (s.heap 2).isSome, (s.heap 1).isSome)) =
      some (some 2, [0, 1], true, true) := by decide +kernel
  have hcond : ∀ u, ∀ e ∈ [.timer, startShell 3], KillsCalmly u e := by
    intro u e he
    simp only [List.mem_cons, List.not_mem_nil, or_false] at he
    rcases he with rfl | rfl <;> exact .of_none rfl rfl
  obtain ⟨s, hs, hval⟩ := reached_of_run hcond hrun
  simp only [Option.some.injEq, Prod.mk.injEq] at hval
  obtain ⟨hc, hq, hrc, hr⟩ := hval
  obtain ⟨rc, hrc⟩ := Option.isSome_iff_exists.1 hrc
  obtain ⟨r, hr⟩ := Option.isSome_iff_exists.1 hr
  have hm : 1 ∈ s.queue .activatable := by simp [hq]
  exact ⟨s, rc, r, hs, hc, hrc, hm, hr, running_outranks hs hc hrc hm hr⟩

/-- A process waits for its child, and a process of a smaller priority kills the child. -/
theorem running_outranked_by_parent : ¬ ∀ s c p rc r, Reached (fun _ _ => True) s →
    s.pidProcessHashTable s.currentRunningProcessPid = some c → s.heap c = some rc → p ∈ s.queue .activatable →
      s.heap p = some r → r.prio ≤ rc.prio := by
  have hrun : (run boot [.timer, startShell 5, startShell 1, .syscall (.waitpid 4 false), .resume,
      .syscall (.kill 4)]).bind (fun s => some (s.pidProcessHashTable s.currentRunningProcessPid,
        s.queue .activatable, (s.heap 1).map (·.prio), (s.heap 2).map (·.prio))) =
      some (some 1, [0, 2], some 2, some 5) := by decide +kernel
  obtain ⟨s, hs, hval⟩ := reached_of_run (C := fun _ _ => True) (fun _ _ _ => trivial) hrun
  simp only [Option.some.injEq, Prod.mk.injEq] at hval
  obtain ⟨hc, hq, hrc, hr⟩ := hval
  obtain ⟨rc, hrc, hrcp⟩ := Option.map_eq_some_iff.1 hrc
  obtain ⟨r, hr, hrp⟩ := Option.map_eq_some_iff.1 hr
  intro h
  have hle := h s 1 2 rc r hs hc hrc (by simp [hq]) hr
  omega

end Xinul
