import Xinul.Lib.Turns
import Xinul.Proofs.Sleeping
import Xinul.Runs.Order

/-!
# Round robin

While nobody wakes up and nobody is to be freed, a call of `scheduler` by the process that
runs is a turn of the activatable queue.
-/

namespace Xinul

open Prog Turns

/-- No sleeper is due, and no process waits to be freed. -/
structure Undisturbed (s : Kernel) : Prop where
  asleep : ∀ l p r, s.queue .asleep = l ++ [p] → s.heap p = some r → 0 ≤ r.deadline ∧ ¬ r.Overdue s.counter
  dead : s.queue .dead = []

/-- The priority of a process. -/
def Kernel.prioOf (s : Kernel) : Ptr → Int := s.value Process.prioField

section

variable {s t : Kernel} {c p : Ptr} {r x : Process} {l : List Ptr}

theorem prioOf_eq (hp : s.heap p = some r) : s.prioOf p = r.prio := by simp [Kernel.prioOf, Kernel.value, hp, Process.prioField]

theorem Undisturbed.awake (h : Undisturbed s) (hi : Core ∅ s) :
    wp awakeSleepingProcess (fun _ t => t = s) (fun _ => False) s := by
  rw [awakeSleepingProcess, wp_bind, wp_get, awakeSleepingLoop, wp_bind, getNextWakeTime, wp_bind, wp_queueTop]
  cases hlast : (s.queue .asleep).getLast? with
  | none => simp
  | some p =>
    obtain ⟨l, hq⟩ := List.getLast?_eq_some_iff.1 hlast
    obtain ⟨r, hr, -, -⟩ := hi.live_of_mem (p := p) (d := .asleep) (by simp [hq])
    obtain ⟨hpos, hdue⟩ := h.asleep l p r hq hr
    unfold Process.deadline at hpos
    have hwait : ¬ ((Int.bmod (-r.wakeTime) (2 ^ 64)).toNat ≠ 0 ∧ s.counter > (Int.bmod (-r.wakeTime) (2 ^ 64)).toNat) := by
      rintro ⟨hne, hgt⟩
      apply hdue
      unfold Process.Overdue Process.deadline
      omega
    simp only [wp_bind, wp_deref hr, if_neg (not_lt_of_ge hpos), wp_pure, wp_get, if_neg hwait]

theorem Undisturbed.free (h : Undisturbed s) : wp freeDeadProcess (fun _ t => t = s) (fun _ => False) s := by
  rw [freeDeadProcess, wp_bind, wp_get, freeDeadLoop, wp_bind, queueOut, wp_bind, wp_get, h.dead]
  simp

/-- Nobody's wake-up time was written. -/
theorem Undisturbed.congr (h : Undisturbed s) (asleep : t.queue .asleep = s.queue .asleep) (dead : t.queue .dead = s.queue .dead)
    (counter : t.counter = s.counter)
    (wake : ∀ p y, t.heap p = some y → ∃ x, s.heap p = some x ∧ y.wakeTime = x.wakeTime) : Undisturbed t := by
  constructor
  · intro l p y hq hy
    obtain ⟨x, hx, hw⟩ := wake p y hy
    rw [asleep] at hq
    have hnot := h.asleep l p x hq hx
    unfold Process.Overdue Process.deadline at hnot ⊢
    rw [hw, counter]
    exact hnot
  · rw [dead, h.dead]

/-- The writes of a turn: the process switched to is `p`, and `c` waits again. -/
theorem wp_giveWay (hi : Core ∅ s) (hu : Undisturbed s) (hq : s.queue .activatable = l ++ [p]) (hp : s.heap p = some x)
    (hc : s.heap c = some r) (hcn : r.nextPrev = none) (hpc : p ≠ c) (k : Int) :
    wp (do
        modifyProc c fun r => { r with state := .activatable }
        modifyProc p fun r => { r with state := .actif }
        queueAdd c .activatable Process.prioField)
      (fun _ t => Undisturbed t ∧ t.prioOf = s.prioOf ∧ t.queue .activatable = putBack s.prioOf c l ∧
        t.pidProcessHashTable = s.pidProcessHashTable)
      (fun _ => False) ((s.unlink p .activatable).setRunning k) := by
  have hc1 : ((s.unlink p .activatable).setRunning k).heap c = some r := by simp [hpc.symm, hc]
  rw [wp_bind, wp_modifyProc hc1, wp_bind]
  have hp2 : (((s.unlink p .activatable).setRunning k).mapProc c fun r => { r with state := .activatable }).heap p
      = some { x with nextPrev := none } := by simp [hpc, hp]
  rw [wp_modifyProc hp2]
  generalize hv : ((((s.unlink p .activatable).setRunning k).mapProc c fun r => { r with state := .activatable }).mapProc p
    fun r => { r with state := .actif }) = v
  have hcv : v.heap c = some { r with state := .activatable } := by simp [← hv, hpc.symm, hc]
  have hqv : v.queue .activatable = l := by
    have hnd := hi.nodup .activatable
    rw [hq] at hnd
    have hpl : p ∉ l := fun hm => (List.disjoint_of_nodup_append hnd) hm (by simp)
    simp [← hv, hq, List.erase_append_right _ hpl]
  have hval : v.prioOf = s.prioOf := by
    funext q
    unfold Kernel.prioOf
    rw [← hv, value_mapProc hp2 rfl, value_mapProc hc1 rfl]
    exact value_mapProc (f := fun r => { r with nextPrev := none }) hp rfl
  -- the records that are written keep their wake-up time
  have hheap : ∀ q y, v.heap q = some y → ∃ z, s.heap q = some z ∧ y.wakeTime = z.wakeTime := by
    intro q y hy
    simp only [← hv, mapProc_heap, setRunning_heap, unlink_heap] at hy
    by_cases hqp : q = p
    · subst hqp
      simp only [Function.update_self, Function.update_of_ne hpc, hp, Option.map_some, Option.some.injEq] at hy
      exact ⟨x, hp, by rw [← hy]⟩
    · by_cases hqc : q = c
      · subst hqc
        simp only [Function.update_self, Function.update_of_ne hqp, hc, Option.map_some, Option.some.injEq] at hy
        exact ⟨r, hc, by rw [← hy]⟩
      · simp only [Function.update_of_ne hqp, Function.update_of_ne hqc] at hy
        exact ⟨y, hy, rfl⟩
  have hlive : ∀ q ∈ v.queue .activatable, ∃ y, v.heap q = some y := by
    intro q hm
    rw [hqv] at hm
    obtain ⟨y, hy, -, -⟩ := hi.live_of_mem (p := q) (d := .activatable) (by simp [hq, hm])
    rw [← hv]
    by_cases hqp : q = p
    · simp [hqp, hpc, hp]
    · by_cases hqc : q = c
      · simp [hqc, hpc.symm, hc]
      · simp [hqp, hqc, hy]
  simp only [queueAdd, wp_bind, wp_deref hcv, hcn, ne_eq, not_true_eq_false, if_false, wp_get]
  rw [wp_queueWalk hlive, wp_modify]
  have hrank : r.prio = s.prioOf c := (prioOf_eq hc).symm
  refine ⟨?_, ?_, ?_, by simp [← hv]⟩
  · apply hu.congr
    · simp [← hv]
    · simp [← hv]
    · rw [← hv]
      rfl
    · intro q y hy
      rw [link_heap] at hy
      by_cases hqc : q = c
      · subst hqc
        rw [Function.update_self, hcv] at hy
        obtain ⟨z, hz, hw⟩ := hheap q _ hcv
        cases hy
        exact ⟨z, hz, hw⟩
      · rw [Function.update_of_ne hqc] at hy
        exact hheap q y hy
  · rw [← hval]
    funext q
    exact value_mapProc (f := fun r => { r with nextPrev := some .activatable, stamp := v.insertions }) hcv rfl
  · have hvalue : v.value Process.prioField = s.prioOf := hval
    rw [link_queue, Function.update_self, hqv, hvalue]
    unfold putBack
    rw [← hrank]
    rfl

/-- A call of `scheduler` is a turn. -/
theorem wp_scheduler_turn (hi : Inv ∅ s) (hc : Running s c r) (hu : Undisturbed s) :
    wp scheduler (fun _ t => Inv ∅ t ∧ Undisturbed t ∧ t.prioOf = s.prioOf ∧
      ∃ d x, Running t d x ∧ (d, t.queue .activatable) = turn s.prioOf (c, s.queue .activatable))
      (fun _ => False) s := by
  rw [scheduler, wp_bind]
  refine wp_mono (hu.awake hi.toCore) (fun _ t _ ht => ?_) (fun _ _ h => h)
  rw [ht, wp_bind]
  refine wp_mono hu.free (fun _ t _ ht => ?_) (fun _ _ h => h)
  rw [ht]
  have hpid := hc.caller.pid_ne hi.toCore
  simp only [scheduleNext, wp_bind, wp_getpid, if_neg hpid, wp_get, hc.user, wp_getCurrentProcess, hc.table, wp_queueTop,
    Bool.true_eq_false, if_false]
  cases hlast : (s.queue .activatable).getLast? with
  | none =>
    have hnil := List.getLast?_eq_none_iff.1 hlast
    exact ⟨hi, hu, rfl, c, r, hc, by rw [hnil, turn_nil]⟩
  | some p =>
    obtain ⟨l, hq⟩ := List.getLast?_eq_some_iff.1 hlast
    obtain ⟨x, hp, hn, -, -⟩ := hi.top hq
    simp only [wp_bind, wp_deref hc.heap, if_pos hc.state, wp_deref hp]
    have hrank : r.prio ≤ x.prio ↔ s.prioOf c ≤ s.prioOf p := by
      rw [prioOf_eq hc.heap, prioOf_eq hp]
      omega
    by_cases hle : x.prio ≥ r.prio
    · rw [if_pos hle]
      apply wp_dispatch hi hq hp
      -- the caller waits for its next turn, and the process switched to is in no list
      have hdone := (Chain.refl (K := Kind.any) hi).preempt trivial hc hq hp hle
      have hcn := hc.unlinked hi.toCore (by simp)
      have hpc : p ≠ c := by
        rintro rfl
        rw [hc.heap] at hp
        cases hp
        rw [hcn] at hn
        cases hn
      refine wp_mono (wp_and (wp_giveWay hi.toCore hu hq hp hc.heap hcn hpc x.pid) hdone) (fun _ t _ ht => ?_) (fun _ _ hf => hf)
      obtain ⟨⟨hut, hprio, hqt, htable⟩, hd, hpid⟩ := ht
      obtain ⟨d, y, hrun⟩ := hd.running
      refine ⟨hd.chain.inv, hut, hprio, d, y, hrun, ?_⟩
      have hdp : d = p := by
        have hrt := hrun.table
        rw [hpid, htable, hi.pidOf p x hp] at hrt
        exact (Option.some.inj hrt).symm
      rw [hq, turn_snoc, if_pos (hrank.1 hle), hqt, hdp]
    · rw [if_neg hle]
      refine ⟨hi, hu, rfl, c, r, hc, ?_⟩
      rw [hq, turn_snoc, if_neg (fun h => hle (hrank.2 h))]

/-! ## Successive calls -/

/-- `k` successive calls of `scheduler`. -/
def schedulerCalls : Nat → KernelM Unit
  | 0 => pure ()
  | k + 1 => do
    scheduler
    schedulerCalls k

/-- The process that runs after `k` successive calls of `scheduler`. -/
def Kernel.runsAfter (s : Kernel) (k : Nat) : Option Ptr :=
  match schedulerCalls k s with
  | .ok (_, t) => t.caller
  | .error _ => none

/-- The process at `c` and those of its priority in the activatable queue, which is served
from its end. -/
def Kernel.peers (s : Kernel) (c : Ptr) : List Ptr :=
  c :: ((s.queue .activatable).filter fun p => decide (s.prioOf p = s.prioOf c)).reverse

/-- The process at `c`, which runs, and its peers take turns. -/
structure RoundRobin (s : Kernel) (c : Ptr) : Prop where
  cyclic : ∀ k, s.runsAfter k = (s.peers c)[k % (s.peers c).length]?
  once : ∀ k, ((List.range' (k + 1) (s.peers c).length).map s.runsAfter).Perm ((s.peers c).map some)
  top : ∀ k p, s.runsAfter k = some p → s.prioOf p = s.prioOf c
  restored : ∃ t, schedulerCalls (s.peers c).length s = .ok ((), t) ∧ t.caller = s.caller ∧
    t.queue .activatable = s.queue .activatable

/-- `k` calls are `k` turns. -/
theorem wp_schedulerCalls (hi : Inv ∅ s) (hc : Running s c r) (hu : Undisturbed s) (k : Nat) :
    wp (schedulerCalls k) (fun _ t => ∃ d x, Running t d x ∧
      (d, t.queue .activatable) = (turn s.prioOf)^[k] (c, s.queue .activatable)) (fun _ => False) s := by
  induction k generalizing s c r with
  | zero => exact ⟨c, r, hc, rfl⟩
  | succ k ih =>
    rw [schedulerCalls, wp_bind]
    refine wp_mono (wp_scheduler_turn hi hc hu) (fun _ t _ ht => ?_) (fun _ _ hf => hf)
    obtain ⟨hit, hut, hprio, d, x, hd, hturn⟩ := ht
    refine wp_mono (ih hit hd hut) (fun _ u _ hu' => ?_) (fun _ _ hf => hf)
    obtain ⟨e, y, he, hturns⟩ := hu'
    refine ⟨e, y, he, ?_⟩
    rw [hturns, hprio, hturn, Function.iterate_succ_apply]

theorem schedulerCalls_turns (hi : Inv ∅ s) (hc : Running s c r) (hu : Undisturbed s) (k : Nat) :
    ∃ t d, schedulerCalls k s = .ok ((), t) ∧ t.caller = some d ∧
      (d, t.queue .activatable) = (turn s.prioOf)^[k] (c, s.queue .activatable) := by
  obtain ⟨_, t, hrun, d, x, hd, hturn⟩ := wp_returns (wp_schedulerCalls hi hc hu k)
  exact ⟨t, d, hrun, hd.table, hturn⟩

theorem runsAfter_eq (hi : Inv ∅ s) (hc : Running s c r) (hu : Undisturbed s) (k : Nat) :
    s.runsAfter k = some ((turn s.prioOf)^[k] (c, s.queue .activatable)).1 := by
  obtain ⟨t, d, hrun, hd, hturn⟩ := schedulerCalls_turns hi hc hu k
  simp only [Kernel.runsAfter, hrun, hd, ← hturn]

theorem mem_peers (hp : p ∈ s.peers c) : s.prioOf p = s.prioOf c := by
  rcases List.mem_cons.1 hp with rfl | hp
  · rfl
  · simpa using (List.mem_filter.1 (List.mem_reverse.1 hp)).2

/-- The peers are at the end of the queue: they take turns. -/
theorem roundRobin_of_pairwise (hi : Inv ∅ s) (hc : Running s c r) (hu : Undisturbed s)
    (hmax : ∀ p ∈ s.queue .activatable, s.prioOf p ≤ s.prioOf c)
    (h : (s.queue .activatable).Pairwise fun p q => s.prioOf p = s.prioOf c → s.prioOf q = s.prioOf c) : RoundRobin s c := by
  obtain ⟨low, hq, hlow⟩ := exists_split hmax h
  have hline : InLine low (s.peers c) (c, s.queue .activatable) := by
    have hmk : InLine low (s.peers c) (c, low ++ _) := .mk c _
    rw [List.reverse_reverse, ← hq] at hmk
    exact hmk
  have hbelow : ∀ x ∈ low, ∀ y ∈ s.peers c, s.prioOf x < s.prioOf y := by
    intro x hx y hy
    rw [mem_peers hy]
    exact hlow x hx
  have hequal : ∀ x ∈ s.peers c, ∀ y ∈ s.peers c, s.prioOf x = s.prioOf y := by
    intro x hx y hy
    rw [mem_peers hx, mem_peers hy]
  have hturns := hline.turns hbelow hequal
  have hcyclic : ∀ k, s.runsAfter k = (s.peers c)[k % (s.peers c).length]? := by
    intro k
    have hhead := (hturns k).head
    have hpos : 0 < (s.peers c).length := by simp [Kernel.peers]
    rw [← List.rotate_mod, List.head?_rotate (Nat.mod_lt k hpos)] at hhead
    rw [runsAfter_eq hi hc hu, hhead]
  constructor
  · exact hcyclic
  · intro k
    have hmap : s.runsAfter = fun k => (s.peers c)[k % (s.peers c).length]? := funext hcyclic
    rw [hmap, consecutive]
    exact (List.rotate_perm _ _).map some
  · intro k p hp
    rw [hcyclic] at hp
    exact mem_peers (List.mem_of_getElem? hp)
  · obtain ⟨t, d, hrun, hd, hturn⟩ := schedulerCalls_turns hi hc hu (s.peers c).length
    refine ⟨t, hrun, ?_⟩
    have hrot := hturns (s.peers c).length
    rw [List.rotate_length, ← hturn] at hrot
    obtain ⟨rfl, hqueue⟩ := Prod.mk.inj (hrot.unique hline)
    exact ⟨by rw [hd, Kernel.caller, hc.table], hqueue⟩

/-- One of the peers is in front of somebody of a lower priority: at some point two calls
in a row leave the same process running. -/
theorem not_roundRobin (hi : Inv ∅ s) (hc : Running s c r) (hu : Undisturbed s)
    (hmax : ∀ p ∈ s.queue .activatable, s.prioOf p ≤ s.prioOf c)
    (h : ¬ (s.queue .activatable).Pairwise fun p q => s.prioOf p = s.prioOf c → s.prioOf q = s.prioOf c) :
    ¬ RoundRobin s c := by
  obtain ⟨l, t, z, tops, hq, ht, hrank, hz, htops⟩ := exists_out_of_line hmax h
  intro hrobin
  have hstop := turns_stop hz ht hrank rfl htops
  -- the same process runs after these two calls, but the peers are at least two
  have hsame : s.runsAfter tops.length = s.runsAfter (tops.length + 1) := by
    rw [runsAfter_eq hi hc hu, runsAfter_eq hi hc hu, hq, hstop]
  have htwo : 2 ≤ (s.peers c).length := by
    have hmem : t ∈ (s.queue .activatable).filter fun p => decide (s.prioOf p = s.prioOf c) := by
      apply List.mem_filter.2
      constructor
      · simp [hq, ht]
      · simpa using hrank
    have hpos := List.length_pos_of_mem hmem
    simp only [Kernel.peers, List.length_cons, List.length_reverse]
    omega
  have hnodup : (s.peers c).Nodup := by
    apply List.nodup_cons.2
    constructor
    · intro hm
      have hm := (List.mem_filter.1 (List.mem_reverse.1 hm)).1
      obtain ⟨x, hx, hn, -⟩ := hi.live_of_mem hm
      rw [hc.heap] at hx
      cases hx
      rw [hc.unlinked hi.toCore (by simp)] at hn
      cases hn
    · exact List.nodup_reverse.2 ((hi.nodup _).filter _)
  rw [hrobin.cyclic, hrobin.cyclic] at hsame
  have hlt := Nat.mod_lt tops.length (show 0 < (s.peers c).length by omega)
  have heq := (List.getElem?_inj hlt hnodup).1 hsame
  have hone := Nat.sub_mod_eq_zero_of_mod_eq heq.symm
  rw [Nat.add_sub_cancel_left, Nat.mod_eq_of_lt (by omega)] at hone
  cases hone

/-- While `chprio` keeps the order of the queue, those of the greatest priority take turns. -/
theorem Reached.roundRobin (h : Reached KeepsOrder s) (hc : Running s c r) (hu : Undisturbed s)
    (hmax : ∀ p ∈ s.queue .activatable, s.prioOf p ≤ s.prioOf c) : RoundRobin s c := by
  obtain ⟨hready, hq, -⟩ := h.ordered
  apply roundRobin_of_pairwise hready.inv hc hu hmax
  have hlive : ∀ p ∈ s.queue .activatable, ∃ x, s.heap p = some x := by
    intro p hp
    obtain ⟨x, hx, -, -⟩ := hready.inv.live_of_mem hp
    exact ⟨x, hx⟩
  refine (hq.served .activatable (by simp)).imp_of_mem fun {p q} hp hqm hserves heq => ?_
  obtain ⟨x, hx⟩ := hlive p hp
  obtain ⟨y, hy⟩ := hlive q hqm
  have hle := hserves.prio_le hy hx
  have hge := hmax q hqm
  rw [prioOf_eq hx] at heq
  rw [prioOf_eq hy] at hge ⊢
  omega

/-- Who runs and who waits, in the computed states. -/
structure LineUp where
  runs : Option Ptr
  record : Option (Bool × ProcessState)
  user : Bool
  activatable : List Ptr
  asleep : List Ptr
  dead : List Ptr
  deriving DecidableEq

/-- What runs, `c` being the process looked at. -/
def Kernel.lineUp (s : Kernel) (c : Ptr) : LineUp :=
  ⟨s.caller, (s.heap c).map fun r => (r.started, r.state), s.startedUserProcess, s.queue .activatable, s.queue .asleep,
    s.queue .dead⟩

theorem lineUp_running (h : s.lineUp c = ⟨some c, some (true, .actif), true, l, [], []⟩) :
    (∃ r, Running s c r) ∧ Undisturbed s ∧ s.queue .activatable = l := by
  simp only [Kernel.lineUp, LineUp.mk.injEq] at h
  obtain ⟨hcaller, hrec, huser, hq, hasleep, hdead⟩ := h
  obtain ⟨r, hr, hstate⟩ := Option.map_eq_some_iff.1 hrec
  obtain ⟨hstarted, hactif⟩ := Prod.mk.inj hstate
  refine ⟨⟨r, hcaller, hr, hstarted, hactif, huser⟩, ⟨fun l p x hl => ?_, hdead⟩, hq⟩
  rw [hasleep] at hl
  exact absurd hl.symm (by simp)

end

/-- The running process and those of its priority take turns, if it has the greatest
priority, exactly when none of them is in front of somebody of a lower priority in the
activatable queue. -/
theorem round_robin_iff {s : Kernel} {c : Ptr} {r : Process} (hi : Inv ∅ s) (hc : Running s c r) (hu : Undisturbed s)
    (hmax : ∀ p ∈ s.queue .activatable, s.prioOf p ≤ s.prioOf c) :
    RoundRobin s c ↔
      (s.queue .activatable).Pairwise fun p q => s.prioOf p = s.prioOf c → s.prioOf q = s.prioOf c := by
  constructor
  · intro hrobin
    by_contra hout
    exact not_roundRobin hi hc hu hmax hout hrobin
  · exact roundRobin_of_pairwise hi hc hu hmax

/-- The shell and a process of its priority, with `idle` waiting. -/
theorem round_robin_iff_two : ∃ s, Reached KeepsOrder s ∧ s.peers 1 = [1, 2] ∧ RoundRobin s 1 := by
  have hrun : (run boot [.timer, startShell 2]).bind (fun s => some (s.lineUp 1, [0, 1, 2].map s.prioOf)) =
      some (⟨some 1, some (true, .actif), true, [0, 2], [], []⟩, [1, 2, 2]) := by decide +kernel
  have hcond : ∀ u, ∀ e ∈ [.timer, startShell 2], KeepsOrder u e := by
    intro u e he
    simp only [List.mem_cons, List.not_mem_nil, or_false] at he
    rcases he with rfl | rfl <;> exact .of_none rfl rfl
  obtain ⟨s, hs, hval⟩ := reached_of_run hcond hrun
  simp only [Option.some.injEq, Prod.mk.injEq, List.map_cons, List.map_nil, List.cons.injEq, and_true] at hval
  obtain ⟨hline, hidle, hshell, hx⟩ := hval
  obtain ⟨⟨r, hr⟩, hu, hq⟩ := lineUp_running hline
  refine ⟨s, hs, by simp [Kernel.peers, hq, hidle, hshell, hx], ?_⟩
  apply (round_robin_iff hs.ordered.1.inv hr hu (by simp [hq, hidle, hshell, hx])).2
  simp [hq, hidle, hshell, hx]

/-- A sleeper that `chprio` gave a lower priority, that the timer woke, and that `chprio` gave
its priority back: it waits at the front of the queue and is never switched to. -/
theorem round_robin_misses : ¬ ∀ s c r, Reached (fun _ _ => True) s → Running s c r → Undisturbed s →
    (∀ p ∈ s.queue .activatable, s.prioOf p ≤ s.prioOf c) → RoundRobin s c := by
  have hrun : (run boot [.timer, startShell 3, .syscall (.waitClock 1), .resume, startShell 3, .syscall (.chprio 3 1),
      .timer, .timer, .syscall (.chprio 3 3)]).bind (fun s => some (s.lineUp 3, [0, 1, 2, 3].map s.prioOf, s.runsAfter 1)) =
      some (⟨some 3, some (true, .actif), true, [2, 0, 1], [], []⟩, [1, 2, 3, 3], some 3) := by decide +kernel
  obtain ⟨s, hs, hval⟩ := reached_of_run (C := fun _ _ => True) (fun _ _ _ => trivial) hrun
  simp only [Option.some.injEq, Prod.mk.injEq, List.map_cons, List.map_nil, List.cons.injEq, and_true] at hval
  obtain ⟨hline, ⟨hidle, hshell, hx, hc⟩, hnext⟩ := hval
  obtain ⟨⟨r, hr⟩, hu, hq⟩ := lineUp_running hline
  intro h
  have hrobin := h s 3 r hs hr hu (by simp [hq, hidle, hshell, hx, hc])
  have hpeers : s.peers 3 = [3, 2] := by simp [Kernel.peers, hq, hidle, hshell, hx, hc]
  -- a call leaves the process running that runs
  have hcyclic := hrobin.cyclic 1
  rw [hnext, hpeers] at hcyclic
  cases hcyclic

end Xinul
