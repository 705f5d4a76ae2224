import Xinul.Proofs.Order
import Xinul.Runs.Base

/-!
# The order of the waiting lists along runs

Every function keeps the lists in the order they are served in but for `chprio`,
which changes a priority in place when the process is blocked on a semaphore, or is
in the activatable queue and still `ASLEEP`.
-/

namespace Xinul

open Prog Machine

/-- `chprio` gives a process blocked on a semaphore, and one still `ASLEEP` in the
activatable queue, the priority it has. -/
structure KeepsOrder (s : Kernel) (e : Event) : Prop where
  kills : KillsAtEnd s e
  semaphore : ∀ p x v, e.reprios s = some (p, v) → s.heap p = some x → x.state = .blockedSemaphore → v = x.prio
  asleep : ∀ p x v, e.reprios s = some (p, v) → s.heap p = some x → x.state = .asleep →
    p ∈ s.queue .activatable → v = x.prio

/-- Neither `kill` nor `chprio`. -/
theorem KeepsOrder.of_none {s : Kernel} {e : Event} (ht : e.target s = none) (hr : e.reprios s = none) :
    KeepsOrder s e := by
  refine ⟨.of_none ht, fun p x v hp => ?_, fun p x v hp => ?_⟩ <;>
  · rw [hr] at hp
    cases hp

section

variable {s t : Kernel} {e : Event}

theorem KeepsOrder.admits (h : KeepsOrder s e) (hi : Inv ∅ s) :
    ({ Kind.any with reorder := False, reorderSem := False } : Kind).Admits False s e where
  reprio p x v hp hx := ⟨.inl trivial,
    fun hst hn => .inr (h.asleep p x v hp hx hst ((hi.mem _ p).2 ⟨x, hx, hn⟩)),
    fun hst => .inr (h.semaphore p x v hp hx hst)⟩
  kills p x _ _ _ hp hx _ _ := ⟨h.kills p x hp hx, .inl trivial, .inl trivial, fun _ _ _ _ _ => .inl trivial,
    fun _ => ⟨[], False.elim, False.elim, False.elim, .inl trivial⟩, trivial⟩

theorem Boot.queueOrder (h : Boot s) : QueueOrder s := by
  obtain ⟨symbols, virt, idle, shell, rfl⟩ := h.eq
  have other : ∀ {hd}, hd ≠ .activatable → (bootState symbols virt idle shell).queue hd = [] := by
    intro hd hne
    simp [bootState, hne]
  have rank0 : (bootState symbols virt idle shell).rank 0 = some (1, 0) := rfl
  have rank1 : (bootState symbols virt idle shell).rank 1 = some (2, 1) := rfl
  have act : (bootState symbols virt idle shell).queue .activatable = [0, 1] := rfl
  constructor
  · intro hd _
    by_cases hact : hd = .activatable
    · subst hact
      rw [act, List.pairwise_pair]
      exact ⟨_, _, rank1, rank0, .inl (by decide)⟩
    · rw [other hact]
      exact .nil
  · intro hd _ p hp a ha
    by_cases hact : hd = .activatable
    · subst hact
      rw [act] at hp
      simp only [List.mem_cons, List.not_mem_nil, or_false] at hp
      rcases hp with rfl | rfl
      · rw [rank0] at ha
        cases ha
        exact Nat.zero_lt_two
      · rw [rank1] at ha
        cases ha
        exact Nat.one_lt_two
    · rw [other hact] at hp
      cases hp

theorem Boot.listOrder (h : Boot s) : ListOrder s := by
  obtain ⟨symbols, virt, idle, shell, rfl⟩ := h.eq
  refine ⟨fun sem st ns ps hst => ?_, fun sem st ns ps hst => ?_⟩ <;> cases hst

theorem Reached.ordered (h : Reached KeepsOrder s) : Ready s ∧ QueueOrder s ∧ ListOrder s := by
  induction h with
  | init hb => exact ⟨hb.ready, hb.queueOrder, hb.listOrder⟩
  | step _ hc hst ih =>
    have ho := hst.outcome ih.1 (hc.admits ih.1.inv) False.elim (G := False) False.elim
    exact ⟨ho.ready ih.1, ho.after.chain.queueOrder id ih.2.1, ho.after.chain.listOrder id ih.2.2⟩

end

/-- In every run in which `chprio` does not change the priority of a process blocked on a
semaphore, or still `ASLEEP` in the activatable queue: the queues ordered by priority
are in the order they are served in, from the end on, and the lists of the semaphores
from the head on, so that what is served has the greatest priority. -/
theorem waiting_lists_ordered {s : Kernel} (hs : Reached KeepsOrder s) :
    (∀ hd, hd ≠ .asleep → (s.queue hd).Pairwise (fun p q => s.Serves q p) ∧
      ∀ p r, (s.queue hd).getLast? = some p → s.heap p = some r →
        ∀ q ∈ s.queue hd, ∀ x, s.heap q = some x → x.prio ≤ r.prio) ∧
    ∀ sem st, s.semaphoreTable sem = some st → ∃ ns ps, Blocked s st ns ps ∧ ps.Pairwise s.Serves ∧
      ∀ p r, ps.head? = some p → s.heap p = some r → ∀ q ∈ ps, ∀ x, s.heap q = some x → x.prio ≤ r.prio := by
  obtain ⟨hready, hq, hl⟩ := hs.ordered
  refine ⟨fun hd hne => ⟨hq.served hd hne, fun p r hlast hp q hqm x hx => ?_⟩, fun sem st hst => ?_⟩
  · obtain ⟨l, heq⟩ := List.getLast?_eq_some_iff.1 hlast
    have hpair := hq.served hd hne
    rw [heq, List.pairwise_append] at hpair
    rw [heq] at hqm
    rcases List.mem_append.1 hqm with hm | hm
    · exact (hpair.2.2 q hm p (by simp)).prio_le hp hx
    · obtain rfl : q = p := by simpa using hm
      rw [hp] at hx
      cases hx
      exact le_rfl
  · obtain ⟨ps, hw⟩ := hready.inv.sems.lists sem st hst
    obtain ⟨ns, hb⟩ := hw.list
    have hpair := hl.served sem st ns ps hst hb
    refine ⟨ns, ps, hb, hpair, fun p r hhead hp q hqm x hx => ?_⟩
    obtain ⟨l, rfl⟩ := List.head?_eq_some_iff.1 hhead
    rcases List.mem_cons.1 hqm with rfl | hm
    · rw [hp] at hx
      cases hx
      exact le_rfl
    · exact ((List.pairwise_cons.1 hpair).1 q hm).prio_le hp hx

/-- Two processes of different priorities wait for a semaphore. -/
theorem waiting_lists_ordered_wait : ∃ s st ns ps, Reached KeepsOrder s ∧ s.semaphoreTable 1 = some st ∧
    st.count = -2 ∧ Blocked s st ns ps ∧ ps.Pairwise s.Serves := by
  have hrun : (run boot [.timer, .syscall (.screate 0 true), startShell 3, .syscall (.wait 1), .resume, startShell 5,
      .syscall (.wait 1)]).bind (fun s => (s.semaphoreTable 1).map (·.count)) = some (-2) := by decide +kernel
  have hcond : ∀ u, ∀ e ∈ [.timer, .syscall (.screate 0 true), startShell 3, .syscall (.wait 1), .resume, startShell 5,
      .syscall (.wait 1)], KeepsOrder u e := by
    intro u e he
    simp only [List.mem_cons, List.not_mem_nil, or_false] at he
    rcases he with rfl | rfl | rfl | rfl | rfl | rfl | rfl <;> exact .of_none rfl rfl
  obtain ⟨s, hs, hval⟩ := reached_of_run hcond hrun
  obtain ⟨st, hst, hcount⟩ := Option.map_eq_some_iff.1 hval
  obtain ⟨ns, ps, hb, hpair, _⟩ := (waiting_lists_ordered hs).2 1 st hst
  exact ⟨s, st, ns, ps, hs, hst, hcount, hb, hpair⟩

/-- Two processes wait for a semaphore, and `chprio` gives the second a greater priority
than the first. -/
theorem waiting_list_out_of_order : ¬ ∀ s, Reached (fun _ _ => True) s → ∀ sem st, s.semaphoreTable sem = some st →
    ∀ ns ps, Blocked s st ns ps → ps.Pairwise s.Serves := by
  have hrun : (run boot [.timer, .syscall (.screate 0 true), startShell 3, .syscall (.wait 1), .resume, startShell 3,
      .syscall (.wait 1), .resume, .syscall (.chprio 4 5)]).bind (fun s => some (s.semaphoreTable 1,
        [s.nextBlock 0, s.nextBlock 1, s.blockedAt 0, s.blockedAt 1, s.nextNode], [s.rank 2, s.rank 3])) =
      some (some ⟨-2, some ⟨some 0, some 1⟩⟩, [some 1, none, some 2, some 3, some 2], [some (3, 4), some (5, 7)]) := by
    decide +kernel
  obtain ⟨s, hs, hval⟩ := reached_of_run (C := fun _ _ => True) (fun _ _ _ => trivial) hrun
  simp only [Option.some.injEq, Prod.mk.injEq, List.cons.injEq, and_true] at hval
  obtain ⟨hst, ⟨hnext0, hnext1, hat0, hat1, hbound⟩, hrank2, hrank3⟩ := hval
  have hb : Blocked s ⟨-2, some ⟨some 0, some 1⟩⟩ [0, 1] [2, 3] :=
    ⟨by simp [Semaphore.head, hnext0, hnext1], rfl, by simp [hat0, hat1], by simp [hbound]⟩
  intro h
  obtain ⟨a, b, ha, hb, hab⟩ := List.pairwise_pair.1 (h s hs 1 _ hst _ _ hb)
  rw [hrank2] at ha
  rw [hrank3] at hb
  cases ha
  cases hb
  simp at hab

end Xinul
