import Xinul.Proofs.BlockedLists
import Xinul.Runs.Base

/-!
# The count of a semaphore and its blocked list

Every action but a flush keeps the number of blocked processes at what the count
tells; `sdelete` and `sreset`, which flush the list, leave no semaphore or an empty
list.
-/

namespace Xinul

open Prog Machine

/-- The blocked list of the semaphore is as long as its count tells. -/
def Exact (s : Kernel) (sem : Int) : Prop :=
  ∀ st ns ps, s.semaphoreTable sem = some st → Blocked s st ns ps → ps.length = (-st.count).toNat

/-- `sreset` is called with a count its user prototype allows, and a process
blocked on a semaphore is killed only at an end of its list. -/
structure SemRun (s : Kernel) (e : Event) : Prop where
  kills : KillsAtEnd s e
  resets : ∀ sem count, e = .syscall (.sreset sem count) → 0 ≤ toInt32 count ∧ toInt32 count ≤ 32767

theorem SemRun.of_none {s : Kernel} {e : Event} (ht : e.target s = none) (hf : e.flushes = none) : SemRun s e := by
  refine ⟨.of_none ht, ?_⟩
  rintro sem count rfl
  cases hf

section

variable {K : Kind} {H H' : Set Ptr} {s s₀ t : Kernel} {e : Event} {sem : Int}

theorem Act.exact (a : Act K H s H' t) (hi : Inv H s) (hK : ¬ K.flush sem) (h : Exact s sem) : Exact t sem := by
  intro st ns ps hst hb
  cases a.listStep hi hst hb with
  | kept hold hbl hc => exact hc.resolve_left hK (h _ _ _ hold hbl)
  | blocked hold hbl _ _ _ _ _ hc => exact hc.resolve_left hK (h _ _ _ hold hbl)
  | unblocked hold hbl _ _ hc => exact hc.resolve_left hK (h _ _ _ hold hbl)
  | fresh hnil hc =>
    rw [hnil, List.length_nil]
    omega

theorem Chain.exact (ch : Chain K s₀ H s) (hK : ¬ K.flush sem) (h : Exact s₀ sem) : Exact s sem :=
  ch.induct (P := fun _ s => Exact s sem) h fun _ _ _ _ hi h a => a.exact hi hK h

/-- A semaphore nobody waits for is exact as long as its count is not negative. -/
theorem Exact.of_empty (h : ∀ st, s.semaphoreTable sem = some st → 0 ≤ st.count ∧ st.head = none) :
    Exact s sem := by
  intro st ns ps hst hb
  obtain ⟨hc, hhead⟩ := h st hst
  obtain rfl : ns = [] := List.head?_eq_none_iff.1 (hb.chain.head ▸ hhead)
  obtain rfl : ps = [] := by simpa using hb.procs.symm
  rw [List.length_nil]
  omega

theorem toInt16_of_short {c : Int} (h0 : 0 ≤ c) (h1 : c ≤ 32767) : toInt16 c = c := by
  unfold toInt16
  rw [Int.bmod_eq_of_le] <;> omega

/-- The semaphore the event flushes is exact afterwards. -/
theorem Step.flushed (h : Step s e t) (hs : Ready s) (hrun : SemRun s e) (hf : e.flushes = some sem) :
    Exact t sem := by
  have any : ∀ {c r}, Running s c r → Mid Kind.any.quiet s ∅ s c r :=
    fun hr => hr.mid hs.inv (fun _ _ _ _ _ => trivial) trivial
  refine .of_empty fun st hst => ?_
  cases e with
  | syscall sc =>
    rcases hs.stage with hb | ⟨c, r, hr⟩
    · have he := h.1
      simp [Event.enabled, hb.running] at he
    · cases sc with
      | sdelete i =>
        cases hf
        have hd := wp_ok (sdelete_done (any hr) trivial trivial) h.2
        rw [hd.2] at hst
        cases hst
      | sreset i count =>
        cases hf
        obtain ⟨h0, h1⟩ := hrun.resets i count rfl
        have hd := wp_ok (sreset_done (any hr) trivial trivial _) h.2
        obtain ⟨hc, hhead⟩ := hd.2 h0 st hst
        rw [hc, toInt16_of_short h0 h1]
        exact ⟨h0, hhead⟩
      | _ => cases hf
  | _ => cases hf

theorem KillsAtEnd.admits (h : KillsAtEnd s e) :
    ({ Kind.any with flush := fun i => e.flushes = some i } : Kind).Admits False s e where
  flushes _ hf := hf
  kills p x _ _ _ hp hx _ _ := ⟨h p x hp hx, .inl trivial, .inl trivial, fun _ _ _ _ _ => .inl trivial,
    fun _ => ⟨[], False.elim, False.elim, False.elim, .inl trivial⟩, trivial⟩

/-- A semaphore that is not flushed stays exact. -/
theorem Step.exact_kept (h : Step s e t) (hs : Ready s) (hk : KillsAtEnd s e) (hf : e.flushes ≠ some sem)
    (hex : Exact s sem) : Exact t sem := by
  have ho := h.outcome hs hk.admits False.elim (G := False) False.elim
  exact ho.after.chain.exact hf hex

theorem Step.exact (h : Step s e t) (hs : Ready s) (hrun : SemRun s e) (hex : Exact s sem) : Exact t sem := by
  by_cases hf : e.flushes = some sem
  · exact h.flushed hs hrun hf
  · exact h.exact_kept hs hrun.kills hf hex

theorem Reached.exact (h : Reached SemRun s) : Ready s ∧ ∀ sem, Exact s sem := by
  induction h with
  | init hb =>
    refine ⟨hb.ready, fun sem => .of_empty fun st hst => ?_⟩
    obtain ⟨symbols, virt, idle, shell, rfl⟩ := hb.eq
    cases hst
  | step _ hc hst ih => exact ⟨ih.1.step hc.kills hst, fun sem => hst.exact ih.1 hc (ih.2 sem)⟩

end

/-- In every run in which `sreset` is given a count that is a `short` and a process
blocked on a semaphore is killed at most at an end of its list: the blocked list of
a semaphore is as long as its count tells, its members are blocked on it and are in
it once, and the tail is its last node. -/
theorem semaphore_lists_exact {s : Kernel} {sem : Int} {st : Semaphore} (hs : Reached SemRun s)
    (hst : s.semaphoreTable sem = some st) : ∃ ns ps, Blocked s st ns ps ∧ (ps.length : Int) = max 0 (-st.count) ∧
      (∀ p ∈ ps, ∃ r, s.heap p = some r ∧ r.state = .blockedSemaphore ∧ r.semaphoreId = sem) ∧ ps.Nodup ∧
      st.tail = ns.getLast? ∧ (st.head = none ↔ st.tail = none) := by
  obtain ⟨hready, hex⟩ := hs.exact
  obtain ⟨ps, hw⟩ := hready.inv.sems.lists sem st hst
  obtain ⟨ns, hb⟩ := hw.list
  refine ⟨ns, ps, hb, ?_, fun p hp => ?_, hw.nodup, hb.tail, ?_⟩
  · rw [hex sem st ns ps hst hb]
    omega
  · obtain ⟨_, r, hr, _, hstate, hsem⟩ := (hw.mem p).1 hp
    exact ⟨r, hr, hstate, hsem⟩
  · rw [hb.tail, hb.chain.head, List.getLast?_eq_none_iff, List.head?_eq_none_iff]

/-- A child waits for a semaphore whose count was zero. -/
theorem semaphore_lists_exact_wait : ∃ s st ns ps, Reached SemRun s ∧ s.semaphoreTable 1 = some st ∧
    st.count = -1 ∧ Blocked s st ns ps ∧ (ps.length : Int) = max 0 (-st.count) ∧
      (∀ p ∈ ps, ∃ r, s.heap p = some r ∧ r.state = .blockedSemaphore ∧ r.semaphoreId = 1) ∧ ps.Nodup ∧
      st.tail = ns.getLast? ∧ (st.head = none ↔ st.tail = none) := by
  have hrun : (run boot [.timer, .syscall (.screate 0 true), startShell 3, .syscall (.wait 1)]).bind
      (fun s => (s.semaphoreTable 1).map (·.count)) = some (-1) := by decide +kernel
  have hcond : ∀ u, ∀ e ∈ [.timer, .syscall (.screate 0 true), startShell 3, .syscall (.wait 1)], SemRun u e := by
    intro u e he
    simp only [List.mem_cons, List.not_mem_nil, or_false] at he
    rcases he with rfl | rfl | rfl | rfl <;> exact .of_none rfl (by decide)
  obtain ⟨s, hs, hval⟩ := reached_of_run hcond hrun
  obtain ⟨st, hst, hcount⟩ := Option.map_eq_some_iff.1 hval
  obtain ⟨ns, ps, h⟩ := semaphore_lists_exact hs hst
  exact ⟨s, st, ns, ps, hs, hst, hcount, h⟩

end Xinul
