import Xinul.Runs.Base

/-!
# The table of message queues

`pcreate` occupies a slot of `all_queues` before it has the memory for the messages, and
`secmalloc` leaves the function when that memory cannot be had: the slot stays occupied by a
queue that was never filled in.
-/

namespace Xinul

open Prog

/-- The call of `pcreate` by the process at `c` left the table as it was, or filled a free
slot with a queue that is empty and has nobody blocked on it. -/
structure CreatesCleanly (s t : Kernel) (c : Ptr) : Prop where
  answered : ∃ v, Answers t c v [] ∧ (v = -1 ∨ 0 ≤ v ∧ v < nbQueues)
  failed : Answers t c (-1) [] → t.allQueues = s.allQueues
  created : ∀ v, 0 ≤ v → Answers t c v [] → s.allQueues v.toNat = none ∧
    (∀ i, i ≠ v.toNat → t.allQueues i = s.allQueues i) ∧
    ∃ q m, t.allQueues v.toNat = some q ∧ t.msgQueue q = some m ∧ m.numberOfMsgs = 0 ∧
      t.queue (.blockedCons q) = [] ∧ t.queue (.blockedProd q) = []

/-- A call of `pcreate` gets as far as the message array, which cannot be had. -/
def Kernel.LacksArray (s : Kernel) (count : Int) (queueOk arrOk : Bool) : Prop :=
  0 ≤ count ∧ (getFirstFreeIndex s).isSome ∧ queueOk = true ∧
    (4 * count.toNat ≥ secmallocLimit ∨ arrOk = false)

section

variable {s t : Kernel} {c : Ptr} {r : Process} {count v : Int} {queueOk arrOk : Bool} {w : List Int} {i : Nat}

/-- The slot `get_first_free_index` returns is free. -/
theorem getFirstFreeIndex_free (h : getFirstFreeIndex s = some i) : s.allQueues i = none ∧ i < nbQueues := by
  have hfree := List.find?_some h
  have hmem := List.mem_of_find?_eq_some h
  exact ⟨by simpa using hfree, List.mem_range.1 hmem⟩

/-- A failure that touched nothing is clean. -/
theorem CreatesCleanly.of_refused (h : Answers t c (-1) []) (htable : t.allQueues = s.allQueues) : CreatesCleanly s t c where
  answered := ⟨-1, h, .inl rfl⟩
  failed _ := htable
  created v hv hans := by
    obtain ⟨rfl, -⟩ := answers_inj hans h
    cases hv

/-- `pcreate`, as far as the table goes. -/
theorem wp_pcreate (hr : Running s c r) (count : Int) (queueOk arrOk : Bool) :
    wp (pcreate count queueOk arrOk)
      (fun _ t => CreatesCleanly s t c ↔ ¬ s.LacksArray count queueOk arrOk) (fun _ => False) s := by
  unfold pcreate
  by_cases hneg : count < 0
  · rw [if_pos hneg, wp_answer hr.table hr.heap]
    refine iff_of_true (.of_refused (answers_mapProc hr.heap) rfl) ?_
    rintro ⟨hpos, -⟩
    omega
  rw [if_neg hneg, wp_bind, wp_get]
  cases hfree : getFirstFreeIndex s with
  | none =>
    simp only [wp_answer hr.table hr.heap]
    refine iff_of_true (.of_refused (answers_mapProc hr.heap) rfl) ?_
    rintro ⟨-, hsome, -⟩
    rw [hfree] at hsome
    cases hsome
  | some index =>
    obtain ⟨hslot, hlt⟩ := getFirstFreeIndex_free hfree
    by_cases hqueue : queueOk = false
    · simp only [if_pos hqueue, wp_answer hr.table hr.heap]
      refine iff_of_true (.of_refused (answers_mapProc hr.heap) rfl) ?_
      rintro ⟨-, -, hok, -⟩
      rw [hqueue] at hok
      cases hok
    simp only [if_neg hqueue, wp_bind, wp_get, wp_modify]
    by_cases harr : 4 * count.toNat ≥ secmallocLimit ∨ arrOk = false
    · -- the slot was taken before the second allocation failed
      rw [if_pos harr]
      rw [wp_answer (c := c) (r := r) (by exact hr.table) (by exact hr.heap)]
      refine iff_of_false (fun hclean => ?_) (not_not.2 ⟨by omega, by rw [hfree]; rfl, by simpa using hqueue, harr⟩)
      have hsame := hclean.failed (answers_mapProc (s := { s with
        allQueues := Function.update s.allQueues index (some s.nextQueue), nextQueue := s.nextQueue + 1 }) hr.heap)
      have hindex : Function.update s.allQueues index (some s.nextQueue) index = s.allQueues index := congrFun hsame index
      rw [Function.update_self, hslot] at hindex
      cases hindex
    · rw [if_neg harr, wp_bind, wp_modify]
      rw [wp_answer (c := c) (r := r) (by exact hr.table) (by exact hr.heap)]
      refine iff_of_true ?_ fun hlacks => harr hlacks.2.2.2
      generalize hu : ({ ({ s with
        allQueues := Function.update s.allQueues index (some s.nextQueue)
        nextQueue := s.nextQueue + 1 } : Kernel).setQueue s.nextQueue (some ⟨fun _ => 0, count.toNat, 0, 0, [], []⟩) with
        queue := Function.update (Function.update s.queue (.blockedCons s.nextQueue) []) (.blockedProd s.nextQueue) [] } :
        Kernel) = u
      have hheap : u.heap c = some r := by
        subst hu
        exact hr.heap
      have hans : Answers (u.mapProc c fun r => { r with context := .user (some ⟨index, []⟩) }) c index [] :=
        answers_mapProc hheap
      refine ⟨⟨index, hans, .inr ⟨by omega, by exact_mod_cast hlt⟩⟩, fun hminus => ?_, fun v _ hv => ?_⟩
      · obtain ⟨hbad, -⟩ := answers_inj hminus hans
        omega
      · obtain ⟨rfl, -⟩ := answers_inj hv hans
        subst hu
        refine ⟨hslot, fun i hi => Function.update_of_ne hi .., s.nextQueue, ⟨fun _ => 0, count.toNat, 0, 0, [], []⟩, ?_, ?_, rfl, ?_, ?_⟩
        · exact Function.update_self ..
        · exact Function.update_self ..
        · simp
        · exact Function.update_self ..

/-- `pcreate` leaves the table clean exactly if it does not run out of memory between the
queue and its array. -/
theorem pcreate_clean_iff (hr : Running s c r) (count : Int) (queueOk arrOk : Bool) :
    (∃ t, step (.syscall (.pcreate count queueOk arrOk)) s = .ok ((), t) ∧ CreatesCleanly s t c) ↔
      ¬ s.LacksArray (toInt32 count) queueOk arrOk := by
  obtain ⟨_, t, hrun, hiff⟩ := wp_returns (wp_pcreate hr (toInt32 count) queueOk arrOk)
  constructor
  · rintro ⟨u, hu, hclean⟩
    have hut : u = t := congrArg Prod.snd (Except.ok.inj (hu.symm.trans hrun))
    subst hut
    exact hiff.1 hclean
  · exact fun h => ⟨t, hrun, hiff.2 h⟩

end

theorem pcreate_clean_iff_shell : ∃ s c r, Running s c r ∧
    ∃ t, step (.syscall (.pcreate 5 true true)) s = .ok ((), t) ∧ CreatesCleanly s t c := by
  obtain ⟨s, r, -, -, hr⟩ := shell_runs
  refine ⟨s, 1, r, hr, (pcreate_clean_iff hr 5 true true).2 ?_⟩
  rintro ⟨-, -, -, hbig | harr⟩
  · exact absurd hbig (by decide)
  · cases harr

/-- The shell asks for a queue of 2^29 messages: the call fails and a slot is gone. -/
theorem pcreate_leaks_slot : ∃ s t, Reached (fun _ _ => True) s ∧
    Step s (.syscall (.pcreate 536870912 true true)) t ∧ Answers t 1 (-1) [] ∧ t.allQueues ≠ s.allQueues := by
  have hval : (run boot [.timer]).bind (fun s => (run s [.syscall (.pcreate 536870912 true true)]).bind fun t =>
      if (t.heap 1).map (·.context) = some (.user (some ⟨-1, []⟩)) ∧ s.allQueues 0 = none ∧ t.allQueues 0 = some 0
      then some () else none) = some () := by decide +kernel
  obtain ⟨s, hs, hf⟩ := Option.bind_eq_some_iff.1 hval
  obtain ⟨t, ht, hf⟩ := Option.bind_eq_some_iff.1 hf
  split at hf
  · next h =>
    refine ⟨s, t, run_reach (.init boot_boot) (fun _ _ _ => trivial) hs, run_step ht, h.1, fun hsame => ?_⟩
    have := congrFun hsame 0
    rw [h.2.1, h.2.2] at this
    cases this
  · cases hf

end Xinul
