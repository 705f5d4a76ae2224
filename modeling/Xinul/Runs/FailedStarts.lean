import Xinul.Proofs.FrameSteps
import Xinul.Runs.Frames
import Xinul.Runs.Stacks

/-!
# Starts that fail

`start_virtual` counts the new process before it knows whether it can have it, and gives
nothing back when something is missing.
-/

namespace Xinul

open Prog Machine

/-! ## What a failed start should leave -/

/-- The processes and their children are as they were. -/
structure Kernel.Kept (s t : Kernel) : Prop where
  nbProcRunning : t.nbProcRunning = s.nbProcRunning
  table : t.pidProcessHashTable = s.pidProcessHashTable
  pids : t.processIdList = s.processIdList
  children : ∀ p, (t.heap p).map (fun r => (r.childrenHead, r.childrenTail, r.nextSibling)) =
    (s.heap p).map (fun r => (r.childrenHead, r.childrenTail, r.nextSibling))

/-- And so are the frames that `get_frame` would give. -/
structure System.Kept (s t : System) : Prop where
  kernel : s.kernel.Kept t.kernel
  frames : ∀ f, (∃ n, f ∈ lends n t.memory.pool) ↔ ∃ n, f ∈ lends n s.memory.pool

/-- The record of the running process was freed. -/
def Kernel.CallerFreed (s : Kernel) : Prop := ∃ c, s.caller = some c ∧ s.heap c = none

/-- The caller may start a process, and the arguments and the record are there. -/
structure Startable (s : Kernel) (name : List UInt8) (ssize : Nat) (prio : Int) (record : Option Process) : Prop where
  caller : s.currentRunningProcessPid ≠ -1 → ∃ c x, s.caller = some c ∧ s.heap c = some x ∧ x.state.dead = false
  prio : prio ≤ maxPrio ∧ prio ≥ minPrio
  ssize : ssize ≠ 0
  program : name ∈ s.symbolsTable
  record : record.isSome = true

section

variable {s t : Kernel} {c : Ptr} {x : Process}

theorem Kernel.Kept.refl (s : Kernel) : s.Kept s := ⟨rfl, rfl, rfl, fun _ => rfl⟩

/-- The test of the caller. -/
theorem wp_validateCaller (h : ¬ s.CallerFreed) : wp (validateActionProcessValid s.caller) (fun v t => t = s ∧
    (v < 0 ↔ ¬ ∃ c x, s.caller = some c ∧ s.heap c = some x ∧ x.state.dead = false)) (fun _ => False) s := by
  cases hc : s.caller with
  | none =>
    have hneg : (-1 : Int) < 0 := by decide
    refine ⟨rfl, fun _ => ?_, fun _ => hneg⟩
    rintro ⟨c, x, hcaller, -⟩
    cases hcaller
  | some c =>
    cases hx : s.heap c with
    | none => exact absurd ⟨c, hc, hx⟩ h
    | some x =>
      rw [wp_validate hx]
      refine ⟨rfl, ?_⟩
      cases hd : x.state.dead with
      | false =>
        refine ⟨fun hlt => absurd hlt (by decide), fun hnot => absurd ⟨c, x, rfl, hx, hd⟩ hnot⟩
      | true =>
        refine ⟨fun _ => ?_, fun _ => by decide⟩
        rintro ⟨c', x', hc', hx', hd'⟩
        cases hc'
        obtain rfl : x = x' := Option.some.inj (hx.symm.trans hx')
        rw [hd] at hd'
        cases hd'

end

section

variable {r : Region} {s t : System} {held free : List Nat} {ssize : Nat} {prio : Int} {name : List UInt8}

end

/-! ## The number of processes -/

/-- `nb_proc_running` is the number of processes in the table of the pids. -/
def Kernel.CountsProcesses (s : Kernel) : Prop :=
  ∃ pids : List Int, pids.Nodup ∧ (∀ k, k ∈ pids ↔ (s.pidProcessHashTable k).isSome = true) ∧ (pids.length : Int) = s.nbProcRunning

/-- It is, and every record is in the table under its pid and the pids that can be given again are not. -/
structure Numbered (s : Kernel) : Prop where
  pidOf : ∀ p x, s.heap p = some x → s.pidProcessHashTable x.pid = some p
  bound : ∀ k p, s.pidProcessHashTable k = some p → k ≤ s.pidIterator
  free : ∀ k ∈ s.processIdList, k ≤ s.pidIterator ∧ s.pidProcessHashTable k = none
  nodup : s.processIdList.Nodup
  count : s.CountsProcesses

section

variable {s t : Kernel} {p : Ptr} {x : Process} {name : Option (List UInt8)} {ssize : Nat} {prio : Int} {env : StartEnv}

theorem Numbered.of_heap (h : Numbered s) (base : (t.nbProcRunning, t.pidProcessHashTable, t.processIdList, t.pidIterator) =
      (s.nbProcRunning, s.pidProcessHashTable, s.processIdList, s.pidIterator))
    (heap : ∀ p y, t.heap p = some y → ∃ x, s.heap p = some x ∧ y.pid = x.pid) : Numbered t := by
  simp only [Prod.mk.injEq] at base
  obtain ⟨hcount, htable, hlist, hit⟩ := base
  refine ⟨fun p y hy => ?_, ?_, ?_, ?_, ?_⟩
  · obtain ⟨x, hx, hpid⟩ := heap p y hy
    rw [htable, hpid]
    exact h.pidOf p x hx
  · rw [htable, hit]
    exact h.bound
  · rw [hlist, hit, htable]
    exact h.free
  · rw [hlist]
    exact h.nodup
  · rw [Kernel.CountsProcesses, htable, hcount]
    exact h.count

theorem Numbered.write {f : Process → Process} (h : Numbered s) (hf : ∀ r : Process, (f r).pid = r.pid)
    (heap : t.heap = (s.mapProc p f).heap) (base : (t.nbProcRunning, t.pidProcessHashTable, t.processIdList, t.pidIterator) =
      (s.nbProcRunning, s.pidProcessHashTable, s.processIdList, s.pidIterator)) : Numbered t := by
  refine h.of_heap base fun q y hy => ?_
  rw [heap] at hy
  rcases heap_update_cases hy with ⟨rfl, hv⟩ | ⟨_, hy⟩
  · obtain ⟨x, hx, rfl⟩ := Option.map_eq_some_iff.1 hv
    exact ⟨x, hx, hf x⟩
  · exact ⟨y, hy, rfl⟩

/-- A process less. -/
theorem Numbered.freeRecord (h : Numbered s) (hp : s.heap p = some x) : Numbered (s.freeRecord p x.pid) := by
  have htable := h.pidOf p x hp
  have hgone : ∀ k q, (s.freeRecord p x.pid).pidProcessHashTable k = some q → k ≠ x.pid ∧ s.pidProcessHashTable k = some q := by
    intro k q hk
    by_cases hkx : k = x.pid
    · simp [Kernel.freeRecord, hkx] at hk
    · exact ⟨hkx, by simpa [Kernel.freeRecord, hkx] using hk⟩
  constructor
  · intro q y hy
    rcases heap_update_cases hy with ⟨_, hv⟩ | ⟨hne, hy⟩
    · cases hv
    · have hother : y.pid ≠ x.pid := by
        intro heq
        have hq := h.pidOf q y hy
        rw [heq, htable] at hq
        exact hne (Option.some.inj hq).symm
      simpa [Kernel.freeRecord, hother] using h.pidOf q y hy
  · intro k q hk
    exact h.bound k q (hgone k q hk).2
  · intro k hk
    rcases List.mem_cons.1 hk with rfl | hk
    · exact ⟨h.bound _ p htable, by simp [Kernel.freeRecord]⟩
    · have hfree := h.free k hk
      refine ⟨hfree.1, ?_⟩
      by_cases hkx : k = x.pid
      · simp [Kernel.freeRecord, hkx]
      · simpa [Kernel.freeRecord, hkx] using hfree.2
  · refine List.nodup_cons.2 ⟨fun hk => ?_, h.nodup⟩
    rw [(h.free _ hk).2] at htable
    cases htable
  · obtain ⟨pids, hnodup, hmem, hlen⟩ := h.count
    have hx : x.pid ∈ pids := (hmem _).2 (by rw [htable]; rfl)
    refine ⟨pids.erase x.pid, hnodup.erase _, fun k => ?_, ?_⟩
    · rw [hnodup.mem_erase_iff, hmem]
      by_cases hkx : k = x.pid
      · simp [Kernel.freeRecord, hkx]
      · simp [Kernel.freeRecord, hkx]
    · have hpos := List.length_pos_of_mem hx
      rw [List.length_erase_of_mem hx]
      show ((pids.length - 1 : Nat) : Int) = s.nbProcRunning - 1
      omega

/-- A process more. -/
theorem Numbered.newRecord {garbage : Process} (h : Numbered s) :
    wp (newRecord garbage prio) (fun _ t => Numbered t) (fun _ => True) { s with nbProcRunning := s.nbProcRunning + 1 } := by
  have hnew : ∀ (k : Int) (l : List Int) (n : Int), s.pidProcessHashTable k = none → k ≤ n → s.pidIterator ≤ n → k ∉ l →
      l.Sublist s.processIdList → Numbered { s with
        nbProcRunning := s.nbProcRunning + 1
        processIdList := l
        pidIterator := n
        heap := Function.update s.heap s.nextPtr (some { garbage with
          pid := k, prio := prio.toNat, nextPrev := none, started := false })
        nextPtr := s.nextPtr + 1
        pidProcessHashTable := Function.update s.pidProcessHashTable k (some s.nextPtr) } := by
    intro k l n hnone hle hit hl hsub
    constructor
    · intro q y hy
      rcases heap_update_cases hy with ⟨rfl, hv⟩ | ⟨_, hold⟩
      · cases hv
        simp
      · have hother : y.pid ≠ k := by
          rintro rfl
          rw [h.pidOf q y hold] at hnone
          cases hnone
        simpa [hother] using h.pidOf q y hold
    · intro j q hj
      by_cases hjk : j = k
      · rw [hjk]
        exact hle
      · exact (h.bound j q (by simpa [hjk] using hj)).trans hit
    · intro j hj
      have hfree := h.free j (hsub.subset hj)
      have hjk : j ≠ k := by
        rintro rfl
        exact hl hj
      exact ⟨hfree.1.trans hit, by simpa [hjk] using hfree.2⟩
    · exact h.nodup.sublist hsub
    · obtain ⟨pids, hnodup, hmem, hlen⟩ := h.count
      refine ⟨k :: pids, List.nodup_cons.2 ⟨fun hk => ?_, hnodup⟩, fun j => ?_, ?_⟩
      · rw [hmem, hnone] at hk
        cases hk
      · by_cases hjk : j = k
        · simp [hjk]
        · simp [hjk, hmem]
      · rw [List.length_cons]
        show ((pids.length + 1 : Nat) : Int) = s.nbProcRunning + 1
        omega
  rw [Xinul.newRecord, wp_bind, incrementPidAndGetNewPid, wp_bind, wp_get]
  cases hl : s.processIdList with
  | nil =>
    have hnone : s.pidProcessHashTable (s.pidIterator + 1) = none := by
      cases hk : s.pidProcessHashTable (s.pidIterator + 1) with
      | none => rfl
      | some q =>
        have := h.bound _ q hk
        omega
    exact hnew (s.pidIterator + 1) [] (s.pidIterator + 1) hnone le_rfl (by omega) (by simp) (List.nil_sublist _)
  | cons k rest =>
    have hnodup := h.nodup
    rw [hl, List.nodup_cons] at hnodup
    obtain ⟨hle, hnone⟩ := h.free k (by simp [hl])
    exact hnew k rest s.pidIterator hnone hle le_rfl hnodup.1 (by simp [hl])

instance : HoldsOfWrites fun s t => Numbered s → Numbered t where
  refl _ h := h
  trans _ _ _ h h' h0 := h' (h h0)
  write _ _ _ _ hf heap _ base h := h.write (fun r => (hf r).pid) heap base.pids
  globals _ _ heap _ base h := h.of_heap base.pids fun _ y hy => ⟨y, heap ▸ hy, rfl⟩
  free _ _ _ hp h := h.freeRecord hp

theorem Numbered.indifferent : Indifferent fun s t => Numbered s → Numbered t where
  ignoresAsleep _ _ _ _ hf heap base h := h.write (fun r => (hf r).pid) heap base.pids
  asleep _ _ v h := h.write (f := fun r => { r with wakeTime := v, state := .asleep }) (fun _ => rfl) rfl rfl
  clock _ _ h := h.of_heap rfl fun _ y hy => ⟨y, hy, rfl⟩
  console _ _ h := h.of_heap rfl fun _ y hy => ⟨y, hy, rfl⟩
  reads _ _ n h := h.write (f := fun r => { r with context := .consRead n }) (fun _ => rfl) rfl rfl

/-- The start is refused before the process is counted, or nothing is missing for it. -/
def StartKept (s : Kernel) (name : Option (List UInt8)) (ssize : Nat) (prio : Int) (env : StartEnv) : Prop :=
  name = none ∨ s.nbProcRunning + 1 > maxNbProcess ∨ s.CallerFreed ∨
    ∃ n, name = some n ∧ Startable s n ssize prio env.record ∧ startAllocs n ssize env = true

/-- Part of `start_virtual` that does not count. -/
theorem wp_numbered {m : KernelM Unit} (hm : Guards (Frame False False fun s t => Numbered s → Numbered t) (fun _ _ => True) m)
    (h : Numbered s) : wp m (fun _ t => Numbered t) (fun _ => True) s :=
  wp_mono (hm s) (fun _ _ _ ht => ht.also h) fun _ _ h => h

theorem Numbered.start (h : Numbered s) (hk : StartKept s name ssize prio env) :
    wp (startVirtual name ssize prio env) (fun _ t => Numbered t) (fun _ => True) s := by
  cases name with
  | none => exact wp_numbered (apart_answer _ _) h
  | some n =>
    simp only [startVirtual, wp_bind, wp_get]
    split
    next => exact wp_numbered (apart_answer _ _) h
    next hmax =>
    rw [wp_bind, wp_modify, wp_bind, getpid, wp_bind, wp_get, wp_pure, wp_bind, wp_getCurrentProcess, wp_bind]
    by_cases hfreed : s.CallerFreed
    · obtain ⟨c, hc, hx⟩ := hfreed
      rw [Kernel.caller] at hc
      dsimp only
      rw [hc, validateActionProcessValid, wp_bind]
      exact wp_deref_any trivial fun x hx' => by
        rw [show s.heap c = some x from hx'] at hx
        cases hx
    obtain hname | hmax' | hfreed' | ⟨n', hname, hstart, hallocs⟩ := hk
    · cases hname
    · exact absurd hmax' hmax
    · exact absurd hfreed' hfreed
    cases hname
    have hlive : ¬ Kernel.CallerFreed { s with nbProcRunning := s.nbProcRunning + 1 } := hfreed
    refine wp_mono (wp_validateCaller hlive) (fun v t _ hv => ?_) fun _ _ h => h.elim
    obtain ⟨rfl, hv⟩ := hv
    rw [if_neg fun hdead => hv.1 hdead.2 (hstart.caller hdead.1), if_neg (not_not_intro hstart.prio), if_neg hstart.ssize, wp_bind,
      wp_get, if_neg (not_not_intro hstart.program)]
    cases hrecord : env.record with
    | none =>
      have hsome := hstart.record
      rw [hrecord] at hsome
      cases hsome
    | some garbage =>
      rw [wp_bind]
      refine wp_mono h.newRecord (fun p t _ ht => ?_) fun _ _ h => h
      rw [if_pos hallocs]
      exact wp_numbered (apart_startFinish _) ht

end

end Xinul
