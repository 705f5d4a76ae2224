import Xinul.Proofs.Starting
import Xinul.Proofs.Interrupts

/-!
# The state the kernel starts in

`initialize_process_workflow` never fails and leaves two activatable processes
without a parent: the idle process and the shell.
-/

namespace Xinul

open Prog

/-- The record of a process started before the first interrupt. -/
def bootRecord (garbage : Process) (pid : Int) (prio stamp : Nat) : Process :=
  { garbage with
    pid := pid
    prio := prio
    nextPrev := some .activatable
    stamp := stamp
    parent := none
    context := .user none
    childrenHead := none
    childrenTail := none
    nextSibling := none
    returnValue := 0
    semSignal := 0
    state := .activatable
    started := true }

/-- The globals after `initialize_process_workflow`. -/
def bootState (symbols : List (List UInt8)) (virt : Bool) (idle shell : Process) : Kernel :=
  { Kernel.empty symbols virt with
    heap := Function.update (Function.update (fun _ => none) 0 (some (bootRecord idle 1 1 0))) 1
      (some (bootRecord shell 2 2 1))
    nextPtr := 2
    pidProcessHashTable := Function.update (Function.update (fun _ => none) 1 (some 0)) 2 (some 1)
    pidIterator := 2
    nbProcRunning := 2
    queue := Function.update (fun _ => []) .activatable [0, 1]
    insertions := 2 }

section boot

variable {symbols : List (List UInt8)} {virt : Bool} {idle shell r : Process} {p : Ptr} {s : Kernel}

theorem wp_initializeProcessWorkflow (hi : idleName ∈ symbols) (hs : shellName ∈ symbols) :
    wp (initializeProcessWorkflow idle shell) (fun _ t => t = bootState symbols virt idle shell) (fun _ => False)
      (Kernel.empty symbols virt) := by
  have allocs : ∀ g : Process, startAllocs idleName 4000 ⟨some g, true, true, true, true⟩ = true ∧
      startAllocs shellName 4000 ⟨some g, true, true, true, true⟩ = true := fun _ => ⟨rfl, rfl⟩
  simp [initializeProcessWorkflow, startVirtual, Kernel.empty, maxNbProcess, maxPrio, minPrio, hi, hs,
    validateActionProcessValid, newRecord, incrementPidAndGetNewPid, allocs, startFinish, attachToParent,
    modifyProc, deref, queueAdd, queueWalk, getprio, answer, saveContext, Kernel.mapProc, Kernel.link,
    Process.prioField, bootState, bootRecord, -bind_pure_comp]

theorem Boot.eq (h : Boot s) : ∃ symbols virt idle shell, s = bootState symbols virt idle shell := by
  obtain ⟨symbols, virt, idle, shell, hi, hs, heq⟩ := h
  exact ⟨symbols, virt, idle, shell, wp_ok (wp_initializeProcessWorkflow hi hs) heq⟩

theorem bootState_heap (h : (bootState symbols virt idle shell).heap p = some r) :
    p = 0 ∧ r = bootRecord idle 1 1 0 ∨ p = 1 ∧ r = bootRecord shell 2 2 1 := by
  simp only [bootState, Function.update_apply] at h
  split at h
  · cases h
    exact .inr ⟨‹_›, rfl⟩
  · split at h
    · cases h
      exact .inl ⟨‹_›, rfl⟩
    · cases h

theorem bootState_inv : Inv ∅ (bootState symbols virt idle shell) := by
  have heap0 : (bootState symbols virt idle shell).heap 0 = some (bootRecord idle 1 1 0) := by simp [bootState]
  have heap1 : (bootState symbols virt idle shell).heap 1 = some (bootRecord shell 2 2 1) := by simp [bootState]
  refine ⟨⟨?_, ?_, ?_, ⟨?_, ?_, ?_, ?_⟩, ?_, ?_, ?_, ?_, ?_, ?_, ?_, ?_⟩, ?_, ?_, ?_⟩
  · intro p r h
    rcases bootState_heap h with ⟨rfl, _⟩ | ⟨rfl, _⟩ <;> simp [bootState]
  · intro k p h
    simp only [bootState, Function.update_apply] at h
    split at h
    · cases h
      exact ⟨_, heap1, by simp [bootRecord, *]⟩
    · split at h
      · cases h
        exact ⟨_, heap0, by simp [bootRecord, *]⟩
      · cases h
  · intro p r h
    rcases bootState_heap h with ⟨rfl, rfl⟩ | ⟨rfl, rfl⟩ <;> simp [bootState, bootRecord]
  · intro p r h
    rcases bootState_heap h with ⟨rfl, rfl⟩ | ⟨rfl, rfl⟩ <;> simp [bootState, bootRecord]
  · simp [bootState, Kernel.empty]
  · simp [bootState, Kernel.empty]
  · simp [bootState]
  · intro d
    by_cases hd : d = .activatable
    · subst hd
      simp [bootState]
    · simp [bootState, hd]
  · intro d p
    by_cases hd : d = .activatable
    · subst hd
      have hq : (bootState symbols virt idle shell).queue .activatable = [0, 1] := by simp [bootState]
      rw [hq]
      simp only [List.mem_cons, List.not_mem_nil, or_false]
      constructor
      · rintro (rfl | rfl)
        · exact ⟨_, heap0, rfl⟩
        · exact ⟨_, heap1, rfl⟩
      · rintro ⟨r, hr, _⟩
        exact (bootState_heap hr).imp And.left And.left
    · have hq : (bootState symbols virt idle shell).queue d = [] := by simp [bootState, hd]
      rw [hq]
      simp only [List.not_mem_nil, false_iff]
      rintro ⟨r, hr, hn⟩
      rcases bootState_heap hr with ⟨_, rfl⟩ | ⟨_, rfl⟩ <;> exact hd (Option.some.inj hn).symm
  · simp
  · intro p r h _
    rcases bootState_heap h with ⟨rfl, rfl⟩ | ⟨rfl, rfl⟩ <;> simp [Process.Fits, bootRecord]
  · intro p r h _ hf
    rcases bootState_heap h with ⟨rfl, rfl⟩ | ⟨rfl, rfl⟩ <;> cases hf
  · intro p r d q h hl hq
    rcases bootState_heap h with ⟨rfl, rfl⟩ | ⟨rfl, rfl⟩ <;> cases hl <;> cases hq
  · simp [bootState, Kernel.empty]
  · exact ⟨0, _, by simp [bootState, idleId], heap0, rfl, .inr rfl, trivial⟩
  · simp [bootState, Kernel.empty]
  · rintro p sem ⟨_, r, hr, _, hs, _⟩
    rcases bootState_heap hr with ⟨rfl, rfl⟩ | ⟨rfl, rfl⟩ <;> cases hs
  · simp [bootState, Kernel.empty]

theorem Boot.booting (h : Boot s) : Booting s := by
  obtain ⟨symbols, virt, idle, shell, rfl⟩ := h.eq
  refine ⟨bootState_inv, rfl, rfl, fun p r h => ?_⟩
  rcases bootState_heap h with ⟨_, rfl⟩ | ⟨_, rfl⟩ <;> exact ⟨rfl, rfl⟩

theorem Boot.record (h : Boot s) (hp : s.heap p = some r) :
    r.parent = none ∧ r.childrenHead = none ∧ r.childrenTail = none ∧ r.context = .user none := by
  obtain ⟨symbols, virt, idle, shell, rfl⟩ := h.eq
  rcases bootState_heap hp with ⟨_, rfl⟩ | ⟨_, rfl⟩ <;> exact ⟨rfl, rfl, rfl, rfl⟩

theorem Boot.lineage (h : Boot s) : Lineage s := by
  intro p r hp _ q hq
  rw [(h.record hp).1] at hq
  cases hq

theorem Boot.family (h : Boot s) : Family s := by
  have noChild : ∀ c p, ¬ s.ChildOf c p := by
    rintro c p ⟨x, hx, _, hpar⟩
    rw [(h.record hx).1] at hpar
    cases hpar
  have alive : ∀ p r, s.heap p = some r → r.state.dead = false := by
    intro p r hp
    rw [(h.booting.processes p r hp).2]
    rfl
  refine ⟨?_, ?_, ?_, ?_, ?_, ?_, ?_⟩
  · intro p r hp _ _
    obtain ⟨_, hhead, htail, _⟩ := h.record hp
    exact ⟨[], by rw [hhead]; rfl, htail, fun c => by simp [noChild]⟩
  · exact fun c p hc => absurd hc (noChild c p)
  · exact fun c p hc => absurd hc (noChild c p)
  · exact fun p r hp _ _ => (h.record hp).1
  · intro p r q hp _ hd
    rw [alive p r hp] at hd
    cases hd
  · intro p r q hp _ _ hctx
    rw [(h.record hp).2.2.2] at hctx
    cases hctx
  · intro p r q b v hp _ _ hctx
    rw [(h.record hp).2.2.2] at hctx
    cases hctx

end boot

end Xinul
