import Xinul.Kernel.Start
import Xinul.Runs.Base
import Xinul.Runs.UserPages

/-!
# The stack of a process

`start_virtual` on the records and the memory: what it does to the records is what
the scheduling model says, and how much stack a new process gets.
-/

namespace Xinul

open Bytes Prog

/-! ## The two parts of the state -/

section parts

variable {α β : Type} {Q : α → System → Prop} {E : SystemFault → Prop} {s : System}

theorem wp_onKernel {m : KernelM α} :
    wp (onKernel m) Q E s ↔ wp m (fun a k => Q a { s with kernel := k }) (fun e => E (.kernel e)) s.kernel := by
  unfold wp onKernel
  cases m s.kernel with
  | ok r => exact Iff.rfl
  | error e => exact Iff.rfl

theorem wp_onMemory {m : MemoryM α} :
    wp (onMemory m) Q E s ↔ wp m (fun a k => Q a { s with memory := k }) (fun e => E (.memory e)) s.memory := by
  unfold wp onMemory
  cases m s.memory with
  | ok r => exact Iff.rfl
  | error e => exact Iff.rfl

/-- What every return satisfies whatever the records become. -/
theorem wp_onKernel_any {m : KernelM α} (h : ∀ a k, Q a { s with kernel := k }) : wp (onKernel m) Q (fun _ => True) s := by
  rw [wp_onKernel]
  exact wp_of_returns fun a k _ => h a k

/-- What `m` does to the records is what `n` does for one of the answers of the memory. -/
def Tracks (m : SystemM α) (n : Bool → KernelM Unit) (s : System) : Prop :=
  wp m (fun _ t => ∃ memoryOk, n memoryOk s.kernel = .ok ((), t.kernel)) (fun _ => True) s

theorem Tracks.onKernel_bind {m : KernelM α} {f : α → SystemM β} {g : Bool → α → KernelM Unit}
    (h : ∀ a k, Tracks (f a) (fun b => g b a) { s with kernel := k }) :
    Tracks (onKernel m >>= f) (fun b => m >>= g b) s := by
  unfold Tracks
  rw [wp_bind, wp_onKernel]
  refine wp_of_returns fun a k hm => wp_mono (h a k) (fun _ t _ ht => ?_) fun _ _ h => h
  obtain ⟨b, hb⟩ := ht
  refine ⟨b, ?_⟩
  simp only [bind, StateT.bind, Except.bind, hm]
  exact hb

theorem Tracks.get_bind {f : System → SystemM α} {g : Bool → Kernel → KernelM Unit}
    (h : Tracks (f s) (fun b => g b s.kernel) s) : Tracks (get >>= f) (fun b => get >>= g b) s := h

theorem Tracks.ite {c : Prop} [Decidable c] {m m' : SystemM α} {n n' : Bool → KernelM Unit} (h : c → Tracks m n s)
    (h' : ¬ c → Tracks m' n' s) :
    Tracks (if c then m else m') (fun b => if c then n b else n' b) s := by
  by_cases hc : c
  · simpa only [if_pos hc] using h hc
  · simpa only [if_neg hc] using h' hc

theorem Tracks.refuses {n : Bool → KernelM Unit} (b : Bool) (h : n b = answer (-1) []) : Tracks refuseStart n s := by
  unfold Tracks refuseStart
  rw [wp_bind, wp_onKernel]
  exact wp_of_returns fun _ k hk => ⟨b, h ▸ hk⟩

theorem Tracks.refuse : Tracks refuseStart (fun _ => answer (-1) []) s := .refuses true rfl

end parts

variable {r : Region} {s t : System} {p : Ptr} {ssize : Nat} {prio : Int} {name : Option (List UInt8)}

/-- Nobody gets more memory than a gigapage. -/
theorem startMemory_gives {app : App r} {size : Nat} {nodes : NodesEnv} {contextOk : Bool} {u u' : MemoryState} {v : Int}
    (h : startMemory p app size nodes contextOk u = .ok (v, u')) (hv : ¬ v < 0) : size ≤ gigapageSize := by
  by_contra hlarge
  have hrefuses : startMemory p app size nodes contextOk u = .ok (-1, u.setProc p .blank) := by
    simp only [startMemory, processMemoryAllocator, if_pos (Nat.lt_of_not_le hlarge)]
    rfl
  rw [hrefuses] at h
  cases h
  exact hv (by decide)

/-- The rest of `start_virtual` when the record is in the table. -/
theorem Tracks.startAllocs {env : StartSystemEnv r} {name : List UInt8} (p : Ptr) :
    Tracks (if ¬ (name.length ≤ maxSizeName ∧ env.nameOk) then refuseStart
        else do
          if (← onMemory (startMemory p env.app (recordSsize ssize) env.nodes env.contextOk)) < 0 then refuseStart
          else
            onKernel (startFinish p prio)
            pure (some p))
      (fun memoryOk => if startAllocs name ssize ⟨env.record, env.nameOk, memoryOk, true, true⟩ then startFinish p prio
        else answer (-1) []) s := by
  by_cases hname : name.length ≤ maxSizeName ∧ env.nameOk = true
  · rw [if_neg (not_not_intro hname)]
    unfold Tracks
    rw [wp_bind, wp_onMemory]
    refine wp_of_returns fun v m hm => ?_
    split
    next => exact Tracks.refuses false (by simp [Xinul.startAllocs])
    next hv =>
      have hsize : (ssize + processSetupSize) % 2 ^ 32 ≤ gigapageSize := by
        simpa [recordSsize, Nat.mod_mod_of_dvd] using startMemory_gives hm hv
      rw [wp_bind, wp_onKernel]
      refine wp_of_returns fun _ k hk => ⟨true, ?_⟩
      have hallocs : Xinul.startAllocs name ssize ⟨env.record, env.nameOk, true, true, true⟩ = true := by
        simp only [Xinul.startAllocs, hname.1, hname.2, hsize, decide_true, Bool.and_self]
      simp only [hallocs, if_true]
      exact hk
  · rw [if_pos hname]
    exact .refuses false (by simp [Xinul.startAllocs])

/-- **The records**: `start_virtual` changes them as in the scheduling model, for one of the
answers of the memory. -/
theorem startVirtualSystem_records {env : StartSystemEnv r} {o : Option Ptr} (h : startVirtualSystem name ssize prio env s = .ok (o, t)) :
    ∃ memoryOk, startVirtual name ssize prio ⟨env.record, env.nameOk, memoryOk, true, true⟩ s.kernel = .ok ((), t.kernel) := by
  have hspec : Tracks (startVirtualSystem name ssize prio env)
      (fun memoryOk => startVirtual name ssize prio ⟨env.record, env.nameOk, memoryOk, true, true⟩) s := by
    unfold startVirtualSystem startVirtual
    cases name with
    | none => exact .refuse
    | some name =>
      refine .get_bind (.ite (fun _ => .refuse) fun _ => ?_)
      refine .onKernel_bind fun _ k₁ => .onKernel_bind fun pid k₂ => ?_
      simp only [← bind_assoc]
      refine .onKernel_bind fun valid k₃ => ?_
      refine .ite (fun _ => .refuse) fun _ => .ite (fun _ => .refuse) fun _ => .ite (fun _ => .refuse) fun _ => ?_
      refine .get_bind ?_
      simp only [List.contains_iff_mem]
      refine .ite (fun _ => .refuse) fun _ => ?_
      cases env.record with
      | none => exact .refuse
      | some garbage =>
        exact .onKernel_bind fun p k₄ => .startAllocs p
  exact wp_ok hspec h

/-- A new process has been given its memory. -/
theorem startVirtualSystem_memory {env : StartSystemEnv r} (h : startVirtualSystem name ssize prio env s = .ok (some p, t)) :
    ∃ v, startMemory p env.app (recordSsize ssize) env.nodes env.contextOk s.memory = .ok (v, t.memory) ∧ ¬ v < 0 := by
  let Given (o : Option Ptr) (t : System) : Prop := o = some p →
    ∃ v, startMemory p env.app (recordSsize ssize) env.nodes env.contextOk s.memory = .ok (v, t.memory) ∧ ¬ v < 0
  have hrefuse : ∀ u, wp refuseStart Given (fun _ => True) u := by
    intro u
    rw [refuseStart, wp_bind]
    exact wp_onKernel_any fun _ _ h => by cases h
  have hspec : wp (startVirtualSystem name ssize prio env) Given (fun _ => True) s := by
    unfold startVirtualSystem
    cases name with
    | none => exact hrefuse s
    | some name =>
      simp only [wp_bind, wp_get]
      split
      next => exact hrefuse s
      rw [wp_bind]
      refine wp_onKernel_any fun _ _ => ?_
      rw [wp_bind]
      refine wp_onKernel_any fun _ _ => ?_
      rw [wp_bind]
      refine wp_onKernel_any fun _ _ => ?_
      split
      next => exact hrefuse _
      split
      next => exact hrefuse _
      split
      next => exact hrefuse _
      rw [wp_bind, wp_get]
      split
      next => exact hrefuse _
      split
      next => exact hrefuse _
      rw [wp_bind]
      refine wp_onKernel_any fun q _ => ?_
      split
      next => exact hrefuse _
      rw [wp_bind, wp_onMemory]
      refine wp_of_returns fun v m hm => ?_
      split
      next => exact hrefuse _
      next hv =>
        rw [wp_bind]
        refine wp_onKernel_any fun _ _ => ?_
        intro hq
        cases hq
        exact ⟨v, hm, hv⟩
  exact wp_ok hspec h rfl

/-- At least `ssize` bytes of stack are mapped below the initial `sp`, above the pages of
the code. -/
def StackMapped {r : Region} (app : App r) (s : MemoryState) (p : Ptr) (ssize : Nat) : Prop :=
  ∃ m, s.procs p = some m ∧ userStart + frameSize * pagesOf app.codeSize + ssize ≤ m.initialSp ∧
    ∀ a, m.initialSp - ssize ≤ a → a < m.initialSp → ∃ f, UserPage s.pool.mem m.pageTableLevel2 a f

variable {R : Ram} {held free free' ts fs : List Nat} {root dir heapTable heap sscratch n : Nat} {u₀ u₁ u₂ : MemoryState}
  {app : App R.toRegion}

/-- The user space of a new process. -/
theorem Started.userSpace (h : Started app p n held free u₀ u₁ u₂ root dir ts heapTable fs heap sscratch free') :
    ∃ m, u₂.procs p = some m ∧ m.stackShift = n ∧ UserSpace u₂.pool.mem m n fs heap := by
  have hproc := congrFun h.procs p
  rw [Function.update_self] at hproc
  refine ⟨_, hproc, Nat.mod_eq_of_lt h.allocated.pages_lt, ?_⟩
  rw [h.mem]
  exact h.allocated.userSpace rfl rfl

/-- A stack of `size` bytes or more is mapped. -/
theorem Started.stackMapped {size : Nat}
    (h : Started app p (pagesOf app.codeSize + pagesOf size) held free u₀ u₁ u₂ root dir ts heapTable fs heap sscratch free') :
    StackMapped app u₂ p ssize ↔ ssize ≤ frameSize * pagesOf size := by
  obtain ⟨m, hm, hshift, hspace⟩ := h.userSpace
  have hsp : m.initialSp = userStart + frameSize * (pagesOf app.codeSize + pagesOf size) := by
    rw [ProcessMemory.initialSp, hshift]
    rfl
  constructor
  · rintro ⟨m', hm', hle, -⟩
    rw [hm] at hm'
    cases hm'
    rw [hsp, Nat.mul_add] at hle
    omega
  · intro hle
    refine ⟨m, hm, ?_, fun a hlo hhi => ?_⟩
    · rw [hsp, Nat.mul_add]
      omega
    · rw [hsp, Nat.mul_add] at hlo hhi
      obtain ⟨f, -, hpage⟩ := hspace.pages a (by omega) (by rw [Nat.mul_add]; omega)
      exact ⟨f, hpage⟩

/-- A successful call got its memory. -/
theorem startMemory_of_ok {size : Nat} {nodes : NodesEnv} {contextOk : Bool} {v : Int} (hinv : PoolInv R.toRegion u₀.pool held free)
    (h : startMemory p app size nodes contextOk u₀ = .ok (v, u₂)) (hv : ¬ v < 0) :
    ∃ u₁ root dir ts heapTable fs heap sscratch free',
      Started app p (pagesOf app.codeSize + pagesOf size) held free u₀ u₁ u₂ root dir ts heapTable fs heap sscratch free' := by
  obtain ⟨rfl, -⟩ | ⟨-, -, hstarted⟩ := wp_ok (wp_startMemory app size nodes contextOk hinv) h
  · exact absurd (by decide) hv
  · exact hstarted

/-- **The size of the stack**: a process that `start_virtual` creates for `ssize` gets a stack
of at least `ssize` bytes, and `ssize` is at most `GIGAPAGE_SIZE`, if and only if the size
with what the kernel needs on it fits into the 32 bits of its record. -/
theorem start_stack_iff (prio : Int) (env : StartSystemEnv R.toRegion) (run : PoolRun R.toRegion held s.memory.pool)
    (h : startVirtualSystem name ssize prio env s = .ok (some p, t)) :
    StackMapped env.app t.memory p ssize ∧ ssize ≤ gigapageSize ↔ ssize + processSetupSize < 2 ^ 32 := by
  obtain ⟨free, hinv⟩ := run.inv
  obtain ⟨v, hstart, hv⟩ := startVirtualSystem_memory h
  obtain ⟨u₁, root, dir, ts, heapTable, fs, heap, sscratch, free', hstarted⟩ := startMemory_of_ok hinv hstart hv
  have hlt := hstarted.allocated.pages_lt
  rw [hstarted.stackMapped]
  unfold recordSsize pagesOf frameSize processSetupSize gigapageSize at *
  omega

/-- Before the idle process is started. -/
def bootSystem (pool : FramePool) : System := ⟨Kernel.empty [idleName] false, bootMemory pool⟩

/-- The idle process as the first one, a program of 5000 bytes. -/
def bootEnv (garbage : Process) : StartSystemEnv smallRam.toRegion :=
  ⟨some garbage, true, smallApp 5000 (by decide), ⟨true, fun _ => true⟩, true⟩

/-- The first process starts when it gets its memory. -/
theorem bootSystem_starts {pool : FramePool} {m : MemoryState} (garbage : Process) (hpos : ssize ≠ 0)
    (hm : startMemory 0 (smallApp 5000 (by decide)) (recordSsize ssize) ⟨true, fun _ => true⟩ true (bootMemory pool) = .ok (0, m)) :
    ∃ t, startVirtualSystem (some idleName) ssize 1 (bootEnv garbage) (bootSystem pool) = .ok (some 0, t) := by
  have hspec : wp (startVirtualSystem (some idleName) ssize 1 (bootEnv garbage)) (fun o _ => o = some 0) (fun _ => False)
      (bootSystem pool) := by
    simp [startVirtualSystem, bootEnv, bootSystem, Kernel.empty, maxNbProcess, maxPrio, minPrio, wp_onKernel, wp_onMemory,
      wp_of_ok hm, hpos, validateActionProcessValid, newRecord, incrementPidAndGetNewPid, startFinish, attachToParent,
      modifyProc, deref, queueAdd, queueWalk, getprio, answer, saveContext, Kernel.mapProc, Kernel.link, Process.prioField,
      maxSizeName, idleName, -bind_pure_comp]
  obtain ⟨o, t, ht, rfl⟩ := wp_returns hspec
  exact ⟨t, ht⟩

/-- With memory enough the first process gets its memory. -/
theorem bootMemory_gives {pool : FramePool} (size : Nat) (hinv : PoolInv smallRam.toRegion pool held free)
    (h : Enough ⟨true, fun _ => true⟩ size (pagesOf 5000 + pagesOf size) free)
    (hframe : tablesOf (pagesOf 5000 + pagesOf size) + (pagesOf 5000 + pagesOf size) + 4 < free.length) :
    ∃ t, startMemory 0 (smallApp 5000 (by decide)) size ⟨true, fun _ => true⟩ true (bootMemory pool) = .ok (0, t) := by
  have hspec := wp_startMemory (p := 0) (s := bootMemory pool) (smallApp 5000 (by decide)) size ⟨true, fun _ => true⟩ true hinv
  obtain ⟨v, t, ht, ⟨-, hnot | hcontext | hshort⟩ | ⟨rfl, -⟩⟩ := wp_returns hspec
  · exact absurd h hnot
  · cases hcontext
  · exact absurd hframe (Nat.not_lt.2 hshort)
  · exact ⟨t, ht⟩

/-- A stack of 4000 bytes. -/
theorem start_stack_idle : ∃ s t p,
    startVirtualSystem (some idleName) 4000 1 (bootEnv blank) s = .ok (some p, t) ∧
      StackMapped (smallApp 5000 (by decide)) t.memory p 4000 := by
  obtain ⟨pool, e, hinv⟩ := initFrames_spec smallRam.toRegion fun _ => 0
  obtain ⟨m, hm⟩ := bootMemory_gives (recordSsize 4000) hinv ⟨by decide, rfl, fun _ _ => rfl, by decide, by decide⟩ (by decide)
  obtain ⟨t, ht⟩ := bootSystem_starts blank (by decide) hm
  exact ⟨_, t, 0, ht, ((start_stack_iff 1 (bootEnv blank) (.init e) ht).2 (by decide)).1⟩

/-- A size of 4G is taken for 2 bytes: there is one page of stack. -/
theorem start_stack_wraps : ∃ s t p,
    startVirtualSystem (some idleName) (2 ^ 32) 1 (bootEnv blank) s = .ok (some p, t) ∧
      ¬ StackMapped (smallApp 5000 (by decide)) t.memory p (2 ^ 32) := by
  obtain ⟨pool, -, hinv⟩ := initFrames_spec smallRam.toRegion fun _ => 0
  obtain ⟨m, hm⟩ := bootMemory_gives (recordSsize (2 ^ 32)) hinv ⟨by decide, rfl, fun _ _ => rfl, by decide, by decide⟩ (by decide)
  obtain ⟨t, ht⟩ := bootSystem_starts blank (by decide) hm
  obtain ⟨v, hstart, hv⟩ := startVirtualSystem_memory ht
  obtain ⟨u, root, dir, ts, heapTable, fs, heap, sscratch, free', hstarted⟩ := startMemory_of_ok hinv hstart hv
  refine ⟨_, t, 0, ht, fun hmapped => ?_⟩
  have hle := hstarted.stackMapped.1 hmapped
  revert hle
  decide

end Xinul
