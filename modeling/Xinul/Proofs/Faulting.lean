import Xinul.Proofs.Frame
import Xinul.Proofs.FrameSteps

/-!
# A page fault of the running process

`kill(getpid())` ends the running process if the table knows it by its own pid. A page
fault is then its end, wherever it happens: also in the middle of `preceive`, where the
table and the pids are still those it was called with.
-/

namespace Xinul

open Prog

/-- The table knows every process by its own pid. -/
def Kernel.Named (s : Kernel) : Prop :=
  ∀ pid p, s.pidProcessHashTable pid = some p → p < s.nextPtr ∧ ∀ r, s.heap p = some r → r.pid = pid

/-- Who is known by which pid. -/
def Kernel.names (s : Kernel) : (Int → Option Ptr) × Ptr × (Ptr → Option Int) :=
  (s.pidProcessHashTable, s.nextPtr, fun p => (s.heap p).map (·.pid))

/-- A page fault of a process that is known by its own pid. -/
def endRunning : KernelM Unit := do
  let pid ← getpid
  if pid = idleId ∨ pid = kernelId then schedule (.user none)
  else match ← getProcessStructOfPid pid with
    | none => schedule (.user none)
    | some p =>
      if (← validateActionProcessValid (some p)) < 0 then schedule (.user none)
      else exitProcess 0 (.pageFault p pid)

/-- Where every process is known by its own pid, `m` does what `n` does. -/
def ActsAs {α : Type} (m n : KernelM α) : Prop := ∀ s Q E, s.Named → wp n Q E s → wp m Q E s

section

variable {α β : Type} {s t : Kernel} {p : Ptr} {fid : Int} {message : UserPtr} {m n : KernelM α}

theorem Kernel.Named.of_heap (h : s.Named) (table : t.pidProcessHashTable = s.pidProcessHashTable) (next : t.nextPtr = s.nextPtr)
    (heap : ∀ p y, t.heap p = some y → ∃ x, s.heap p = some x ∧ y.pid = x.pid) : t.Named := by
  intro pid p hp
  rw [table] at hp
  obtain ⟨hlt, hpid⟩ := h pid p hp
  refine ⟨next ▸ hlt, fun y hy => ?_⟩
  obtain ⟨x, hx, hxy⟩ := heap p y hy
  exact hxy.trans (hpid x hx)

theorem Kernel.Named.congr (h : s.Named) (ht : t.names = s.names) : t.Named := by
  simp only [Kernel.names, Prod.mk.injEq] at ht
  refine h.of_heap ht.1 ht.2.1 fun p y hy => ?_
  have hsame := congrFun ht.2.2 p
  simp only [hy, Option.map_some] at hsame
  obtain ⟨x, hx, hpid⟩ := Option.map_eq_some_iff.1 hsame.symm
  exact ⟨x, hx, hpid.symm⟩

theorem Kernel.Named.write {f : Process → Process} (h : s.Named) (hf : ∀ r : Process, (f r).pid = r.pid)
    (heap : t.heap = (s.mapProc p f).heap) (table : t.pidProcessHashTable = s.pidProcessHashTable)
    (next : t.nextPtr = s.nextPtr) : t.Named := by
  refine h.of_heap table next fun q y hy => ?_
  rw [heap] at hy
  rcases heap_update_cases hy with ⟨rfl, hv⟩ | ⟨_, hy⟩
  · obtain ⟨x, hx, rfl⟩ := Option.map_eq_some_iff.1 hv
    exact ⟨x, hx, hf x⟩
  · exact ⟨y, hy, rfl⟩

theorem ActsAs.refl : ActsAs m m := fun _ _ _ _ h => h

theorem ActsAs.bind {f g : α → KernelM β} (hm : Keeps Kernel.names m) (hk : ∀ a, ActsAs (f a) (g a)) :
    ActsAs (m >>= f) (m >>= g) := by
  intro s Q E hs h
  rw [wp_bind] at h ⊢
  refine wp_mono (wp_and h (hm s)) (fun a t _ ht => ?_) (fun _ _ h => h)
  exact hk a t Q E (hs.congr ht.2) ht.1

theorem ActsAs.ite {c : Prop} [Decidable c] {m' n' : KernelM α} (hm : ActsAs m m') (hn : ActsAs n n') :
    ActsAs (if c then m else n) (if c then m' else n') := by
  split
  · exact hm
  · exact hn

theorem pageFault_acts : ActsAs pageFault endRunning := by
  intro s Q E hs h
  simp only [pageFault, killWith, wp_bind, wp_getpid, wp_ite] at h ⊢
  simp only [endRunning, wp_bind, wp_getpid, wp_ite] at h
  refine ⟨h.1, fun hid => ?_⟩
  have h := h.2 hid
  rw [wp_getProcessStructOfPid] at h
  rw [wp_getProcessStructOfPid]
  cases hp : s.pidProcessHashTable s.currentRunningProcessPid with
  | none => rwa [hp] at h
  | some p =>
    rw [hp] at h
    simp only [wp_bind] at h ⊢
    cases hr : s.heap p with
    | none => simpa [validateActionProcessValid, deref, hr] using h
    | some r =>
      rw [wp_validate hr] at h ⊢
      rw [wp_ite] at h ⊢
      refine ⟨h.1, fun hd => ?_⟩
      rw [wp_bind, wp_deref hr, wp_bind, wp_getpid, if_pos ((hs _ p hp).2 r hr)]
      exact h.2 hd

theorem afterStore_acts {f g k : KernelM Unit} (h : ActsAs f g) : ActsAs (afterStore f message k) (afterStore g message k) :=
  .ite h .refl

/-! ## Every step -/

theorem Core.named {H : Set Ptr} (h : Core H s) : s.Named := by
  intro pid p hp
  obtain ⟨r, hr, hpid⟩ := h.table pid p hp
  refine ⟨h.fresh p r hr, fun x hx => ?_⟩
  obtain rfl : r = x := Option.some.inj (hr.symm.trans hx)
  exact hpid

instance : HoldsOfWrites fun s t => s.Named → t.Named where
  refl _ h := h
  trans _ _ _ h h' h0 := h' (h h0)
  write _ _ _ _ hf heap _ base h := h.write (fun r => (hf r).pid) heap base.table base.nextPtr
  globals _ _ heap _ base h := h.of_heap base.table base.nextPtr fun _ y hy => ⟨y, heap ▸ hy, rfl⟩
  free s p r _ h := by
    intro pid q hq
    simp only [Kernel.freeRecord] at hq ⊢
    by_cases hk : pid = r.pid
    · simp [hk] at hq
    · obtain ⟨hlt, hpid⟩ := h pid q (by simpa [hk] using hq)
      refine ⟨hlt, fun y hy => ?_⟩
      rcases heap_update_cases hy with ⟨_, hv⟩ | ⟨_, hy⟩
      · cases hv
      · exact hpid y hy

theorem Named.holdsOfStarts : HoldsOfStarts fun s t => s.Named → t.Named where
  enlist _ _ h := h
  pids _ _ _ h := h
  alloc s t r _ heap next table _ _ _ h := by
    intro pid q hq
    rw [table] at hq
    rw [next, heap]
    by_cases hk : pid = r.pid
    · obtain rfl : s.nextPtr = q := by simpa [hk] using hq
      exact ⟨Nat.lt_succ_self _, fun y hy => by rw [Function.update_self] at hy; cases hy; exact hk.symm⟩
    · obtain ⟨hlt, hpid⟩ := h pid q (by simpa [hk] using hq)
      refine ⟨Nat.lt_succ_of_lt hlt, fun y hy => hpid y ?_⟩
      rwa [Function.update_of_ne hlt.ne] at hy

theorem Named.indifferent : Indifferent fun s t => s.Named → t.Named where
  ignoresAsleep _ _ _ _ hf heap base h := h.write (fun r => (hf r).pid) heap base.table base.nextPtr
  asleep _ _ v h := h.write (f := fun r => { r with wakeTime := v, state := .asleep }) (fun _ => rfl) rfl rfl rfl
  clock _ _ h := h
  console _ _ h := h
  reads _ _ n h := h.write (f := fun r => { r with context := .consRead n }) (fun _ => rfl) rfl rfl rfl

/-- A step from any state keeps the table right. -/
theorem Kernel.Named.step {e : Event} (h : s.Named) (hst : Step s e t) : t.Named := by
  have spec := frame_step_but_start (e := e) (s := s) Named.indifferent fun name ssize prio env he => by
    subst he
    exact Respects.run (apart_startVirtual name ssize _ env Named.holdsOfStarts) s
  exact (wp_ok spec hst.2).also h

/-! ## `preceive` -/

/-- The end of the running process leaves the messages and the semaphores alone. -/
theorem apart_endRunning {M W : Prop} : Respects (Apart M W) endRunning := by
  have finish : Respects (Apart M W) (schedule (.user none)) :=
    apart_schedule (k := .user none) (fun _ => rfl) (fun _ => by simp) (.inl fun _ h => by cases h)
  refine .bind respects_getpid fun pid => .ite finish (.bind (.bind .get fun _ => .pure _) fun o => ?_)
  split
  · exact finish
  · exact .bind (respects_validate _) fun _ => .ite finish (apart_exitProcess 0 rfl (by simp) (by simp))

theorem names_modifyProc {f : Process → Process} (h : ∀ r, (f r).pid = r.pid) : Keeps Kernel.names (modifyProc p f) := by
  refine keeps_modifyProc fun s => ?_
  simp only [Kernel.names, mapProc_table, Prod.mk.injEq, true_and]
  refine ⟨rfl, funext fun q => ?_⟩
  by_cases hq : q = p
  · subst hq
    cases hp : s.heap q <;> simp [hp, h]
  · simp [hq]

theorem names_queueOut {hd : QueueHead} : Keeps Kernel.names (queueOut hd) := by
  refine keeps_queueOut fun s e => ?_
  simp only [Kernel.names, Kernel.unlink, Prod.mk.injEq]
  refine ⟨rfl, rfl, funext fun q => ?_⟩
  by_cases hq : q = e
  · subst hq
    cases hp : s.heap q <;> simp [hp]
  · simp [hq]

theorem preceive_acts : ActsAs (preceive fid message) (preceiveWith endRunning fid message) := by
  have fault : ∀ k, ActsAs (afterStore pageFault message k) (afterStore endRunning message k) :=
    fun _ => afterStore_acts pageFault_acts
  refine .bind (.ite (.pure _) (.bind .get fun _ => .pure _)) fun o => ?_
  split
  · exact .refl
  · refine .bind ?_ fun m => .bind (.bind .get fun _ => .pure _) fun b => .ite ?_ (.bind (.bind .get fun _ => .pure _) fun b =>
      .ite .refl (.bind (.bind .get fun _ => .pure _) fun b => .ite ?_ ?_))
    · refine .bind .get fun s => ?_
      split
      · exact .pure _
      · exact .throw _
    · refine .bind names_queueOut fun o => ?_
      split
      · exact .refl
      · exact .bind (names_modifyProc fun _ => rfl) fun _ => .bind (keeps_deref _) fun _ => .bind (.modify fun _ => rfl) fun _ => fault _
    · exact .bind (.modify fun _ => rfl) fun _ => fault _
    · exact .bind (.modify fun _ => rfl) fun _ => fault _

theorem preceiveResume_acts : ActsAs (preceiveResume message) (preceiveResumeWith endRunning message) := by
  refine .bind keeps_getCurrentProcess fun o => .bind ?_ fun r => .ite .refl (afterStore_acts pageFault_acts)
  cases o with
  | none => exact .throw _
  | some p => exact keeps_deref p

end

end Xinul
