import Xinul.Proofs.Reaping
import Xinul.Proofs.Uneventful

/-!
# What a process that ends leaves behind

`turn_current_process_into_a_zombie_or_kill_it` makes one process a zombie and wakes its
parent if that waits for a child. Nobody else ends, begins to wait or gets another parent,
and `exit_process` and `kill` store the return value of the zombie before it can be reaped.
-/

namespace Xinul

open Prog

/-- The process at `p` ended between `s` and `t`; its parent, `o`, does not wait for it. -/
structure Departs (s : Kernel) (p : Ptr) (o : Option Ptr) (t : Kernel) : Prop where
  others : ∀ q y, q ≠ p → t.heap q = some y → ∃ x, s.heap q = some x ∧ x.Uneventful y
  self : ∀ y, t.heap p = some y → y.parent = o ∧ y.state ≠ .blockedWaitChild
  parent : ∀ q z, o = some q → t.heap q = some z → z.state ≠ .blockedWaitChild

/-- A zombie at `p` would have the return value `v`. -/
def Departing (p : Ptr) (v : Int) (t : Kernel) : Prop := ∀ y, t.heap p = some y → y.state = .zombie → y.returnValue = v

section leaving

variable {s t u : Kernel} {p q : Ptr} {o : Option Ptr} {r x : Process} {v : Int} {k : Context}

theorem Departs.next (h : Departs s p o t) (hu : Unmoved t u) : Departs s p o u where
  others q z hq hz := by
    obtain ⟨y, hy, hyz⟩ := hu q z hz
    obtain ⟨x, hx, hxy⟩ := h.others q y hq hy
    exact ⟨x, hx, hxy.trans hyz⟩
  self z hz := by
    obtain ⟨y, hy, hyz⟩ := hu p z hz
    obtain ⟨hpar, hst⟩ := h.self y hy
    exact ⟨hyz.parent.trans hpar, fun hw => hst (hyz.waits hw)⟩
  parent q z hq hz := by
    obtain ⟨y, hy, -⟩ := hu q z hz
    exact hu.not_waiting hy (h.parent q y hq hy) hz

theorem Departs.after (h : Departs t p o u) (hs : Unmoved s t) : Departs s p o u where
  others q z hq hz := by
    obtain ⟨y, hy, hyz⟩ := h.others q z hq hz
    obtain ⟨x, hx, hxy⟩ := hs q y hy
    exact ⟨x, hx, hxy.trans hyz⟩
  self := h.self
  parent := h.parent

theorem Departing.next (h : Departing p v t) (hu : Unmoved t u) : Departing p v u := by
  intro z hz hzomb
  obtain ⟨y, hy, hyz⟩ := hu p z hz
  exact hyz.returnValue.trans (h y hy (hyz.zombie hzomb))

/-- The return value of the process that ended is stored. -/
theorem Departs.store (h : Departs s p o t) :
    Departs s p o (t.mapProc p fun r => { r with returnValue := v }) ∧ Departing p v (t.mapProc p fun r => { r with returnValue := v }) := by
  have record : ∀ q z, (t.mapProc p fun r => { r with returnValue := v }).heap q = some z →
      ∃ y, t.heap q = some y ∧ z.parent = y.parent ∧ z.state = y.state ∧ (q ≠ p → z = y) ∧ (q = p → z.returnValue = v) := by
    intro q z hz
    rcases heap_update_cases hz with ⟨rfl, hv⟩ | ⟨hq, hz⟩
    · obtain ⟨y, hy, rfl⟩ := Option.map_eq_some_iff.1 hv
      exact ⟨y, hy, rfl, rfl, fun hn => absurd rfl hn, fun _ => rfl⟩
    · exact ⟨z, hz, rfl, rfl, fun _ => rfl, fun hp => absurd hp hq⟩
  refine ⟨⟨fun q z hq hz => ?_, fun z hz => ?_, fun q z hq hz => ?_⟩, fun z hz _ => ?_⟩
  · obtain ⟨y, hy, -, -, he, -⟩ := record q z hz
    exact h.others q z hq (he hq ▸ hy)
  · obtain ⟨y, hy, hpar, hst, -⟩ := record p z hz
    rw [hpar, hst]
    exact h.self y hy
  · obtain ⟨y, hy, -, hst, -⟩ := record q z hz
    rw [hst]
    exact h.parent q y hq hy
  · obtain ⟨_, -, -, -, -, hv⟩ := record p z hz
    exact hv rfl

/-- A zombie can be let go. -/
theorem freeChildZombie_nonneg (hp : s.heap p = some x) (hz : x.state = .zombie) :
    wp (freeChildZombieProcess p) (fun w _ => 0 ≤ w) (fun _ => True) s := by
  have hz' : ¬ x.state ≠ .zombie := fun h => h hz
  simp only [freeChildZombieProcess, wp_bind, wp_deref hp, if_neg hz', wp_getpid]
  split
  · simp only [wp_bind, wp_modifyProc hp, wp_pure, le_refl]
  · simp only [freeProcessMemory, wp_bind, wp_deref hp, wp_modify, wp_pure, le_refl]

/-- `turn_current_process_into_a_zombie_or_kill_it` of the process at `p`. -/
theorem wp_turn (b : Bool) (pid : Int)
    (htab : s.pidProcessHashTable (if b then s.currentRunningProcessPid else pid) = some p) :
    wp (turnCurrentProcessIntoAZombieOrKillIt b pid)
      (fun w t => w < 0 ∧ Unmoved s t ∨ 0 ≤ w ∧ ∃ x, s.heap p = some x ∧ Departs s p x.parent t) (fun _ => True) s := by
  simp only [turnCurrentProcessIntoAZombieOrKillIt, wp_bind, wp_getpid, wp_getProcessStructOfPid, htab]
  refine wp_mono (unmoved_makeChildren (R := Process.Uneventful) s) (fun v u _ hu => ?_) (fun _ _ h => h)
  by_cases hv : v < 0
  · rw [if_pos hv]
    exact .inl ⟨by simp, hu⟩
  rw [if_neg hv, wp_bind]
  refine wp_modifyProc_any trivial fun y hy => ?_
  obtain ⟨x, hx, hxy⟩ := hu p y hy
  have hz : (u.mapProc p fun r => { r with state := .zombie }).heap p = some { y with state := .zombie } := by simp [hy]
  rw [wp_bind, wp_deref hz]
  -- whatever is done to the zombie and its parent, the others see nothing of it
  have leaves : ∀ t, Unmoved (u.mapProc p fun r => { r with state := .zombie }) t →
      (∀ q z, y.parent = some q → t.heap q = some z → z.state ≠ .blockedWaitChild) → Departs s p x.parent t := by
    intro t ht hpar
    refine ⟨fun q w hq hw => ?_, fun w hw => ?_, fun q z hq hz => hpar q z (hxy.parent.trans hq) hz⟩
    · obtain ⟨w', hw', hww⟩ := ht q w hw
      rw [mapProc_heap, Function.update_of_ne hq] at hw'
      obtain ⟨x', hx', hxw⟩ := hu q w' hw'
      exact ⟨x', hx', hxw.trans hww⟩
    · obtain ⟨w', hw', hww⟩ := ht p w hw
      rw [hz] at hw'
      cases hw'
      exact ⟨hww.parent.trans hxy.parent, ht.not_waiting hz (fun h => by cases h) hw⟩
  have free : (∀ t, Unmoved (u.mapProc p fun r => { r with state := .zombie }) t →
      ∀ q z, y.parent = some q → t.heap q = some z → z.state ≠ .blockedWaitChild) →
      wp (freeChildZombieProcess p) (fun w t => w < 0 ∧ Unmoved s t ∨ 0 ≤ w ∧ ∃ x, s.heap p = some x ∧ Departs s p x.parent t)
        (fun _ => True) (u.mapProc p fun r => { r with state := .zombie }) := by
    intro hpar
    refine wp_mono (wp_and (freeChildZombie_nonneg hz rfl) (unmoved_freeChildZombieProcess (R := Process.Uneventful) _)) (fun w t _ h => ?_)
      (fun _ _ h => h)
    exact .inr ⟨h.1, x, hx, leaves t h.2 (hpar t h.2)⟩
  cases hpar : y.parent with
  | none => exact free fun _ _ q _ hq => by rw [hpar] at hq; cases hq
  | some q =>
    rw [wp_bind]
    refine wp_deref_any trivial fun z hzq => ?_
    by_cases hzz : z.state = .zombie
    · rw [if_pos hzz]
      refine free fun t ht q' w hq hw => ?_
      rw [hpar] at hq
      cases hq
      exact ht.not_waiting hzq (by simp [hzz]) hw
    · rw [if_neg hzz]
      by_cases hzw : z.state = .blockedWaitChild
      · simp only [if_pos hzw, wp_bind]
        rw [wp_modifyProc hzq]
        refine wp_mono (unmoved_queueAdd (R := Process.Uneventful) _) (fun _ t _ ht => ?_) (fun _ _ h => h)
        refine .inr ⟨le_rfl, x, hx, leaves t (trans_of Unmoved (Along.map (fun r => (Process.KeepsFamily.state (by decide) (by decide) r).toUneventful) rfl) ht) ?_⟩
        intro q' w hq hw
        rw [hpar] at hq
        cases hq
        have hawake := mapProc_heap_some (p := q) (f := fun r => { r with state := .activatable }) hzq
        rw [if_pos rfl] at hawake
        exact Unmoved.not_waiting ht hawake (fun h => by cases h) hw
      · rw [if_neg hzw]
        refine .inr ⟨le_rfl, x, hx, leaves _ (refl_of Unmoved _) fun q' w hq hw => ?_⟩
        rw [hpar] at hq
        cases hq
        rw [hzq] at hw
        cases hw
        exact hzw

/-- `exit_process`; the process that ends is still the running one afterwards. -/
theorem wp_exitProcess_leaves (hr : Running s p r)
    (still : wp (turnCurrentProcessIntoAZombieOrKillIt true 0)
      (fun _ t => t.pidProcessHashTable t.currentRunningProcessPid = some p) (fun _ => True) s) :
    wp (exitProcess v k) (fun _ t => Departs s p r.parent t ∧ Departing p v t) (fun _ => True) s := by
  simp only [exitProcess, wp_bind, wp_getCurrentProcess, hr.table, wp_validate hr.heap]
  rw [if_neg (by simp [hr.state, ProcessState.dead]), wp_bind]
  have hturn := wp_turn true 0 (by rw [if_pos rfl]; exact hr.table)
  refine wp_mono (wp_and hturn still) (fun w t _ h => ?_) (fun _ _ h => h)
  obtain ⟨hw | ⟨hw, x, hx, hl⟩, htab⟩ := h
  · rw [if_pos hw.1]
    trivial
  · rw [if_neg (by omega)]
    rw [hr.heap] at hx
    cases hx
    simp only [wp_bind, wp_getCurrentProcess, htab]
    refine wp_modifyProc_any trivial fun _ _ => ?_
    obtain ⟨hl', hv⟩ := hl.store (v := v)
    exact wp_mono (unmoved_schedule (R := Process.Uneventful) _) (fun _ u _ hu => ⟨hl'.next hu, hv.next hu⟩) (fun _ _ h => h)

/-- `kill` of another process. -/
theorem wp_killOther_leaves {pid : Int} (hp : s.heap p = some x)
    (still : wp (leaveQueueProcessIfNeeded p) (fun _ t => t.pidProcessHashTable pid = some p) (fun _ => True) s) :
    wp (killOther p pid) (fun _ t => Unmoved s t ∨ Departs s p x.parent t ∧ Departing p 0 t) (fun _ => True) s := by
  rw [killOther, wp_bind]
  refine wp_mono (wp_and (unmoved_leaveQueue (R := Process.Uneventful) s) still) (fun w t _ h => ?_) (fun _ _ h => h)
  obtain ⟨ht, htab⟩ := h
  split
  · exact .inl ht
  · rw [wp_bind]
    have hturn := wp_turn (s := t) false pid (by simpa using htab)
    refine wp_mono hturn (fun w u _ h => ?_) (fun _ _ h => h)
    obtain ⟨hw, hu⟩ | ⟨hw, y, hy, hl⟩ := h
    · rw [if_pos hw]
      exact .inl (trans_of Unmoved ht hu)
    · rw [if_neg (by omega), wp_bind]
      refine wp_modifyProc_any trivial fun _ _ => ?_
      obtain ⟨x', hx', hxy⟩ := ht p y hy
      rw [hp] at hx'
      cases hx'
      rw [hxy.parent] at hl
      obtain ⟨hl', hv⟩ := (hl.after ht).store (v := 0)
      exact .inr ⟨hl', hv⟩

end leaving

end Xinul
