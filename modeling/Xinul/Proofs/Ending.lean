import Mathlib.Order.BooleanAlgebra.Set
import Xinul.Proofs.Family
import Xinul.Proofs.Waiting

/-!
# `exit_process` and `kill`

The sweep over the zombie children, the end of the running process and the end
of another one. Each function is executed once for all purposes: `K.usesFreed` says
that it may run into a freed record, and the family is followed where it was sound
to begin with.
-/

namespace Xinul

open Prog Linked

/-- The children of the process at `p` have all ended. -/
def Kernel.NoLivingChild (s : Kernel) (p : Ptr) : Prop :=
  ∀ c x, s.heap c = some x → x.started = true → x.parent = some p → x.state = .zombie

/-- The children of the process at `p` have all ended and never had any children. -/
def Kernel.NoHeirs (s : Kernel) (p : Ptr) : Prop :=
  ∀ c x, s.heap c = some x → x.started = true → x.parent = some p →
    x.state = .zombie ∧ x.childrenHead = none ∧ x.childrenTail = none

/-- Only zombies were freed. -/
structure Spared (s t : Kernel) : Prop where
  kept : ∀ q x, s.heap q = some x → x.state ≠ .zombie → t.heap q = some x
  back : ∀ q x, t.heap q = some x → s.heap q = some x
  next : t.nextPtr = s.nextPtr

theorem Spared.refl (s : Kernel) : Spared s s := ⟨fun _ _ h _ => h, fun _ _ h => h, rfl⟩

theorem Spared.trans {s t u : Kernel} (h : Spared s t) (h' : Spared t u) : Spared s u :=
  ⟨fun q x hx hz => h'.kept q x (h.kept q x hx hz) hz, fun q x hx => h.back q x (h'.back q x hx),
    h'.next.trans h.next⟩

/-- The faults of a walk over records that may have been freed. -/
def StrayFault (f : Fault) : Prop := f = .hang ∨ ∃ p, f = .useAfterFree p

theorem StrayFault.allows {K : Kind} (hw : K.usesFreed) {f : Fault} (h : StrayFault f) : K.Allows f := by
  rcases h with rfl | ⟨p, rfl⟩
  · trivial
  · exact hw

/-- A list that is only there when `F` holds. -/
theorem exists_list_of_imp {F : Prop} {P : List Ptr → Prop} (h : F → ∃ l, P l) : ∃ l, F → P l := by
  by_cases hf : F
  · obtain ⟨l, hl⟩ := h hf
    exact ⟨l, fun _ => hl⟩
  · exact ⟨[], fun h => absurd h hf⟩

section sweep

variable {K : Kind} {H : Set Ptr} {s s₀ t : Kernel} {c p q : Ptr} {r x : Process}

/-- A read of a record that was freed only if the kind allows it. -/
theorem wp_deref_or {Q : Process → Kernel → Prop} (h : K.usesFreed ∨ ∃ x, s.heap p = some x)
    (hQ : ∀ x, s.heap p = some x → Q x s) : wp (deref p) Q K.Allows s := by
  rcases h with hw | ⟨x, hx⟩
  · exact wp_deref_any hw hQ
  · exact (wp_deref hx).2 (hQ x hx)

theorem wp_modifyProc_or {Q : Unit → Kernel → Prop} {f : Process → Process}
    (h : K.usesFreed ∨ ∃ x, s.heap p = some x) (hQ : ∀ x, s.heap p = some x → Q () (s.mapProc p f)) :
    wp (modifyProc p f) Q K.Allows s := by
  rcases h with hw | ⟨x, hx⟩
  · exact wp_modifyProc_any hw hQ
  · exact (wp_modifyProc hx).2 (hQ x hx)

/-- A zombie is not the running process. -/
theorem Mid.pid_ne_of_zombie (m : Mid K s₀ H s c r) (hp : s.heap p = some x) (hz : x.state = .zombie) :
    x.pid ≠ s.currentRunningProcessPid := by
  intro hpid
  have hpc := m.inv.pid_inj hp m.running.heap (hpid.trans (m.running.caller.pid m.inv.toCore).symm)
  subst hpc
  rw [m.running.heap] at hp
  cases hp
  rw [m.running.state] at hz
  cases hz

/-- A zombie that is not in hand is freed. -/
theorem Mid.free (m : Mid K s₀ H s c r) (ht : K.family) (hp : s.heap p = some x) (hz : x.state = .zombie)
    (hH : p ∉ H) : Mid K s₀ H (s.freeRecord p x.pid) c r := by
  have hne := m.pid_ne_of_zombie hp hz
  have hn : x.nextPrev = none := by
    have := m.inv.fits p x hp hH
    cases hb : x.started <;> simpa [Process.Fits, hb, hz] using this
  have hcp : c ≠ p := by
    rintro rfl
    rw [m.running.heap] at hp
    cases hp
    rw [m.running.state] at hz
    cases hz
  have a : Act K H s H (s.freeRecord p x.pid) := by
    have := Act.free (K := K) (H := H) hp hn (by rw [hz]; rfl) (.inr ht) hne
    rwa [Set.sdiff_singleton_eq_self hH] at this
  refine m.step a (by simp [Kernel.freeRecord, hcp]) (by simp [Kernel.freeRecord, hne.symm]) rfl rfl m.mine ?_
  intro q y hy hyn hyo
  rcases heap_update_cases hy with ⟨_, hv⟩ | ⟨_, hy⟩
  · cases hv
  · exact m.wakes q y hy hyn hyo

theorem spared_freeRecord (hp : s.heap p = some x) (hz : x.state = .zombie) :
    Spared s (s.freeRecord p x.pid) := by
  refine ⟨fun q y hy hyz => ?_, fun q y hy => ?_, rfl⟩
  · have hqp : q ≠ p := by
      rintro rfl
      rw [hp] at hy
      cases hy
      exact hyz hz
    simpa [Kernel.freeRecord, hqp] using hy
  · rcases heap_update_cases hy with ⟨_, hv⟩ | ⟨_, hy⟩
    · cases hv
    · exact hy

/-- `free_child_zombie_process` of a process other than the running one. -/
theorem wp_freeChildZombie {Q : Int → Kernel → Prop} {E : Fault → Prop} (hp : s.heap p = some x)
    (hz : x.state = .zombie) (hne : x.pid ≠ s.currentRunningProcessPid)
    (hQ : Q 0 (s.freeRecord p x.pid)) : wp (freeChildZombieProcess p) Q E s := by
  have hz' : ¬ x.state ≠ .zombie := fun h => h hz
  simp only [freeChildZombieProcess, wp_bind, wp_deref hp, if_neg hz', wp_getpid, if_neg hne,
    freeProcessMemory, wp_modify, wp_pure]
  exact hQ

/-- The sweep frees zombies and nothing else, wherever its pointers lead. -/
theorem Mid.wp_killZombies (m : Mid K s₀ H s c r) (ht : K.family)
    (hH : ∀ q ∈ H, ∀ x, s.heap q = some x → x.state ≠ .zombie) (n : Nat) (o : Option Ptr) :
    wp (killZombies n o) (fun v t => v = 0 ∧ Mid K s₀ H t c r ∧ Spared s t) StrayFault s := by
  induction n generalizing s o with
  | zero => exact .inl rfl
  | succ n ih =>
    cases o with
    | none => exact ⟨rfl, m, .refl s⟩
    | some temp =>
      rw [killZombies, wp_bind]
      refine wp_deref_any (.inr ⟨temp, rfl⟩) fun x hx => ?_
      by_cases hz : x.state = .zombie
      · have rest : ∀ u, Mid K s₀ H u c r → Spared s u → wp (do
            let next := (← deref temp).nextSibling
            if (← freeChildZombieProcess temp) < 0 then pure (-1) else killZombies n next)
            (fun v t => v = 0 ∧ Mid K s₀ H t c r ∧ Spared s t) StrayFault u := by
          intro u m1 hs1
          rw [wp_bind]
          refine wp_deref_any (.inr ⟨temp, rfl⟩) fun y hy => ?_
          obtain rfl : x = y := Option.some.inj (hx.symm.trans (hs1.back temp y hy))
          have hHu : temp ∉ H := fun hc => hH temp hc x hx hz
          rw [wp_bind]
          refine wp_freeChildZombie hy hz (m1.pid_ne_of_zombie hy hz) ?_
          have m2 := m1.free ht hy hz hHu
          have hs2 := hs1.trans (spared_freeRecord hy hz)
          rw [if_neg (by decide)]
          refine wp_mono (ih m2 (fun q hq y hy => hH q hq y (hs2.back q y hy)) _) ?_ (fun _ _ h => h)
          exact fun _ _ _ h => ⟨h.1, h.2.1, hs2.trans h.2.2⟩
        simp only [if_pos hz]
        by_cases hempty : x.childrenHead = none ∧ x.childrenTail = none
        · rw [if_pos hempty, wp_bind, wp_pure]
          exact rest s m (.refl s)
        · rw [if_neg hempty, wp_bind]
          exact wp_mono (ih m hH _) (fun _ u _ h => rest u h.2.1 h.2.2) (fun _ _ h => h)
      · rw [if_neg hz]
        exact ih m hH _

/-- The sweep over children that are zombies whose own children are gone. -/
theorem wp_killZombies_children {cs : List Ptr} (n : Nat) (o : Option Ptr) (hseg : Seg s.sibling o cs none)
    (hcs : ∀ c ∈ cs, ∃ x, s.heap c = some x ∧ x.state = .zombie ∧ x.pid ≠ s.currentRunningProcessPid ∧
      (∀ q, x.childrenHead = some q → s.heap q = none) ∧
      (K.usesFreed ∨ x.childrenHead = none ∧ x.childrenTail = none)) :
    wp (killZombies n o) (fun _ t => ∀ q, t.heap q = if q ∈ cs then none else s.heap q) K.Allows s := by
  induction n generalizing s o cs with
  | zero => trivial
  | succ n ih =>
    cases cs with
    | nil =>
      obtain rfl : o = none := hseg
      simp [killZombies]
    | cons temp cs =>
      have hnd := hseg.nodup
      obtain ⟨rfl, hrest⟩ := hseg
      obtain ⟨x, hx, hz, hne, hgone, hlists⟩ := hcs temp (by simp)
      rw [killZombies, wp_bind, wp_deref hx]
      have rest : wp (do
          let next := (← deref temp).nextSibling
          if (← freeChildZombieProcess temp) < 0 then pure (-1) else killZombies n next)
          (fun _ t => ∀ q, t.heap q = if q ∈ temp :: cs then none else s.heap q) K.Allows s := by
        rw [wp_bind, wp_deref hx, wp_bind]
        refine wp_freeChildZombie hx hz hne ?_
        rw [if_neg (by decide)]
        have hnot := (List.nodup_cons.1 hnd).1
        have hsame : ∀ d ∈ cs, (s.freeRecord temp x.pid).heap d = s.heap d := by
          intro d hd
          have hdt : d ≠ temp := by
            rintro rfl
            exact hnot hd
          simp [Kernel.freeRecord, hdt]
        have hsib : s.sibling temp = x.nextSibling := by simp [Kernel.sibling, hx]
        rw [hsib] at hrest
        refine wp_mono (ih (s := s.freeRecord temp x.pid) _ (hrest.congr fun d hd => ?_) fun d hd => ?_) ?_
          (fun _ _ h => h)
        · simp [Kernel.sibling, hsame d hd]
        · obtain ⟨y, hy, hyz, hyne, hyg, hyl⟩ := hcs d (by simp [hd])
          refine ⟨y, by rw [hsame d hd, hy], hyz, hyne, fun q hq => ?_, hyl⟩
          by_cases hqt : q = temp
          · subst hqt
            simp [Kernel.freeRecord]
          · simpa [Kernel.freeRecord, hqt] using hyg q hq
        · intro _ t _ ht q
          rw [ht q]
          by_cases hqt : q = temp
          · subst hqt
            simp [Kernel.freeRecord]
          · simp [Kernel.freeRecord, hqt]
      simp only [if_pos hz]
      by_cases hempty : x.childrenHead = none ∧ x.childrenTail = none
      · rw [if_pos hempty, wp_bind, wp_pure]
        exact rest
      · -- what a zombie child points to was freed
        have hw := hlists.resolve_right hempty
        rw [if_neg hempty, wp_bind]
        cases n with
        | zero => trivial
        | succ n =>
          cases hh : x.childrenHead with
          | none =>
            rw [killZombies, wp_pure]
            exact rest
          | some q =>
            have hfault : wp (deref q) (fun _ _ => False) K.Allows s := by
              simp only [deref, wp_bind, wp_get, hgone q hh]
              exact hw
            rw [killZombies, wp_bind]
            exact wp_mono hfault (fun _ _ _ h => h.elim) (fun _ _ h => h)

/-- What ending the process at `p` needs for its family, `F`, to be followed. -/
structure Passing (K : Kind) (F : Prop) (s : Kernel) (p : Ptr) (x : Process) (cs : List Ptr) : Prop where
  family : F → Family s
  children : F → Children s p x cs
  dead : F → s.NoLivingChild p
  safe : K.usesFreed ∨ F ∧ s.NoHeirs p

/-- A child that has ended stays a zombie, since it has a parent. -/
theorem Process.Alike.zombie {z z' : Process} {p : Ptr} (h : z.Alike z') (hp : z'.parent = some p) (hs : z.state = .zombie) :
    z'.state = .zombie := by
  have hd : z'.state.dead = true := by rw [h.dead, hs]; rfl
  have hk : z'.state ≠ .killed := fun hc => by
    rcases h.killed hc with hc | hc
    · rw [hs] at hc
      cases hc
    · rw [← h.parent, hp] at hc
      cases hc
  cases hz' : z'.state <;> simp [hz', ProcessState.dead] at hd hk ⊢

theorem Kernel.NoLivingChild.alike {s t : Kernel} {p : Ptr} (h : s.NoLivingChild p) (ha : s.Alike t) : t.NoLivingChild p := by
  intro e z' hz' hzs hzp
  obtain ⟨z, hz, hzz⟩ := ha.back e z' hz'
  exact hzz.zombie hzp (h e z hz (hzz.started.symm.trans hzs) (hzz.parent.symm.trans hzp))

/-- It does not depend on what the family does not see. -/
theorem Passing.alike {K : Kind} {F : Prop} {s t : Kernel} {p : Ptr} {x y : Process} {cs : List Ptr}
    (h : Passing K F s p x cs) (ha : s.Alike t) (hy : x.Alike y) : Passing K F t p y cs := by
  refine ⟨fun hf => (h.family hf).alike ha, fun hf => (h.children hf).alike ha hy, fun hf => (h.dead hf).alike ha,
    h.safe.imp id fun hs => ⟨hs.1, fun e z' hz' hzs hzp => ?_⟩⟩
  obtain ⟨z, hz, hzz⟩ := ha.back e z' hz'
  obtain ⟨hst, hh, ht⟩ := hs.2 e z hz (hzz.started.symm.trans hzs) (hzz.parent.symm.trans hzp)
  exact ⟨hzz.zombie hzp hst, hzz.head.trans hh, hzz.tail.trans ht⟩

/-- `make_children_orphans_and_kill_zombies`. With a sound family all children are
gone afterwards. -/
theorem Mid.wp_makeChildren {F : Prop} {cs : List Ptr} (m : Mid K s₀ H s c r) (ht : K.family)
    (hH : ∀ q ∈ H, ∀ x, s.heap q = some x → x.state ≠ .zombie) (hp : s.heap p = some x)
    (hF : Passing K F s p x cs) :
    wp (makeChildrenOrphansAndKillZombies p) (fun v t => v = 0 ∧ Mid K s₀ H t c r ∧ Spared s t ∧
      (F → ∀ q, t.heap q = if q ∈ cs then none else s.heap q)) K.Allows s := by
  rw [makeChildrenOrphansAndKillZombies, wp_bind, wp_deref hp]
  by_cases hempty : x.childrenHead = none ∧ x.childrenTail = none
  · rw [if_pos hempty]
    refine ⟨rfl, m, .refl s, fun hf q => ?_⟩
    have hchain := (hF.children hf).chain
    rw [hempty.1] at hchain
    have hnil : Seg s.sibling none [] none := rfl
    obtain rfl : cs = [] := hchain.unique hnil
    simp
  · rw [if_neg hempty, wp_bind, wp_get]
    have general := m.wp_killZombies ht hH (s.nextPtr + 1) x.childrenHead
    by_cases hf : F
    · have hcs := hF.children hf
      refine wp_mono (wp_and (wp_killZombies_children (K := K) _ _ hcs.chain fun d hd => ?_) general) ?_
        (fun _ _ h => h)
      · obtain ⟨y, hy, hys, hyp⟩ := (hcs.mem d).1 hd
        have hz := hF.dead hf d y hy hys hyp
        refine ⟨y, hy, hz, m.pid_ne_of_zombie hy hz, fun q hq => ?_, ?_⟩
        · exact ((hF.family hf).swept d y q hy hys (by rw [hz]; rfl) hq).1
        · exact hF.safe.imp id fun h => (h.2 d y hy hys hyp).2
      · exact fun _ _ _ h => ⟨h.2.1, h.2.2.1, h.2.2.2, fun _ => h.1⟩
    · refine wp_mono general ?_ (fun _ _ h => h.allows (hF.safe.resolve_right fun h => hf h.1))
      exact fun _ _ _ h => ⟨h.1, h.2.1, h.2.2, fun h => absurd h hf⟩

/-- The family once the process is a zombie and its children, who all ended before, are freed. -/
theorem Passing.die {F : Prop} {u : Kernel} {cs : List Ptr} (hF : Passing K F s p x cs) (hi : Inv H s) (hp : s.heap p = some x)
    (hst : x.started = true) (hd : x.state.dead = false) (hu : u.heap p = some x)
    (heap : F → ∀ q, u.heap q = if q ∈ cs then none else s.heap q) (next : u.nextPtr = s.nextPtr) (hf : F) :
    Family (u.mapProc p fun r => { r with state := .zombie }) := by
  have hcs := hF.children hf
  have hdead : ∀ e ∈ cs, ∀ z, s.heap e = some z → z.state = .zombie := by
    intro e he z hz
    obtain ⟨z', hz', hzs, hzp⟩ := (hcs.mem e).1 he
    rw [hz] at hz'
    cases hz'
    exact hF.dead hf e z hz hzs hzp
  have hpcs : p ∉ cs := fun hc => by
    rw [hdead p hc x hp] at hd
    cases hd
  exact (hF.family hf).die (y := { x with state := .zombie })
    { record := hp
      started := hst
      alive := hd
      children := hcs
      ended := fun e he z hz => by
        rw [hdead e he z hz]
        rfl
      fresh := hi.fresh
      parent := rfl
      still := hst
      head := rfl
      sibling := rfl
      dead := rfl
      killed := fun h => by cases h
      heap := fun q => by
        rw [mapProc_heap]
        by_cases hq : q = p
        · subst hq
          simp [hpcs, hu]
        · simp [hq, heap hf q]
      next := next }

end sweep

/-! ## The running process ends -/

section exit

variable {K : Kind} {F : Prop} {s s₀ t : Kernel} {c p q : Ptr} {r x y : Process} {k : Context}

/-- `scheduler` leaves the family alone. -/
theorem schedule_family (hi : Inv ∅ s) (hc : Caller s c r) (hund : r.nextPrev ≠ some .dead)
    (hk : Saves .any s c r k) (h : Family (s.mapProc c fun r => { r with context := k })) :
    wp (schedule k) (fun _ t => Family t) (fun _ => True) s := by
  have hi' := ((Chain.refl (K := .any) hi).save hc.heap hk).inv
  simp only [schedule, saveContext, wp_bind, wp_getCurrentProcess, hc.table, wp_modifyProc hc.heap]
  refine wp_mono (scheduler_done (K := { Kind.any with family := False }) (.refl hi') trivial
    (c := c) (r := { r with context := k }) ⟨hc.table, by simp [hc.heap], hc.started, hc.user⟩ hund
    (fun _ _ _ _ _ => trivial)) ?_ (fun _ _ _ => trivial)
  exact fun _ t _ ht => ht.chain.family id h

/-- The running process at `c` has ended; the kernel function has it in hand. -/
structure Dying (K : Kind) (s₀ s : Kernel) (c : Ptr) (y : Process) : Prop where
  chain : Chain K s₀ (insert c ∅) s
  table : s.pidProcessHashTable s.currentRunningProcessPid = some c
  heap : s.heap c = some y
  state : y.state = .zombie ∨ y.state = .killed
  user : s.startedUserProcess = true
  idle : s.pidProcessHashTable idleId ≠ some c
  wakes : K.Wakes s
  acts : K.acts c

/-- What ended is in no list; a process that ended itself is still the running one. -/
theorem Process.Fits.ended {running : Int} (hst : y.started = true) (hn : y.nextPrev = none)
    (hpid : y.pid = running) (state : y.state = .zombie ∨ y.state = .killed) : y.Fits running := by
  rcases state with h | h <;> simp [Process.Fits, hst, h, hn, hpid]

theorem Dying.dead (d : Dying K s₀ s c y) : y.state.dead = true := by
  rcases d.state with h | h <;> rw [h] <;> rfl

theorem Dying.pid (d : Dying K s₀ s c y) : y.pid = s.currentRunningProcessPid := by
  obtain ⟨x, hx, hpid⟩ := d.chain.inv.table _ _ d.table
  rw [d.heap] at hx
  cases hx
  exact hpid

/-- Fields of the process that ended are written. -/
theorem Dying.write {f : Process → Process} (d : Dying K s₀ s c y) (ht : K.family) (pid : (f y).pid = y.pid)
    (prio : (f y).prio = y.prio) (link : (f y).nextPrev = y.nextPrev) (started : (f y).started = y.started)
    (parent : (f y).parent = y.parent) (state : (f y).state = .zombie ∨ (f y).state = .killed)
    (wake : (f y).wakeTime = y.wakeTime) : Dying K s₀ (s.mapProc c f) c (f y) where
  chain := by
    have hdead : (f y).state.dead = true := by rcases state with h | h <;> rw [h] <;> rfl
    exact d.chain.step (.set (by simp) d.heap pid prio link started (fun _ => hdead)
      (.inl ⟨ht, fun _ => parent⟩) (.inl ht) (fun _ => hdead) (fun hi => absurd hi d.idle)
      ⟨.inl d.acts, fun h => by rw [h] at hdead; cases hdead⟩)
  table := d.table
  heap := by simp [d.heap]
  state := state
  user := d.user
  idle := d.idle
  wakes := d.wakes.mapProc fun x hx => by
    rw [d.heap] at hx
    cases hx
    exact ⟨link, wake⟩
  acts := d.acts

/-- The family of a process that ended does not depend on what else is in its record. -/
theorem Family.writeDead {f : Process → Process} (h : Family s) (hp : s.heap p = some y)
    (hd : y.state.dead = true) (started : (f y).started = y.started) (parent : (f y).parent = y.parent)
    (head : (f y).childrenHead = y.childrenHead) (tail : (f y).childrenTail = y.childrenTail)
    (sibling : (f y).nextSibling = y.nextSibling) (state : (f y).state = y.state) :
    Family (s.mapProc p f) := by
  refine h.alike (.map hp ⟨started, parent, head, tail, sibling, by rw [state], fun hc => ?_, ?_⟩ rfl rfl)
  · rw [state, hd] at hc
    cases hc
  · rw [state]
    exact .inl

/-- The end of `exit_process`. -/
theorem Dying.wp_finish (d : Dying K s₀ s c y) (hl : K.resched) (ht : K.family) (hF : F → Family s) (retval : Int) :
    wp (modifyProc c fun r => { r with returnValue := retval })
      (fun _ u => wp (schedule k) (fun _ t => Done K s₀ t ∧ (F → Family t)) K.Allows u) K.Allows s := by
  obtain ⟨hn, hst⟩ := d.chain.inv.unlinked d.heap (by simp)
  rw [wp_modifyProc d.heap]
  have d1 := d.write (f := fun r => { r with returnValue := retval }) ht rfl rfl rfl rfl rfl d.state rfl
  have ch := d1.chain.step (.release (by simp) d1.heap (.ended hst hn d1.pid d1.state)
    (by rcases d.state with h | h <;> simp [h]) (by rcases d.state with h | h <;> simp [h]))
  have hc : Caller (s.mapProc c fun r => { r with returnValue := retval }) c { y with returnValue := retval } :=
    ⟨d.table, d1.heap, hst, d.user⟩
  have hund : ({ y with returnValue := retval } : Process).nextPrev ≠ some .dead := by simp [hn]
  have hdone := schedule_done ch hl hc hund d1.wakes (k := k)
    ⟨.inl ht, fun _ => d1.dead, fun hi => absurd hi d.idle, d.acts⟩
  by_cases hf : F
  · have hfam := (hF hf).writeDead (f := fun r => { r with returnValue := retval }) d.heap d.dead rfl rfl rfl
      rfl rfl rfl
    refine wp_mono (wp_and hdone (schedule_family ch.inv hc hund
      ⟨.inl trivial, fun _ => d1.dead, fun hi => absurd hi d.idle, trivial⟩
      (hfam.writeDead d1.heap d1.dead rfl rfl rfl rfl rfl rfl))) ?_ (fun _ _ h => h)
    exact fun _ _ _ h => ⟨h.1, fun _ => h.2⟩
  · exact wp_mono hdone (fun _ _ _ h => ⟨h, fun h => absurd h hf⟩) (fun _ _ h => h)

/-- The process that ended is `killed` instead of a zombie. -/
theorem Dying.wp_freeSelf {Q : Int → Kernel → Prop} {E : Fault → Prop} (d : Dying K s₀ s c y) (ht : K.family)
    (hz : y.state = .zombie) (hF : F → Family s ∧ y.parent = none)
    (hQ : ∀ u z, Dying K s₀ u c z → (F → Family u) → Q 0 u) : wp (freeChildZombieProcess c) Q E s := by
  have hz' : ¬ y.state ≠ .zombie := fun h => h hz
  simp only [freeChildZombieProcess, wp_bind, wp_deref d.heap, if_neg hz', wp_getpid, if_pos d.pid,
    wp_modifyProc d.heap, wp_pure]
  refine hQ _ _ (d.write (f := fun r => { r with state := .killed }) ht rfl rfl rfl rfl rfl (.inr rfl) rfl)
    fun hf => ?_
  obtain ⟨hfam, hpar⟩ := hF hf
  exact hfam.alike (.map (f := fun r => { r with state := .killed }) d.heap
    ⟨rfl, rfl, rfl, rfl, rfl, d.dead.symm, (fun h => by cases h), fun _ => .inr hpar⟩ rfl rfl)

/-- A parent that waits for a child is woken. -/
theorem Dying.wp_wakeParent {Q : Unit → Kernel → Prop} {E : Fault → Prop} (d : Dying K s₀ s c y)
    (hl : K.resched) (hp : s.heap p = some x) (hst : x.started = true) (hs : x.state = .blockedWaitChild)
    (hF : F → Family s) (hQ : ∀ u z, Dying K s₀ u c z → (F → Family u) → Q () u) :
    wp (modifyProc p fun r => { r with state := .activatable })
      (fun _ u => wp (queueAdd p .activatable Process.prioField) Q E u) E s := by
  have hpc : p ≠ c := by
    rintro rfl
    rw [d.heap] at hp
    cases hp
    rcases d.state with h | h <;> rw [h] at hs <;> cases hs
  have hn : x.nextPrev = none := by
    have := d.chain.inv.fits p x hp (by simp [hpc])
    simpa [Process.Fits, hst, hs] using this
  have hdead : x.state.dead = false := by rw [hs]; rfl
  have ch1 := d.chain.step (.hold hp hst hn (by simp [hs]))
  have ch2 := ch1.step (Act.setState (v := .activatable) ch1.inv (by simp) hp hdead rfl (fun _ => .inr rfl) (.inl rfl)
    fun h => by cases h)
  have hp2 : (s.mapProc p fun r => { r with state := .activatable }).heap p =
      some { x with state := .activatable } := by simp [hp]
  have ch3 := ch2.step (.link (d := .activatable) (by simp [hpc]) hp2 (by simp [Process.Fits, hst])
    (fun q hq => by cases hq) (fun _ => .inl rfl) (fun _ => .inl hl))
  rw [wp_modifyProc hp]
  refine wp_queueAdd ch2.inv.toCore hp2 hn rfl (hQ _ y ⟨ch3, d.table, ?_, d.state, d.user, d.idle, ?_, d.acts⟩ fun hf => ?_)
  · simp [hpc.symm, d.heap]
  · exact Kind.Wakes.link (d.wakes.mapProc fun _ _ => ⟨rfl, rfl⟩) (by decide)
  · refine ((hF hf).alike (.map (f := fun r => { r with state := .activatable }) hp
      ⟨rfl, rfl, rfl, rfl, rfl, hdead.symm, fun _ => .inl rfl, fun h => by cases h⟩ rfl rfl)).alike
      (.map (f := fun r => { r with nextPrev := some .activatable, stamp := s.insertions }) hp2
        ⟨rfl, rfl, rfl, rfl, rfl, rfl, fun _ => .inl rfl, .inl⟩ rfl rfl)

/-- `turn_current_process_into_a_zombie_or_kill_it` for the running process. -/
theorem Mid.wp_turnSelf {Q : Int → Kernel → Prop} {cs : List Ptr} (m : Mid K s₀ ∅ s c r) (hl : K.resched)
    (ht : K.family) (hu : s.pidProcessHashTable idleId ≠ some c) (hlin : Lineage s₀)
    (hF : Passing K F s c r cs) (hQ : ∀ u y, Dying K s₀ u c y → (F → Family u) → Q 0 u) :
    wp (turnCurrentProcessIntoAZombieOrKillIt true 0) Q K.Allows s := by
  have hund : r.state.dead = false := by rw [m.running.state]; rfl
  simp only [turnCurrentProcessIntoAZombieOrKillIt, wp_bind, wp_getpid, wp_getProcessStructOfPid, if_true,
    m.running.table]
  refine wp_mono (m.wp_makeChildren ht (by simp) m.running.heap hF) ?_ (fun _ _ h => h)
  rintro _ u - ⟨rfl, m1, hs, hheap⟩
  have hidle : u.pidProcessHashTable idleId ≠ some c := by
    intro hi
    obtain ⟨z, hz, hpid⟩ := m1.inv.table _ _ hi
    rw [m1.running.heap] at hz
    cases hz
    exact hu (hpid ▸ m.inv.pidOf c r m.running.heap)
  have d : Dying K s₀ (u.mapProc c fun r => { r with state := .zombie }) c { r with state := .zombie } := by
    have ch := m1.chain.step (.hold m1.running.heap m1.running.started m1.unlinked (by simp [m.running.state]))
    refine ⟨ch.step (.set (by simp) m1.running.heap rfl rfl rfl rfl (fun _ => rfl) (.inl ⟨ht, fun _ => rfl⟩)
      (.inl ht) (fun _ => rfl) (fun hi => absurd hi hidle) ⟨.inl m1.acts, fun h => by cases h⟩), m1.running.table, by simp [m1.running.heap],
      .inl rfl, m1.running.user, hidle, m1.wakes.mapProc fun _ _ => ⟨rfl, rfl⟩, m1.acts⟩
  have hfam := hF.die m.inv m.running.heap m.running.started hund m1.running.heap hheap hs.next
  rw [if_neg (by decide)]
  simp only [wp_bind]
  rw [wp_modifyProc m1.running.heap, wp_deref d.heap]
  cases hpar : r.parent with
  | none =>
    exact d.wp_freeSelf ht rfl (fun hf => ⟨hfam hf, hpar⟩) hQ
  | some q =>
    have hchild : F → (u.mapProc c fun r => { r with state := .zombie }).ChildOf c q := fun _ =>
      ⟨_, d.heap, m.running.started, hpar⟩
    have hlive : K.usesFreed ∨ ∃ z, (u.mapProc c fun r => { r with state := .zombie }).heap q = some z := by
      refine hF.safe.imp id fun h => ?_
      obtain ⟨z, hz, _⟩ := (hfam h.1).parents c q (hchild h.1)
      exact ⟨z, hz⟩
    simp only [wp_bind]
    refine wp_deref_or hlive fun z hz => ?_
    by_cases hzz : z.state = .zombie
    · rw [if_pos hzz]
      refine d.wp_freeSelf ht rfl (F := F) (fun hf => ?_) hQ
      obtain ⟨z', hz', _, hzd⟩ := (hfam hf).parents c q (hchild hf)
      rw [hz] at hz'
      cases hz'
      rw [hzz] at hzd
      cases hzd
    · rw [if_neg hzz]
      by_cases hzw : z.state = .blockedWaitChild
      · have hzs := (d.chain.lineage hlin c _ d.heap m.running.started q hpar).2 z hz
        simp only [if_pos hzw, wp_bind]
        exact d.wp_wakeParent hl hz hzs hzw hfam fun v w dv hv => hQ v w dv hv
      · rw [if_neg hzw]
        exact hQ _ _ d hfam

theorem exitProcess_done {cs : List Ptr} (m : Mid K s₀ ∅ s c r) (hl : K.resched) (ht : K.family)
    (hu : s.pidProcessHashTable idleId ≠ some c) (hlin : Lineage s₀) (hF : Passing K F s c r cs)
    (retval : Int) :
    wp (exitProcess retval k) (fun _ t => Done K s₀ t ∧ (F → Family t)) K.Allows s := by
  simp only [exitProcess, wp_bind, wp_getCurrentProcess, m.running.table, wp_validate m.running.heap]
  rw [if_neg (by simp [m.running.state, ProcessState.dead]), wp_bind]
  refine m.wp_turnSelf hl ht hu hlin hF fun u y d hfam => ?_
  rw [if_neg (by decide)]
  simp only [wp_bind, wp_getCurrentProcess, d.table]
  exact d.wp_finish hl ht hfam retval

end exit

/-! ## Another process ends -/

section kill

variable {K : Kind} {F : Prop} {s s₀ t : Kernel} {c p q : Ptr} {r x y : Process} {cs : List Ptr}

/-- A process at an end of the list of a semaphore waits for it. -/
theorem Kernel.AtEnd.waits {sem : Int} (h : s.AtEnd sem p) (hi : Inv ∅ s) : WaitsFor ∅ s p sem := by
  obtain ⟨st, hsem, hends⟩ := h
  obtain ⟨ps, hw⟩ := hi.sems.lists sem st hsem
  obtain ⟨ns, hb⟩ := hw.list
  rw [hb.head_proc, hb.last_proc] at hends
  exact (hw.mem p).1 (hends.elim List.mem_of_head? List.mem_of_getLast?)

/-- The state `t` after the process at `p`, with the record `x`, was taken out of
whatever it was in. -/
structure Left (s t : Kernel) (p : Ptr) (x y : Process) : Prop where
  heap : t.heap = Function.update s.heap p (some y)
  table : t.pidProcessHashTable = s.pidProcessHashTable
  next : t.nextPtr = s.nextPtr
  alike : x.Alike y
  alive : y.state.dead = false
  pid : y.pid = x.pid

/-- `leave_queue_process_if_needed`. -/
theorem Mid.wp_leaveQueue {Q : Int → Kernel → Prop} (m : Mid K s₀ ∅ s c r) (hp : s.heap p = some x)
    (hpc : p ≠ c) (hd : x.state.dead = false)
    (hsem : x.state = .blockedSemaphore → s.AtEnd x.semaphoreId p)
    (hA : K.assert ∨ x.started = true ∧ x.state ≠ .blockedWaitChild ∧ (x.state = .blockedQueue → x.nextPrev ≠ none))
    (hQ : ∀ t y, Mid K s₀ (insert p ∅) t c r → Left s t p x y → Q 0 t) :
    wp (leaveQueueProcessIfNeeded p) Q K.Allows s := by
  rw [leaveQueueProcessIfNeeded, wp_bind, wp_deref hp]
  by_cases hs : x.state = .blockedSemaphore
  · rw [if_pos hs, wp_bind]
    refine m.wp_procKillDiag hp ((hsem hs).waits m.inv) (hsem hs) fun t m1 hheap htab hnext _ => ?_
    rw [if_neg (by decide)]
    exact hQ t _ m1 ⟨hheap, htab, hnext, ⟨rfl, rfl, rfl, rfl, rfl, hd.symm, fun _ => .inl rfl, fun h => by cases h⟩, rfl, rfl⟩
  · rw [if_neg hs, wp_bind]
    cases hn : x.nextPrev with
    | none =>
      rw [wp_queueDel_none hp hn]
      refine hA.resolve_right ?_
      rintro ⟨hst, hw, hq⟩
      have hf := m.inv.fits p x hp (by simp)
      have hq := fun h => hq h hn
      cases hstate : x.state <;> simp only [Process.Fits, hst, hstate, hn, reduceCtorEq, or_false,
        Bool.true_eq_false, if_false] at hf hs hw hd <;> try contradiction
      exact hpc (m.inv.pid_inj hp m.running.heap (hf.2.trans (m.running.caller.pid m.inv.toCore).symm))
    | some d =>
      rw [wp_queueDel hp hn]
      exact hQ _ { x with nextPrev := none } (m.unlink hp hn) ⟨by simp [hp], rfl, rfl,
        ⟨rfl, rfl, rfl, rfl, rfl, rfl, fun _ => .inl rfl, .inl⟩, hd, rfl⟩

theorem Left.passing (h : Left s t p x y) (hp : s.heap p = some x) (hF : Passing K F s p x cs) : Passing K F t p y cs :=
  hF.alike (.update hp h.alike h.heap h.next) h.alike

/-- The end of `kill`: the zombie is let go. -/
theorem Mid.wp_killFinish {Q : Int → Kernel → Prop} (m : Mid K s₀ (insert p ∅) s c r)
    (hp : s.heap p = some x) (hz : x.state = .zombie) (hF : F → Family s)
    (hQ : ∀ t z, Mid K s₀ ∅ t c r → (F → Family t) → t.heap p = some z → z.state = .zombie → Q 0 t) :
    wp (do
      modifyProc p fun r => { r with returnValue := 0 }
      pure 0) Q K.Allows s := by
  have hcp : c ≠ p := fun h => m.mine (by simp [h])
  obtain ⟨hn, hst⟩ := m.inv.unlinked hp (by simp)
  have m1 := m.write (f := fun r => { r with returnValue := 0 }) hp hcp ⟨rfl, rfl, rfl, rfl, rfl, rfl⟩ rfl rfl
    rfl (.inr ⟨rfl, rfl, rfl, rfl, rfl, .inl rfl⟩) rfl
  have hp1 : (s.mapProc p fun r => { r with returnValue := 0 }).heap p = some { x with returnValue := 0 } := by
    simp [hp]
  have m2 := m1.step (.release (H := ∅) (by simp) hp1 (by simp [Process.Fits, hst, hz, hn]) (by simp [hz])
    (by simp [hz])) rfl rfl rfl rfl (by simp) m1.wakes
  rw [wp_bind, wp_modifyProc hp, wp_pure]
  exact hQ _ _ m2 (fun hf => (hF hf).writeDead hp (by rw [hz]; rfl) rfl rfl rfl rfl rfl rfl) hp1 hz

/-- A parent that waits for the zombie is woken. -/
theorem Mid.wp_killWakes {Q : Int → Kernel → Prop} (m : Mid K s₀ (insert p ∅) s c r) (hlin : Lineage s₀)
    (hp : s.heap p = some y) (hz : y.state = .zombie) (hparent : y.parent = some q) (hq : s.heap q = some x)
    (hw : x.state = .blockedWaitChild) (hprio : K.resched ∨ x.prio ≤ r.prio) (hF : F → Family s)
    (hQ : ∀ t z, Mid K s₀ ∅ t c r → (F → Family t) → t.heap p = some z → z.state = .zombie → Q 0 t) :
    wp (modifyProc q fun r => { r with state := .activatable }) (fun _ t => wp (queueAdd q .activatable Process.prioField)
      (fun _ t => wp (pure 0) (fun v t => wp (if v < 0 then pure (-1) else do
        modifyProc p fun r => { r with returnValue := 0 }
        pure 0) Q K.Allows t) K.Allows t) K.Allows t) K.Allows s := by
  have hcp : c ≠ p := fun h => m.mine (by simp [h])
  obtain ⟨-, hst⟩ := m.inv.unlinked hp (by simp)
  have hqp : q ≠ p := by
    rintro rfl
    rw [hp] at hq
    cases hq
    rw [hz] at hw
    cases hw
  have hqs := (m.chain.lineage hlin p _ hp hst q hparent).2 x hq
  have hqn : x.nextPrev = none := by
    have := m.inv.fits q x hq (by simp [hqp])
    simpa [Process.Fits, hqs, hw] using this
  have hqd : x.state.dead = false := by rw [hw]; rfl
  have hcq : c ≠ q := by
    rintro rfl
    rw [m.running.heap] at hq
    cases hq
    rw [m.running.state] at hw
    cases hw
  have m1 := m.step (.hold hq hqs hqn (by simp [hw])) rfl rfl rfl rfl (by simp [hcq, hcp]) m.wakes
  refine m1.wp_activate (by simp [hqp]) hq hqd hprio rfl rfl rfl rfl rfl ⟨rfl, rfl, rfl, rfl, hqd.symm, .inl rfl⟩ rfl ?_
  rintro v m2 rfl
  rw [wp_pure, if_neg (by decide)]
  refine m2.wp_killFinish (x := y) (by simp [hqp.symm, hp]) hz (fun hf => ?_) hQ
  exact ((hF hf).alike (.map (f := fun r => { r with state := .activatable }) hq
    ⟨rfl, rfl, rfl, rfl, rfl, hqd.symm, fun _ => .inl rfl, fun h => by cases h⟩ rfl rfl)).alike
    (.map (f := fun r => { r with nextPrev := some .activatable, stamp := s.insertions })
      (by simp [hq]; rfl) ⟨rfl, rfl, rfl, rfl, rfl, rfl, fun _ => .inl rfl, .inl⟩ rfl rfl)

theorem Mid.wp_killOther {Q : Int → Kernel → Prop} {pid : Int} (m : Mid K s₀ ∅ s c r) (ht : K.family)
    (hlin : Lineage s₀) (hp : s.heap p = some x) (hpid : s.pidProcessHashTable pid = some p) (hpc : p ≠ c)
    (hd : x.state.dead = false) (hu : s.pidProcessHashTable idleId ≠ some p)
    (hsem : x.state = .blockedSemaphore → s.AtEnd x.semaphoreId p)
    (hA : K.assert ∨ x.started = true ∧ x.state ≠ .blockedWaitChild ∧ (x.state = .blockedQueue → x.nextPrev ≠ none))
    (hpass : x.started = true → Passing K F s p x cs)
    (hpar : K.usesFreed ∨ x.parent ≠ none)
    (hwake : ∀ q z, x.parent = some q → s.heap q = some z → z.state = .blockedWaitChild →
      K.resched ∨ z.prio ≤ r.prio)
    (ha : K.kills p) (hQ : ∀ t z, Mid K s₀ ∅ t c r → (F → Family t) → t.heap p = some z → z.state = .zombie → Q 0 t) :
    wp (killOther p pid) Q K.Allows s := by
  rw [killOther, wp_bind]
  refine m.wp_leaveQueue hp hpc hd hsem hA fun t y m1 hleft => ?_
  have hp1 : t.heap p = some y := by rw [hleft.heap, Function.update_self]
  obtain ⟨hn, hst⟩ := m1.inv.unlinked hp1 (by simp)
  -- a record that was never started does not get here
  have hF := hpass (hleft.alike.started.symm.trans hst)
  rw [if_neg (by decide), wp_bind]
  simp only [turnCurrentProcessIntoAZombieOrKillIt, wp_bind, wp_getpid, wp_getProcessStructOfPid,
    Bool.false_eq_true, if_false, hleft.table, hpid]
  have hF1 := hleft.passing hp hF
  refine wp_mono (m1.wp_makeChildren ht (fun q hq z hz => ?_) hp1 hF1) ?_ (fun _ _ h => h)
  · obtain rfl : q = p := by simpa using hq
    rw [hp1] at hz
    cases hz
    intro hc
    have := hleft.alive
    rw [hc] at this
    cases this
  rintro _ u - ⟨rfl, m2, hs, hheap⟩
  have hp2 : u.heap p = some y := hs.kept p y hp1 fun hc => by
    have := hleft.alive
    rw [hc] at this
    cases this
  have hidle : u.pidProcessHashTable idleId ≠ some p := by
    intro hi
    obtain ⟨z, hz, hzp⟩ := m2.inv.table _ _ hi
    rw [hp2] at hz
    cases hz
    rw [hleft.pid] at hzp
    exact hu (hzp ▸ m.inv.pidOf p x hp)
  have m3 : Mid K s₀ (insert p ∅) (u.mapProc p fun r => { r with state := .zombie }) c r :=
    m2.step (.set (by simp) hp2 rfl rfl rfl rfl (fun _ => rfl) (.inl ⟨ht, fun _ => rfl⟩) (.inl ht) (fun _ => rfl)
      (fun hi => absurd hi hidle) ⟨.inr (.inr ⟨rfl, rfl, ha⟩), fun h => by cases h⟩) (by simp [hpc.symm]) rfl rfl rfl m2.mine (m2.wakes.mapProc fun _ _ => ⟨rfl, rfl⟩)
  have hp3 : (u.mapProc p fun r => { r with state := .zombie }).heap p = some { y with state := .zombie } := by
    simp [hp2]
  have hfam := hF1.die m1.inv hp1 hst hleft.alive hp2 hheap hs.next
  rw [if_neg (by decide)]
  simp only [wp_bind]
  rw [wp_modifyProc hp2, wp_deref hp3]
  -- the record is freed although it is written afterwards
  have freed : K.usesFreed → wp (freeChildZombieProcess p) (fun a t => wp (if a < 0 then pure (-1) else do
      modifyProc p fun r => { r with returnValue := 0 }
      pure 0) Q K.Allows t) K.Allows (u.mapProc p fun r => { r with state := .zombie }) := by
    intro hw
    refine wp_freeChildZombie hp3 rfl (m3.pid_ne_of_zombie hp3 rfl) ?_
    rw [if_neg (by decide), wp_bind]
    refine wp_modifyProc_any hw fun z hz => ?_
    simp [Kernel.freeRecord] at hz
  cases hparent : y.parent with
  | none => exact freed (hpar.resolve_right fun h => h (hleft.alike.parent.symm.trans hparent))
  | some q =>
    have hchild : (u.mapProc p fun r => { r with state := .zombie }).ChildOf p q := ⟨_, hp3, hst, hparent⟩
    have hlive : K.usesFreed ∨ ∃ z, (u.mapProc p fun r => { r with state := .zombie }).heap q = some z := by
      refine hF.safe.imp id fun h => ?_
      obtain ⟨z, hz, _⟩ := (hfam h.1).parents p q hchild
      exact ⟨z, hz⟩
    simp only [wp_bind]
    refine wp_deref_or hlive fun z hz => ?_
    by_cases hzz : z.state = .zombie
    · rw [if_pos hzz]
      refine freed (hF.safe.resolve_right fun h => ?_)
      obtain ⟨z', hz', _, hzd⟩ := (hfam h.1).parents p q hchild
      rw [hz] at hz'
      cases hz'
      rw [hzz] at hzd
      cases hzd
    · rw [if_neg hzz]
      by_cases hzw : z.state = .blockedWaitChild
      · have hzorig : s.heap q = some z := by
          have hqp : q ≠ p := by
            rintro rfl
            rw [hp3] at hz
            cases hz
            exact hzz rfl
          have h1 : u.heap q = some z := by simpa [hqp] using hz
          have h2 := hs.back q z h1
          rw [hleft.heap] at h2
          simpa [hqp] using h2
        simp only [if_pos hzw, wp_bind]
        exact m3.wp_killWakes hlin hp3 rfl hparent hz hzw
          (hwake q z (hleft.alike.parent.symm.trans hparent) hzorig hzw) hfam hQ
      · rw [if_neg hzw, wp_pure, if_neg (by decide)]
        exact m3.wp_killFinish hp3 rfl hfam hQ

/-- What `kill` of the process at `p`, with the record `x`, by the process with the
record `r` needs. -/
structure Kind.Kills (K : Kind) (F : Prop) (s : Kernel) (r : Process) (p : Ptr) (x : Process) : Prop where
  ends : x.state = .blockedSemaphore → s.AtEnd x.semaphoreId p
  linked : K.assert ∨ x.started = true ∧ x.state ≠ .blockedWaitChild ∧ (x.state = .blockedQueue → x.nextPrev ≠ none)
  parent : K.usesFreed ∨ x.parent ≠ none
  waiting : ∀ q z, x.parent = some q → s.heap q = some z → z.state = .blockedWaitChild →
    K.rash ∨ z.prio ≤ r.prio
  passing : x.started = true → ∃ cs, Passing K F s p x cs
  allowed : K.kills p

theorem Mid.wp_answerFamily (m : Mid K.quiet s₀ ∅ s c r) (hl : K.resched) (hF : F → Family s) (v : Int)
    (w : List Int) : wp (answer v w) (fun _ t => Done K s₀ t ∧ (F → Family t)) K.Allows s := by
  have family : wp (answer v w) (fun _ t => F → Family t) (fun _ => True) s := by
    simp only [answer, saveContext, wp_bind, wp_getCurrentProcess, m.running.table, wp_modifyProc m.running.heap]
    intro hf
    exact (hF hf).alike (.map m.running.heap
      ⟨rfl, rfl, rfl, rfl, rfl, rfl, fun _ => .inr rfl, .inl⟩ rfl rfl)
  exact wp_and (m.wp_answer hl v w) family

/-- `kill`, its result given to the running process. -/
theorem kill_done (m : Mid K.quiet s₀ ∅ s c r) (hl : K.resched) (ht : K.family)
    (hu : s.pidProcessHashTable idleId ≠ some c) (hlin : Lineage s₀) (hfam : F → Family s) (pid : Int)
    (hself : ¬ (pid = idleId ∨ pid = kernelId) → s.pidProcessHashTable pid = some c → ∃ cs, Passing K F s c r cs)
    (hother : ¬ (pid = idleId ∨ pid = kernelId) → ∀ p x, s.pidProcessHashTable pid = some p → s.heap p = some x →
      p ≠ c → x.state.dead = false → K.Kills F s r p x) :
    wp (kill pid) (fun _ t => Done K s₀ t ∧ (F → Family t)) K.Allows s := by
  unfold kill killWith
  by_cases hreserved : pid = idleId ∨ pid = kernelId
  · rw [if_pos hreserved]
    exact m.wp_answerFamily hl hfam _ _
  rw [if_neg hreserved, wp_bind, wp_getProcessStructOfPid]
  cases hpid : s.pidProcessHashTable pid with
  | none => exact m.wp_answerFamily hl hfam _ _
  | some p =>
    obtain ⟨x, hp, hxpid⟩ := m.inv.table pid p hpid
    simp only [wp_bind, wp_validate hp]
    by_cases hdead : x.state.dead = true
    · simp only [hdead, if_true, show ((-1 : Int) < 0) by decide]
      exact m.wp_answerFamily hl hfam _ _
    simp only [hdead, Bool.false_eq_true, if_false, show ¬ ((0 : Int) < 0) by decide, wp_bind, wp_deref hp, wp_getpid]
    by_cases hpc : p = c
    · subst hpc
      obtain rfl : r = x := Option.some.inj (m.running.heap.symm.trans hp)
      rw [if_pos (m.running.caller.pid m.inv.toCore)]
      obtain ⟨cs, hF⟩ := hself hreserved hpid
      exact exitProcess_done (m.resched hl) hl ht hu hlin hF 0
    · have hne : x.pid ≠ s.currentRunningProcessPid := fun he => hpc
        (m.inv.pid_inj hp m.running.heap (he.trans (m.running.caller.pid m.inv.toCore).symm))
      have hK := hother hreserved p x hpid hp hpc (by simpa using hdead)
      obtain ⟨cs, hF⟩ := exists_list_of_imp hK.passing
      have hidle : s.pidProcessHashTable idleId ≠ some p := by
        intro hi
        obtain ⟨z, hz, hzp⟩ := m.inv.table _ _ hi
        rw [hp] at hz
        cases hz
        exact hreserved (.inl (hxpid.symm.trans hzp))
      simp only [if_neg hne, wp_bind]
      exact m.wp_killOther (F := F) ht hlin hp hpid hpc (by simpa using hdead) hidle hK.ends hK.linked
        (fun hst => ⟨(hF hst).family, (hF hst).children, (hF hst).dead, (hF hst).safe⟩) hK.parent hK.waiting
        hK.allowed (fun t _ m1 hfam1 _ _ => m1.wp_answerFamily hl hfam1 _ _)

/-- A page fault ends the running process. -/
theorem pageFault_done (m : Mid K s₀ ∅ s c r) (hl : K.resched) (ht : K.family)
    (hu : s.pidProcessHashTable idleId ≠ some c) (hlin : Lineage s₀) (hF : Passing K F s c r cs) :
    wp pageFault (fun _ t => Done K s₀ t ∧ (F → Family t)) K.Allows s := by
  have hpid := m.running.caller.pid m.inv.toCore
  have hreserved : ¬ (s.currentRunningProcessPid = idleId ∨ s.currentRunningProcessPid = kernelId) := by
    rintro (h | h)
    · exact hu (h ▸ m.running.table)
    · have := (m.inv.pool.used c r m.running.heap).1
      rw [hpid, h] at this
      cases this
  simp only [pageFault, wp_bind, wp_getpid, killWith, if_neg hreserved, wp_getProcessStructOfPid,
    m.running.table, wp_validate m.running.heap, m.running.state, ProcessState.dead, Bool.false_eq_true, if_false,
    show ¬ ((0 : Int) < 0) by decide, wp_deref m.running.heap, if_pos hpid]
  exact exitProcess_done m hl ht hu hlin hF 0

end kill

end Xinul
