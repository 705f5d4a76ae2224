import Xinul.Runs.Base

/-!
# Parents, children and freed records over whole runs

`make_children_orphans_and_kill_zombies` frees the zombie children and leaves the
living ones with a pointer to their ended parent, and the parent's own list with
pointers to what was freed. The runs here are those in which a process that ends has
no living child; for records not to be used after they were freed, its zombie
children must have had no children either, and `kill` must not free its target.
-/

namespace Xinul

open Prog Machine

section passing

variable {K : Kind} {s t : Kernel} {p : Ptr} {x : Process} {e : Event}

theorem Kernel.NoHeirs.noLivingChild (h : s.NoHeirs p) : s.NoLivingChild p :=
  fun c y hy hst hpar => (h c y hy hst hpar).1

theorem Family.passing (h : Family s) (hp : s.heap p = some x) (hst : x.started = true)
    (hd : x.state.dead = false) (hn : s.NoLivingChild p) (hw : K.usesFreed ∨ s.NoHeirs p) :
    ∃ cs, Passing K True s p x cs := by
  obtain ⟨cs, hcs⟩ := h.children p x hp hst hd
  exact ⟨cs, fun _ => h, fun _ => hcs, fun _ => hn, hw.imp id fun h => ⟨trivial, h⟩⟩

/-- `kill` names the process it ends. -/
theorem Event.victim_of_target (h : e.target s = some p) : e.victim s = some p := by
  unfold Event.target at h
  split at h
  · exact h
  · cases h

/-- A process without children may end. -/
theorem Family.noChild (h : Family s) (hp : s.heap p = some x) (hst : x.started = true) (hd : x.state.dead = false)
    (hhead : x.childrenHead = none) {c : Ptr} {y : Process} (hy : s.heap c = some y) (hys : y.started = true) :
    y.parent ≠ some p := by
  intro hpar
  obtain ⟨cs, hcs⟩ := h.children p x hp hst hd
  have hnil : cs.head? = none := hcs.chain.head.symm.trans hhead
  rw [List.head?_eq_none_iff] at hnil
  subst hnil
  exact absurd ((hcs.mem c).2 ⟨y, hy, hys, hpar⟩) (by simp)

theorem Family.noHeirs (h : Family s) (hp : s.heap p = some x) (hst : x.started = true) (hd : x.state.dead = false)
    (hhead : x.childrenHead = none) : s.NoHeirs p := fun _ _ hy hys hpar => absurd hpar (h.noChild hp hst hd hhead hy hys)

/-- The event kills nobody, and ends at most a process without children. -/
def Event.endsChildless (s : Kernel) (e : Event) : Bool :=
  (e.target s).isNone && match e.victim s with
    | some p => (s.heap p).map (fun r => (r.started, r.childrenHead)) = some (true, none)
    | none => true

theorem Event.endsChildless.noHeirs (h : e.endsChildless s = true) (hfam : Family s) (hv : e.victim s = some p)
    (hp : s.heap p = some x) (hd : x.state.dead = false) : s.NoHeirs p := by
  simp only [Event.endsChildless, hv, hp, Option.map_some, Bool.and_eq_true, decide_eq_true_eq, Option.some.injEq,
    Prod.mk.injEq] at h
  exact hfam.noHeirs hp h.2.1 hd h.2.2

theorem Event.endsChildless.target (h : e.endsChildless s = true) : e.target s = none := by
  simp only [Event.endsChildless, Bool.and_eq_true, Option.isNone_iff_eq_none] at h
  exact h.1

end passing

/-! ## No record is used after it was freed -/

/-- A process that ends leaves only zombies behind that have no children, and `kill` of
another process finds the parent that will free it. -/
structure CleanEnd (s : Kernel) (e : Event) : Prop where
  ends : KillsAtEnd s e
  heirs : ∀ p x, e.victim s = some p → s.heap p = some x → x.state.dead = false → s.NoHeirs p
  parent : ∀ p x, e.target s = some p → s.heap p = some x → x.state.dead = false →
    x.pid ≠ s.currentRunningProcessPid → x.parent ≠ none

section freed

variable {s t : Kernel} {p : Ptr} {x : Process} {e : Event}

theorem CleanEnd.of_none (h : e.target s = none) (h' : e.victim s = none) : CleanEnd s e := by
  refine ⟨.of_none h, fun p x hp => ?_, fun p x hp => ?_⟩
  · rw [h'] at hp
    cases hp
  · rw [h] at hp
    cases hp

theorem CleanEnd.admits (h : CleanEnd s e) (hs : Ready s) (hfam : Family s) :
    ({ Kind.any with usesFreed := False } : Kind).Admits True s e where
  safe := .inr trivial
  ends c r hr hv := hfam.passing hr.heap hr.started hr.alive (h.heirs c r hv hr.heap hr.alive).noLivingChild
    (.inr (h.heirs c r hv hr.heap hr.alive))
  kills p x c r hr hp hx hpc hd := by
    have hne : x.pid ≠ s.currentRunningProcessPid := fun he =>
      hpc (hs.inv.pid_inj hx hr.heap (he.trans (hr.caller.pid hs.inv.toCore).symm))
    have hheirs := h.heirs p x (Event.victim_of_target hp) hx hd
    exact ⟨h.ends p x hp hx, .inl trivial, .inr (h.parent p x hp hx hd hne), fun _ _ _ _ _ => .inl trivial,
      fun hst => hfam.passing hx hst hd hheirs.noLivingChild (.inr hheirs), trivial⟩

theorem CleanEnd.step (hs : Ready s ∧ Family s) (h : CleanEnd s e) (hst : Step s e t) : Ready t ∧ Family t := by
  have ho := hst.outcome hs.1 (h.admits hs.1 hs.2) (fun _ => hs.2) (G := False) False.elim
  exact ⟨ho.ready hs.1, ho.family trivial⟩

theorem CleanEnd.reached (h : Reached CleanEnd s) : Ready s ∧ Family s :=
  h.invariant (I := fun s => Ready s ∧ Family s) (fun _ h => ⟨h.ready, h.family⟩)
    fun _ _ _ hs hc hst => hc.step hs hst

theorem CleanEnd.of_childless (hfam : Family s) (h : e.endsChildless s = true) : CleanEnd s e := by
  refine ⟨.of_none (Event.endsChildless.target h), fun p x hp hx hd => Event.endsChildless.noHeirs h hfam hp hx hd,
    fun p x hp => ?_⟩
  rw [Event.endsChildless.target h] at hp
  cases hp

/-- The record at `p` was freed. -/
def Freed (s : Kernel) (p : Ptr) : Prop := p < s.nextPtr ∧ s.heap p = none

theorem Freed.map {f : Process → Process} {q : Ptr} (h : Freed s p) : Freed (s.mapProc q f) p := by
  refine ⟨h.1, ?_⟩
  by_cases hq : p = q
  · subst hq
    simp [h.2]
  · simp [hq, h.2]

theorem Act.freed {K : Kind} {H H' : Set Ptr} (a : Act K H s H' t) (h : Freed s p) : Freed t p := by
  cases a with
  | write => exact h.map
  | set => exact h.map
  | link => exact h.map
  | unlink => exact h.map
  | reprio => exact h.map
  | free =>
    refine ⟨h.1, ?_⟩
    simp only [Kernel.freeRecord, Function.update_apply]
    split
    · rfl
    · exact h.2
  | alloc =>
    refine ⟨Nat.lt_succ_of_lt h.1, ?_⟩
    have hne : p ≠ s.nextPtr := Nat.ne_of_lt h.1
    simp [hne, h.2]
  | birth => exact h.map
  | block => exact Freed.map (s := s) h
  | other same => exact ⟨same.nextPtr ▸ h.1, by rw [same.heap, h.2]⟩
  | _ => exact h

end freed

/-- In every run in which processes end cleanly, a record is freed at most once and not
used afterwards, and pids are not given twice. -/
theorem records_freed_once {s : Kernel} (hs : Reached CleanEnd s) :
    (∀ e, CleanEnd s e → e.enabled s = true → ∀ p, step e s ≠ .error (.useAfterFree p)) ∧
    (∀ t p, Path Step CleanEnd s t → p < s.nextPtr → s.heap p = none → t.heap p = none) ∧
    (∀ k p, s.pidProcessHashTable k = some p → ∃ r, s.heap p = some r ∧ r.pid = k) ∧
    (∀ p q r x, s.heap p = some r → s.heap q = some x → r.pid = x.pid → p = q) ∧
    s.processIdList.Nodup ∧
    ∀ k ∈ s.processIdList, s.pidProcessHashTable k = none ∧ ∀ p r, s.heap p = some r → r.pid ≠ k := by
  obtain ⟨hready, hfam⟩ := CleanEnd.reached hs
  refine ⟨fun e hc he p hf => ?_, fun t p path hlt hnone => ?_, hready.inv.table, fun p q r x hp hq => ?_,
    hready.inv.pool.nodup, fun k hk => ?_⟩
  · exact wp_error (step_outcome hready he (hc.admits hready hfam) (fun _ => hfam) (G := False) False.elim) hf
  · have both : (Ready t ∧ Family t) ∧ Freed t p := by
      induction path with
      | refl => exact ⟨⟨hready, hfam⟩, hlt, hnone⟩
      | step _ hc hst ih =>
        have ho := hst.outcome ih.1.1 (hc.admits ih.1.1 ih.1.2) (fun _ => ih.1.2) (G := False) False.elim
        exact ⟨⟨ho.ready ih.1.1, ho.family trivial⟩,
          ho.after.chain.induct (P := fun _ u => Freed u p) ih.2 fun _ _ _ _ _ h a => a.freed h⟩
    exact both.2.2
  · exact hready.inv.pid_inj hp hq
  · obtain ⟨_, _, hfree⟩ := hready.inv.pool.free k hk
    refine ⟨hfree, fun p r hp hpid => ?_⟩
    have := hready.inv.pidOf p r hp
    rw [hpid, hfree] at this
    cases this

/-- A child exits and its parent waits for it: its record is freed, and its pid is free to be
given again. -/
theorem records_freed_once_start : ∃ s, Reached CleanEnd s ∧ s.heap 2 = none ∧ 2 < s.nextPtr ∧ 3 ∈ s.processIdList ∧
    (∀ e, CleanEnd s e → e.enabled s = true → ∀ p, step e s ≠ .error (.useAfterFree p)) ∧
    (∀ t, Path Step CleanEnd s t → t.heap 2 = none) ∧
    (∀ p q r x, s.heap p = some r → s.heap q = some x → r.pid = x.pid → p = q) ∧ s.processIdList.Nodup ∧
    s.pidProcessHashTable 3 = none := by
  have hrun : ((runChecked (fun s e => e.endsChildless s) (fun _ _ n => n) boot () [.timer, startShell 3,
      .syscall (.exit 7), .resume, .syscall (.waitpid (-1) true)]).map (·.1)).bind (fun s => some ((s.heap 2).isNone,
        decide (2 < s.nextPtr), decide (3 ∈ s.processIdList))) = some (true, true, true) := by decide +kernel
  obtain ⟨s, hs, hval⟩ := reached_of_runChecked (C := CleanEnd)
    (fun u e _ hu hok => .of_childless (CleanEnd.reached hu).2 hok) hrun
  simp only [Option.some.injEq, Prod.mk.injEq, Option.isNone_iff_eq_none, decide_eq_true_eq] at hval
  obtain ⟨hnone, hlt, hmem⟩ := hval
  obtain ⟨h1, h2, -, h4, h5, h6⟩ := records_freed_once hs
  exact ⟨s, hs, hnone, hlt, hmem, h1, fun t path => h2 t 2 path hlt hnone, h4, h5, (h6 3 hmem).1⟩

/-- The shell has no parent; its child kills it, and `kill` frees the record it then
writes to. -/
theorem record_used_after_free : ¬ ∀ s, Reached (fun _ _ => True) s → ∀ e, e.enabled s = true → ∀ p,
    step e s ≠ .error (.useAfterFree p) := by
  have hrun : (run boot [.timer, startShell 3]).bind (faultOf (.syscall (.kill 2))) = some (.useAfterFree 1) := by
    decide +kernel
  obtain ⟨s, hs, hf⟩ := reached_of_run (C := fun _ _ => True) (fun _ _ _ => trivial) hrun
  obtain ⟨he, hf⟩ := faultOf_faults hf
  exact fun h => h s hs _ he 1 hf

/-! ## No process outlives its parent -/

/-- A process that ends has no living child, and `start_virtual` does not fail too
late. -/
structure NoneLeft (s : Kernel) (e : Event) : Prop where
  ends : KillsAtEnd s e
  heirs : ∀ p x, e.victim s = some p → s.heap p = some x → x.state.dead = false → s.NoLivingChild p
  born : ¬ e.Stillborn s

section orphans

variable {s t : Kernel} {e : Event}

theorem NoneLeft.of_none (h : e.target s = none) (h' : e.victim s = none) (hb : ¬ e.Stillborn s) : NoneLeft s e := by
  refine ⟨.of_none h, fun p x hp => ?_, hb⟩
  rw [h'] at hp
  cases hp

theorem NoneLeft.of_childless (hfam : Family s) (h : e.endsChildless s = true) (hb : ¬ e.Stillborn s) : NoneLeft s e :=
  ⟨.of_none (Event.endsChildless.target h),
    fun _ _ hp hx hd => (Event.endsChildless.noHeirs h hfam hp hx hd).noLivingChild, hb⟩

theorem NoneLeft.admits (h : NoneLeft s e) (hfam : Family s) : Kind.any.Admits True s e where
  ends c r hr hv := hfam.passing hr.heap hr.started hr.alive (h.heirs c r hv hr.heap hr.alive) (.inl trivial)
  kills p x _ _ _ hp hx _ hd := ⟨h.ends p x hp hx, .inl trivial, .inl trivial, fun _ _ _ _ _ => .inl trivial,
    fun hst => hfam.passing hx hst hd (h.heirs p x (Event.victim_of_target hp) hx hd) (.inl trivial), trivial⟩

theorem NoneLeft.reached (h : Reached NoneLeft s) : Ready s ∧ Family s ∧ AllStarted s := by
  refine h.invariant (I := fun s => Ready s ∧ Family s ∧ AllStarted s)
    (fun _ h => ⟨h.ready, h.family, h.allStarted⟩) fun s e t hs hc hst => ?_
  have ho := hst.outcome hs.1 (hc.admits hs.2.1) (fun _ => hs.2.1) (G := True) fun _ => ⟨hs.2.2, hc.born⟩
  exact ⟨ho.ready hs.1, ho.family trivial, ho.started trivial⟩

end orphans

/-- In every run in which no process that ends has a living child, a parent pointer is
null or leads to a process in the table that has not ended. -/
theorem parents_in_table {s : Kernel} (hs : Reached NoneLeft s) {p : Ptr} {r : Process}
    (hp : s.heap p = some r) :
    r.parent = none ∨ ∃ q x, r.parent = some q ∧ s.heap q = some x ∧ s.pidProcessHashTable x.pid = some q ∧
      x.state ≠ .zombie ∧ x.state ≠ .killed := by
  obtain ⟨hready, hfam, hst⟩ := NoneLeft.reached hs
  cases hpar : r.parent with
  | none => exact .inl rfl
  | some q =>
    obtain ⟨x, hx, _, hd⟩ := hfam.parents p q ⟨r, hp, hst p r hp, hpar⟩
    refine .inr ⟨q, x, rfl, hx, hready.inv.pidOf q x hx, ?_, ?_⟩
    · rintro h
      rw [h] at hd
      cases hd
    · rintro h
      rw [h] at hd
      cases hd

/-- A child exits, and is a zombie while its parent lives. -/
theorem parents_in_table_start : ∃ s r, Reached NoneLeft s ∧ s.heap 2 = some r ∧ r.state = .zombie ∧ r.parent = some 1 ∧
    (r.parent = none ∨ ∃ q x, r.parent = some q ∧ s.heap q = some x ∧ s.pidProcessHashTable x.pid = some q ∧
      x.state ≠ .zombie ∧ x.state ≠ .killed) := by
  have hrun : ((runChecked (fun s e => e.endsChildless s) (fun _ _ n => n) boot () [.timer, startShell 3,
      .syscall (.exit 7)]).map (·.1)).bind (fun s => (s.heap 2).map fun r => (r.state, r.parent)) =
      some (.zombie, some 1) := by decide +kernel
  have hcond : ∀ u, ∀ e ∈ [.timer, startShell 3, .syscall (.exit 7)], Reached NoneLeft u → e.endsChildless u = true →
      NoneLeft u e := by
    intro u e he hu hok
    refine .of_childless (NoneLeft.reached hu).2.1 hok ?_
    simp only [List.mem_cons, List.not_mem_nil, or_false] at he
    rcases he with rfl | rfl | rfl
    · exact id
    · exact fun h => absurd h.2.2.2.2.2 (by decide)
    · exact id
  obtain ⟨s, hs, hval⟩ := reached_of_runChecked hcond hrun
  obtain ⟨r, hr, hval⟩ := Option.map_eq_some_iff.1 hval
  obtain ⟨hstate, hpar⟩ := Prod.mk.inj hval
  exact ⟨s, r, hs, hr, hstate, hpar, parents_in_table hs hr⟩

/-- The shell exits while its child lives; at the next tick it is freed. -/
theorem parent_left_dangling : ¬ ∀ s, Reached (fun _ _ => True) s → ∀ p r, s.heap p = some r →
    (r.parent = none ∨ ∃ q x, r.parent = some q ∧ s.heap q = some x ∧ s.pidProcessHashTable x.pid = some q) ∧
    (r.state = .zombie → ∀ q x, r.parent = some q → s.heap q = some x →
      x.state ≠ .zombie ∧ x.state ≠ .killed) := by
  have hrun : (run boot [.timer, startShell 1, .syscall (.exit 0), .timer]).bind (fun s => some
      ((s.heap 2).map (·.parent), (s.heap 1).isNone)) = some (some (some 1), true) := by decide +kernel
  obtain ⟨s, hs, hval⟩ := reached_of_run (C := fun _ _ => True) (fun _ _ _ => trivial) hrun
  simp only [Option.some.injEq, Prod.mk.injEq] at hval
  obtain ⟨r, hr, hpar⟩ := Option.map_eq_some_iff.1 hval.1
  have hgone : s.heap 1 = none := Option.isNone_iff_eq_none.1 hval.2
  intro h
  rcases (h s hs 2 r hr).1 with hn | ⟨q, x, hq, hx, _⟩
  · rw [hpar] at hn
    cases hn
  · rw [hpar] at hq
    cases hq
    rw [hgone] at hx
    cases hx

end Xinul
