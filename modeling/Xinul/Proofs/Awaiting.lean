import Xinul.Proofs.Leaving
import Xinul.Proofs.Starting

/-!
# When `waitpid` waits

`waitpid` waits in two loops, one for any child and one for a given child. It begins to
wait only when no child it could answer for is a zombie.
-/

namespace Xinul

open Prog Linked

/-- The process at `q`, with the record `y`, is one that a `waitpid` of the process at `p`
could answer for when it goes on in the context `k`. -/
def Context.Awaits (k : Context) (p q : Ptr) (y : Process) : Prop :=
  (∃ v, k = .waitpidAny v) ∧ y.parent = some p ∨ ∃ b v, k = .waitpidChild q b v

/-- The context is one of the two loops of `waitpid`. -/
def Context.waiting : Context → Bool
  | .waitpidAny _ => true
  | .waitpidChild .. => true
  | _ => false

/-- Between `s` and `t` the process at `p` began to wait for a child, in the context `k`. -/
structure Blocks (s : Kernel) (p : Ptr) (k : Context) (t : Kernel) : Prop where
  others : ∀ q y, q ≠ p → t.heap q = some y → ∃ x, s.heap q = some x ∧ x.Uneventful y
  self : ∀ y, t.heap p = some y → y.context = k ∧ y.state ≠ .zombie ∧ ∃ x, s.heap p = some x ∧ y.parent = x.parent
  waiting : k.waiting = true
  unmet : ∀ q x, s.heap q = some x → k.Awaits p q x → x.state ≠ .zombie

section awaiting

variable {s t : Kernel} {c p q b : Ptr} {o : Option Ptr} {r x : Process} {k : Context} {cs : List Ptr}
  {found : Process → Bool}

/-- What the walk over the children `cs` finds. -/
structure Finds (s : Kernel) (found : Process → Bool) (cs : List Ptr) (o : Option (Ptr × Ptr)) : Prop where
  none : o = none → ∀ q ∈ cs, ∀ x, s.heap q = some x → found x = false
  some : ∀ q b, o = some (q, b) → ∃ l l' x, cs = l ++ q :: l' ∧ s.heap q = some x ∧ found x = true ∧
    ∀ a ∈ l, ∀ y, s.heap a = some y → found y = false

theorem finds_findChild (n : Nat) (hseg : Seg s.sibling o cs none) :
    wp (findChild found n o b) (fun v t => t = s ∧ Finds s found cs v) (fun _ => True) s := by
  induction n generalizing o b cs with
  | zero => trivial
  | succ n ih =>
    cases o with
    | none =>
      obtain rfl : cs = [] := hseg.unique (rfl : Seg s.sibling none [] none)
      exact ⟨rfl, fun _ q hq => absurd hq (by simp), fun q b hq => by cases hq⟩
    | some q =>
      cases cs with
      | nil => cases hseg
      | cons q' cs =>
        obtain ⟨he, hrest⟩ := hseg
        cases he
        rw [findChild, wp_bind]
        refine wp_deref_any trivial fun x hx => ?_
        by_cases hfound : found x = true
        · rw [if_pos hfound]
          refine ⟨rfl, (fun h => by cases h), fun a b h => ?_⟩
          cases h
          exact ⟨[], cs, x, rfl, hx, hfound, by simp⟩
        · rw [if_neg hfound]
          have hsib : s.sibling q = x.nextSibling := by simp [Kernel.sibling, hx]
          rw [hsib] at hrest
          refine wp_mono (ih (b := q) hrest) (fun v t _ h => ⟨h.1, ?_⟩) (fun _ _ h => h)
          have head : ∀ y, s.heap q = some y → found y = false := by
            intro y hy
            rw [hx] at hy
            cases hy
            simpa using hfound
          constructor
          · intro hn a ha
            rcases List.mem_cons.1 ha with rfl | ha
            · exact head
            · exact h.2.none hn a ha
          · intro a b' hs
            obtain ⟨l, l', y, rfl, hy, hfy, hl⟩ := h.2.some a b' hs
            refine ⟨q :: l, l', y, rfl, hy, hfy, fun a' ha' => ?_⟩
            rcases List.mem_cons.1 ha' with rfl | ha'
            · exact head
            · exact hl a' ha'

theorem finds_findCurrentChild (hr : Running s c r) (hcs : Children s c r cs) :
    wp (findCurrentChild found) (fun v t => t = s ∧ Finds s found cs v) (fun _ => True) s := by
  simp only [findCurrentChild, wp_bind, wp_getCurrentProcess, hr.table, wp_derefOpt hr.heap]
  have hchain := hcs.chain
  cases hh : r.childrenHead with
  | none =>
    rw [hh] at hchain
    obtain rfl : cs = [] := hchain.unique (rfl : Seg s.sibling none [] none)
    exact ⟨rfl, fun _ q hq => absurd hq (by simp), fun q b hq => by cases hq⟩
  | some head =>
    simp only [wp_bind, wp_get]
    rw [hh] at hchain
    exact finds_findChild _ hchain

theorem wp_waitForChild_blocks (hr : Running s c r) (hk : k.waiting = true)
    (unmet : ∀ q x, s.heap q = some x → k.Awaits c q x → x.state ≠ .zombie) :
    wp (waitForChild k) (fun _ t => Blocks s c k t) (fun _ => True) s := by
  simp only [waitForChild, schedule, saveContext, wp_bind, wp_getCurrentProcess, hr.table, wp_modifyProc hr.heap,
    mapProc_table, mapProc_running]
  have hrec : (s.mapProc c fun r => { r with state := .blockedWaitChild }).heap c =
      some { r with state := .blockedWaitChild } := by simp [hr.heap]
  rw [wp_modifyProc hrec]
  refine wp_mono (wp_and ((along_scheduler (R := Process.Uneventful) .of_ignores).run _) ((along_scheduler .sameContext).run _)) ?_ (fun _ _ h => h)
  intro _ t _ ht
  refine ⟨fun q y hq hy => ?_, fun y hy => ?_, hk, unmet⟩
  · obtain ⟨x, hx, hxy⟩ := ht.1 q y hy
    simp only [mapProc_heap, Function.update_of_ne hq] at hx
    exact ⟨x, hx, hxy⟩
  · obtain ⟨x, hx, hxy⟩ := ht.1 c y hy
    obtain ⟨x', hx', hctx⟩ := ht.2 c y hy
    simp only [mapProc_heap, Function.update_self, hr.heap, Option.map_some, Option.some.injEq] at hx hx'
    subst hx hx'
    refine ⟨hctx.symm, fun hz => ?_, r, hr.heap, hxy.parent⟩
    have := hxy.zombie hz
    cases this

theorem wp_waitpidAny_moves (hr : Running s c r) (hcs : Children s c r cs) (hall : AllStarted s) (v : Bool) :
    wp (waitpidAny v) (fun _ t => Unmoved s t ∨ ∃ k, Blocks s c k t) (fun _ => True) s := by
  rw [waitpidAny, wp_bind]
  refine wp_mono (finds_findCurrentChild hr hcs) (fun o t _ h => ?_) (fun _ _ h => h)
  obtain ⟨rfl, hfinds⟩ := h
  cases o with
  | none =>
    refine wp_mono (wp_waitForChild_blocks hr rfl fun q x hx haw => ?_) (fun _ _ _ h => .inr ⟨_, h⟩) (fun _ _ h => h)
    obtain ⟨-, hpar⟩ | ⟨_, _, hc⟩ := haw
    · have hq : q ∈ cs := (hcs.mem q).2 ⟨x, hx, hall q x hx, hpar⟩
      simpa using hfinds.none rfl q hq x hx
    · cases hc
  | some f => exact wp_mono ((unmoved_waitpidFinish _ _ _).run _) (fun _ _ _ h => .inl h) (fun _ _ h => h)

theorem wp_waitpidChild_moves (hr : Running s c r) (v : Bool) :
    wp (waitpidChild q b v) (fun _ t => Unmoved s t ∨ ∃ k, Blocks s c k t) (fun _ => True) s := by
  rw [waitpidChild, wp_bind]
  refine wp_deref_any trivial fun y hy => ?_
  by_cases hz : y.state = .zombie
  · rw [if_pos hz]
    exact wp_mono ((unmoved_waitpidFinish _ _ _).run _) (fun _ _ _ h => .inl h) (fun _ _ h => h)
  · rw [if_neg hz]
    refine wp_mono (wp_waitForChild_blocks hr rfl fun q' x hx haw => ?_) (fun _ _ _ h => .inr ⟨_, h⟩) (fun _ _ h => h)
    obtain ⟨⟨_, hc⟩, -⟩ | ⟨_, _, hc⟩ := haw
    · cases hc
    · cases hc
      rw [hy] at hx
      cases hx
      exact hz

theorem wp_waitpid_moves (hr : Running s c r) (hcs : Children s c r cs) (hall : AllStarted s) (pid : Int) (v : Bool) :
    wp (waitpid pid v) (fun _ t => Unmoved s t ∨ ∃ k, Blocks s c k t) (fun _ => True) s := by
  have refuse : wp (answer (-1) []) (fun _ t => Unmoved s t ∨ ∃ k, Blocks s c k t) (fun _ => True) s :=
    wp_mono (unmoved_answer (R := Process.Uneventful) _ _ s) (fun _ _ _ h => .inl h) (fun _ _ h => h)
  simp only [waitpid, wp_bind, wp_getCurrentProcess, hr.table, wp_derefOpt hr.heap]
  split
  · exact refuse
  · split
    · exact wp_waitpidAny_moves hr hcs hall v
    · rw [wp_bind]
      refine wp_mono (finds_findCurrentChild hr hcs) (fun o t _ h => ?_) (fun _ _ h => h)
      obtain ⟨rfl, -⟩ := h
      cases o with
      | none => exact refuse
      | some f => exact wp_waitpidChild_moves hr v

end awaiting

/-! ## A process is started -/

/-- Between `s` and `t` no process has ended or has begun to wait for a child, and neither has
a process that was started meanwhile. -/
def Starts (s t : Kernel) : Prop :=
  ∀ p y, t.heap p = some y → (∃ x, s.heap p = some x ∧ x.Uneventful y) ∨
    s.heap p = none ∧ (y.started = true → y.state ≠ .zombie ∧ y.state ≠ .blockedWaitChild)

section starting

variable {s t u : Kernel} {p : Ptr} {α : Type}

theorem Starts.of_heap (h : t.heap = s.heap) : Starts s t := fun _ y hy => .inl ⟨y, h ▸ hy, .refl y⟩

theorem Starts.next (h : Starts s t) (hu : Unmoved t u) : Starts s u := by
  intro p z hz
  obtain ⟨y, hy, hyz⟩ := hu p z hz
  rcases h p y hy with ⟨x, hx, hxy⟩ | ⟨hnone, hstate⟩
  · exact .inl ⟨x, hx, hxy.trans hyz⟩
  · refine .inr ⟨hnone, fun hst => ?_⟩
    obtain ⟨hz, hw⟩ := hstate (hyz.started.symm.trans hst)
    exact ⟨fun h => hz (hyz.zombie h), fun h => hw (hyz.waits h)⟩

/-- The new record is written. -/
theorem Starts.write {f : Process → Process} (h : Starts s t) (hp : s.heap p = none)
    (hf : ∀ r : Process, (f r).started = r.started ∧ (f r).state = r.state ∨
      (f r).state ≠ .zombie ∧ (f r).state ≠ .blockedWaitChild) : Starts s (t.mapProc p f) := by
  intro q z hz
  rcases heap_update_cases hz with ⟨rfl, hv⟩ | ⟨_, hz⟩
  · obtain ⟨y, hy, rfl⟩ := Option.map_eq_some_iff.1 hv
    refine .inr ⟨hp, fun hst => ?_⟩
    rcases hf y with ⟨hs, he⟩ | hstate
    · rw [he]
      rcases h q y hy with ⟨x, hx, -⟩ | ⟨-, hstate⟩
      · rw [hp] at hx
        cases hx
      · exact hstate (hs.symm.trans hst)
    · exact hstate
  · exact h q z hz

theorem Starts.respects {m : KernelM α} {Q : α → Kernel → Prop} (h : Starts s t) (hm : Respects Unmoved m)
    (hQ : ∀ a u, Starts s u → Q a u) : wp m Q (fun _ => True) t :=
  wp_mono (hm.run t) (fun a u _ hu => hQ a u (h.next hu)) (fun _ _ h => h)

theorem wp_attachToParent_starts {Q : Unit → Kernel → Prop} (h : Starts s t) (hp : s.heap p = none)
    (hQ : ∀ u, Starts s u → Q () u) : wp (attachToParent p) Q (fun _ => True) t := by
  rw [attachToParent, wp_bind, wp_getCurrentProcess]
  cases t.pidProcessHashTable t.currentRunningProcessPid with
  | none => exact wp_modifyProc_any trivial fun _ _ => hQ _ (h.write hp fun _ => .inl ⟨rfl, rfl⟩)
  | some parent =>
    simp only [wp_bind]
    refine wp_modifyProc_any trivial fun _ _ => ?_
    have h1 := h.write (f := fun r => { r with parent := some parent }) hp fun _ => .inl ⟨rfl, rfl⟩
    refine wp_deref_any trivial fun r _ => ?_
    split
    · exact h1.respects (.bind (unmoved_links fun _ => rfl) fun _ => unmoved_links fun _ => rfl) fun _ => hQ
    · exact h1.respects (unmoved_links fun _ => rfl) fun _ => hQ

theorem wp_startFinish_starts (h : Starts s t) (hp : s.heap p = none) (prio : Int) :
    wp (startFinish p prio) (fun _ u => Starts s u) (fun _ => True) t := by
  rw [startFinish, wp_bind]
  refine wp_attachToParent_starts h hp fun u hu => ?_
  rw [wp_bind]
  refine wp_modifyProc_any trivial fun _ _ => ?_
  apply (hu.write hp fun _ => .inr (by simp)).respects
  · exact .bind unmoved_queueAdd fun _ => .bind respects_getpid fun _ => .bind (unmoved_getprio _) fun running =>
      .ite unmoved_schedule (.bind (respects_deref p) fun _ => unmoved_answer _ _)
  · exact fun _ _ h => h

/-- A call of `start_virtual` is refused or makes a new record, which it fills in unless it fails too late. -/
theorem wp_startVirtual_cases {s₀ : Kernel} {c : Ptr} {r : Process} {Q : Unit → Kernel → Prop} (m : Mid .any s₀ ∅ s c r)
    (name : Option (List UInt8)) (ssize : Nat) (prio : Int) (env : StartEnv)
    (refuse : ∀ u : Kernel, u.heap = s.heap → wp (answer (-1) []) Q (fun _ => True) u)
    (born : ∀ (u : Kernel) x, s.heap s.nextPtr = none → u.heap = Function.update s.heap s.nextPtr (some x) → x.started = false →
      wp (startFinish s.nextPtr prio) Q (fun _ => True) u ∧ wp (answer (-1) []) Q (fun _ => True) u) :
    wp (startVirtual name ssize prio env) Q (fun _ => True) s := by
  rw [startVirtual.eq_def]
  cases name with
  | none => exact refuse s rfl
  | some name =>
    simp only [wp_bind, wp_get]
    by_cases hmany : s.nbProcRunning + 1 > maxNbProcess
    · rw [if_pos hmany]
      exact refuse s rfl
    rw [if_neg hmany]
    generalize hs1 : ({ s with nbProcRunning := s.nbProcRunning + 1 } : Kernel) = s1
    have m1 : Mid .any s₀ ∅ s1 c r := by
      subst hs1
      exact m.other (by constructor <;> rfl) rfl rfl
    have heap : s1.heap = s.heap := by subst hs1; rfl
    have next : s1.nextPtr = s.nextPtr := by subst hs1; rfl
    have fails := refuse s1 heap
    rw [wp_bind, wp_modify, hs1]
    simp only [wp_bind, wp_getpid, wp_getCurrentProcess, m1.running.table,
      wp_validate m1.running.heap, m1.running.state, ProcessState.dead, Bool.false_eq_true, if_false,
      show ¬ ((0 : Int) < 0) by decide, and_false]
    by_cases hp : prio ≤ maxPrio ∧ prio ≥ minPrio
    swap
    · rw [if_pos hp]
      exact fails
    rw [if_neg (not_not.2 hp)]
    by_cases hsize : ssize = 0
    · rw [if_pos hsize]
      exact fails
    rw [if_neg hsize]
    simp only [wp_bind, wp_get]
    by_cases hname : name ∉ s1.symbolsTable
    · rw [if_pos hname]
      exact fails
    rw [if_neg hname]
    cases env.record with
    | none => exact fails
    | some garbage =>
      rw [wp_bind]
      refine wp_newRecord m1.inv fun pids it pid _ => ?_
      have hnone : s.heap s.nextPtr = none :=
        Option.eq_none_iff_forall_ne_some.2 fun x hx => m.inv.toCore.ne_next hx rfl
      have hborn := born (s1.allocate pids it { garbage with pid := pid, prio := prio.toNat, nextPrev := none, started := false })
        _ hnone (by rw [← heap, ← next]; rfl) rfl
      rw [next]
      split
      · exact hborn.1
      · exact hborn.2

theorem wp_startVirtual_starts {s₀ : Kernel} {c : Ptr} {r : Process} (m : Mid .any s₀ ∅ s c r) (name : Option (List UInt8))
    (ssize : Nat) (prio : Int) (env : StartEnv) :
    wp (startVirtual name ssize prio env) (fun _ t => Starts s t) (fun _ => True) s := by
  have refuse : ∀ u : Kernel, Starts s u → wp (answer (-1) []) (fun _ t => Starts s t) (fun _ => True) u :=
    fun _ h => h.respects (unmoved_answer _ _) fun _ _ h => h
  refine wp_startVirtual_cases m name ssize prio env (fun u hu => refuse u (.of_heap hu)) fun u x hnone hu hx => ?_
  have h1 : Starts s u := by
    intro q y hy
    rw [hu] at hy
    rcases heap_update_cases hy with ⟨rfl, hv⟩ | ⟨_, hy⟩
    · cases hv
      exact .inr ⟨hnone, fun h => absurd h (by simp [hx])⟩
    · exact .inl ⟨y, hy, .refl y⟩
  exact ⟨wp_startFinish_starts h1 hnone prio, refuse u h1⟩

end starting

end Xinul
