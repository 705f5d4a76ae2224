import Xinul.Runs.Base

/-!
# A process that ended

Every action leaves a process that ended as it is or frees it. What every action keeps
of a record is said once, for any property of records.
-/

namespace Xinul

open Prog Machine

/-- The record at `p` was started and ended, or it was freed. -/
def Ended (s : Kernel) (p : Ptr) : Prop :=
  p < s.nextPtr ∧ ∀ r, s.heap p = some r → r.started = true ∧ r.state.dead = true

section

variable {K : Kind} {H H' : Set Ptr} {s s₀ t : Kernel} {p q : Ptr} {r : Process}

/-- The record at `p` meets `R`, or it was freed. -/
def Kept (R : Process → Prop) (s : Kernel) (p : Ptr) : Prop := p < s.nextPtr ∧ ∀ r, s.heap p = some r → R r

/-- What becomes of a record: it keeps its pid, and one that was started and ended stays so. -/
structure Process.Later (r r' : Process) : Prop where
  pid : r'.pid = r.pid
  started : r.started = true → r'.started = true
  dead : r.started = true → r.state.dead = true → r'.state.dead = true

section kept

variable {R : Process → Prop}

theorem Kept.congr (h : Kept R s p) (heap : t.heap = s.heap) (next : t.nextPtr = s.nextPtr) : Kept R t p :=
  ⟨next ▸ h.1, fun r hr => h.2 r (heap ▸ hr)⟩

theorem Kept.map {f : Process → Process} (hR : ∀ r r', r.Later r' → R r → R r') (h : Kept R s p)
    (hq : s.heap q = some r) (hf : r.Later (f r)) : Kept R (s.mapProc q f) p := by
  refine ⟨h.1, fun x hx => ?_⟩
  rw [mapProc_heap, hq] at hx
  rcases heap_update_cases hx with ⟨rfl, hv⟩ | ⟨_, hx⟩
  · cases hv
    exact hR r _ hf (h.2 r hq)
  · exact h.2 x hx

theorem Act.kept (hR : ∀ r r', r.Later r' → R r → R r') (a : Act K H s H' t) (h : Kept R s p) : Kept R t p := by
  cases a with
  | write hq same => exact h.map hR hq ⟨same.pid, same.started.trans, fun _ h2 => by rw [same.state]; exact h2⟩
  | set _ hq pid _ _ started dead => exact h.map hR hq ⟨pid, started.trans, fun _ => dead⟩
  | link _ hq => exact Kept.congr (h.map hR hq ⟨rfl, id, fun _ => id⟩) rfl rfl
  | unlink hq => exact Kept.congr (h.map hR hq ⟨rfl, id, fun _ => id⟩) rfl rfl
  | reprio hq => exact h.map hR hq ⟨rfl, id, fun _ => id⟩
  | free =>
    refine ⟨h.1, fun x hx => ?_⟩
    rcases heap_update_cases hx with ⟨_, hv⟩ | ⟨_, hx⟩
    · cases hv
    · exact h.2 x hx
  | alloc =>
    refine ⟨Nat.lt_succ_of_lt h.1, fun x hx => ?_⟩
    rcases heap_update_cases hx with ⟨rfl, _⟩ | ⟨_, hx⟩
    · exact absurd h.1 (Nat.lt_irrefl _)
    · exact h.2 x hx
  | birth _ hq hold started pid =>
    refine h.map hR hq ⟨pid, fun _ => started, fun h1 => ?_⟩
    rw [hold] at h1
    cases h1
  | @block _ _ b r sem _ _ _ _ _ _ _ hq hd =>
    refine Kept.congr (h.map (f := fun r => { r with
      semaphoreId := sem, state := .blockedSemaphore, stamp := s.insertions }) hR hq ⟨rfl, id, fun _ h2 => ?_⟩) rfl rfl
    rw [hd] at h2
    cases h2
  | other same => exact h.congr same.heap same.nextPtr
  | _ => exact h

theorem Chain.kept (ch : Chain K s₀ H s) (hR : ∀ r r', r.Later r' → R r → R r') (h : Kept R s₀ p) : Kept R s p :=
  ch.induct (P := fun _ s => Kept R s p) h fun _ _ _ _ _ h a => a.kept hR h

end kept

theorem Chain.ended (ch : Chain K s₀ H s) (h : Ended s₀ p) : Ended s p :=
  ch.kept (R := fun r => r.started = true ∧ r.state.dead = true)
    (fun _ _ hl hr => ⟨hl.started hr.1, hl.dead hr.1 hr.2⟩) h

/-- A record keeps its pid. -/
theorem Chain.pid (ch : Chain K s₀ H s) (hi : Inv ∅ s₀) {x y : Process} (hx : s₀.heap p = some x)
    (hy : s.heap p = some y) : y.pid = x.pid := by
  refine (ch.kept (R := fun r => r.pid = x.pid) (fun _ _ hl hr => hl.pid.trans hr) ⟨hi.fresh p x hx, fun r hr => ?_⟩).2 y hy
  rw [hx] at hr
  cases hr
  rfl

/-- The process at `p` was started and has not ended. -/
def Lives (s : Kernel) (p : Ptr) : Prop := ∃ r, s.heap p = some r ∧ r.started = true ∧ r.state.dead = false

theorem Lives.congr (h : Lives s p) (heap : t.heap = s.heap) : Lives t p := by
  obtain ⟨r, hr, hl⟩ := h
  exact ⟨r, heap ▸ hr, hl⟩

theorem Lives.map {f : Process → Process} (h : Lives s p) (hq : s.heap q = some r)
    (hf : r.started = true → r.state.dead = false → (f r).started = true ∧ (f r).state.dead = false) :
    Lives (s.mapProc q f) p := by
  obtain ⟨x, hx, h1, h2⟩ := h
  by_cases hp : p = q
  · subst hp
    rw [hq] at hx
    cases hx
    exact ⟨f r, by simp [hq], hf h1 h2⟩
  · exact ⟨x, by simp [hp, hx], h1, h2⟩

/-- Where nothing is done to the family nobody ends. -/
theorem Act.lives (a : Act K H s H' t) (hK : ¬ K.family) (hi : Inv H s) (h : Lives s p) : Lives t p := by
  cases a with
  | write hq same => exact h.map hq fun h1 h2 => ⟨same.started.trans h1, by rw [same.state]; exact h2⟩
  | set _ hq _ _ _ started _ writes =>
    refine h.map hq fun h1 h2 => ⟨started.trans h1, ?_⟩
    rw [(writes.resolve_left fun hw => hK hw.1).dead]
    exact h2
  | link _ hq => exact Lives.congr (h.map hq fun h1 h2 => ⟨h1, h2⟩) rfl
  | unlink hq => exact Lives.congr (h.map hq fun h1 h2 => ⟨h1, h2⟩) rfl
  | reprio hq => exact h.map hq fun h1 h2 => ⟨h1, h2⟩
  | free hq _ hdead =>
    obtain ⟨x, hx, h1, h2⟩ := h
    refine ⟨x, ?_, h1, h2⟩
    simp only [Kernel.freeRecord]
    rw [Function.update_of_ne, hx]
    rintro rfl
    rw [hq] at hx
    cases hx
    rw [hdead] at h2
    cases h2
  | alloc ht => exact absurd ht hK
  | birth ht => exact absurd ht hK
  | @block _ _ b r sem _ _ _ _ _ _ _ hq hd =>
    exact Lives.congr (h.map (f := fun r => { r with
      semaphoreId := sem, state := .blockedSemaphore, stamp := s.insertions }) hq fun h1 _ => ⟨h1, rfl⟩) rfl
  | other same => exact h.congr same.heap
  | _ => exact h

theorem Chain.lives (ch : Chain K s₀ H s) (hK : ¬ K.family) (h : Lives s₀ p) : Lives s p :=
  ch.induct (P := fun _ s => Lives s p) h fun _ _ _ _ hi h a => a.lives hK hi h

/-- What ended is not in the activatable queue and does not run. -/
theorem Ended.quiet (h : Ended s p) (hi : Inv H s) :
    p ∉ s.queue .activatable ∧ ∀ x, s.heap p = some x → x.state ≠ .actif := by
  constructor
  · intro hm
    obtain ⟨r, hr, hn, hH⟩ := hi.live_of_mem hm
    obtain ⟨hst, hd⟩ := h.2 r hr
    have hf := hi.fits p r hr hH
    cases hs : r.state <;> simp_all [Process.Fits, ProcessState.dead]
  · intro x hx hs
    have := (h.2 x hx).2
    rw [hs] at this
    cases this

end

/-- A process that `exit_process` or `kill` ended is never activatable and never runs
again, in every run in which a process blocked on a semaphore is killed only at an
end of the list. -/
theorem ended_never_runs {s t : Kernel} {p : Ptr} {r : Process} (hs : Reached KillsAtEnd s)
    (hp : s.heap p = some r) (hst : r.started = true) (hd : r.state = .zombie ∨ r.state = .killed)
    (path : Path Step KillsAtEnd s t) :
    p ∉ t.queue .activatable ∧ ∀ x, t.heap p = some x → x.state ≠ .actif := by
  have hready := Reached.ready (fun _ _ h => h) hs
  have hended : Ended s p := by
    refine ⟨hready.inv.fresh p r hp, fun x hx => ?_⟩
    rw [hp] at hx
    cases hx
    exact ⟨hst, by rcases hd with h | h <;> rw [h] <;> rfl⟩
  have both : Ready t ∧ Ended t p := by
    induction path with
    | refl => exact ⟨hready, hended⟩
    | step _ hc hstep ih =>
      have ho := hstep.outcome ih.1 (admits_any hc) False.elim (G := False) False.elim
      exact ⟨ho.ready ih.1, ho.after.chain.ended ih.2⟩
  exact both.2.quiet both.1.inv

/-- A child exits, and its parent goes on. -/
theorem ended_never_runs_exit : ∃ s t r, Reached KillsAtEnd s ∧ s.heap 2 = some r ∧ r.started = true ∧
    r.state = .zombie ∧ Path Step KillsAtEnd s t ∧ 2 ∉ t.queue .activatable ∧
      ∀ x, t.heap 2 = some x → x.state ≠ .actif := by
  have hrun : (run boot [.timer, startShell 3, .syscall (.exit 0)]).bind (fun s => some
      ((run s [.resume]).isSome, (s.heap 2).map fun x => (x.started, x.state))) =
      some (true, some (true, .zombie)) := by decide +kernel
  have hcond : ∀ u, ∀ e ∈ [.timer, startShell 3, .syscall (.exit 0)], KillsAtEnd u e := by
    intro u e he
    simp only [List.mem_cons, List.not_mem_nil, or_false] at he
    rcases he with rfl | rfl | rfl <;> exact .of_none rfl
  have hcond' : ∀ u, ∀ e ∈ [Event.resume], KillsAtEnd u e := by
    intro u e he
    obtain rfl : e = .resume := by simpa using he
    exact .of_none rfl
  obtain ⟨s, hs, hval⟩ := reached_of_run hcond hrun
  simp only [Option.some.injEq, Prod.mk.injEq] at hval
  obtain ⟨t, ht⟩ := Option.isSome_iff_exists.1 hval.1
  obtain ⟨r, hr, hrec⟩ := Option.map_eq_some_iff.1 hval.2
  simp only [Prod.mk.injEq] at hrec
  have path := run_path hcond' ht
  exact ⟨s, t, r, hs, hr, hrec.1, hrec.2, path, ended_never_runs hs hr hrec.1 (.inl hrec.2) path⟩

/-- Three processes wait for a semaphore, the second is killed, and the second
`signal` wakes it. -/
theorem ended_runs_again : ¬ ∀ s t p r, Reached (fun _ _ => True) s → s.heap p = some r → r.started = true →
    (r.state = .zombie ∨ r.state = .killed) → Path Step (fun _ _ => True) s t →
    p ∉ t.queue .activatable ∧ ∀ x, t.heap p = some x → x.state ≠ .actif := by
  have hrun : (run boot [.timer, .syscall (.screate 0 true), startShell 3, .syscall (.wait 1), .resume, startShell 3,
      .syscall (.wait 1), .resume, startShell 3, .syscall (.wait 1), .resume, .syscall (.kill 4)]).bind
      (fun s => some ((run s [.syscall (.signal 1), .resume, .syscall (.signal 1)]).map
        (fun t => (t.heap 3).map (·.state)), (s.heap 3).map fun x => (x.started, x.state))) =
      some (some (some .actif), some (true, .zombie)) := by decide +kernel
  obtain ⟨s, hs, hval⟩ := reached_of_run (C := fun _ _ => True) (fun _ _ _ => trivial) hrun
  simp only [Option.some.injEq, Prod.mk.injEq] at hval
  obtain ⟨t, ht, hstate⟩ := Option.map_eq_some_iff.1 hval.1
  obtain ⟨x, hx, hstate⟩ := Option.map_eq_some_iff.1 hstate
  obtain ⟨r, hr, hrec⟩ := Option.map_eq_some_iff.1 hval.2
  simp only [Prod.mk.injEq] at hrec
  have path : Path Step (fun _ _ => True) s t := run_path (fun _ _ _ => trivial) ht
  exact fun h => (h s t 3 r hs hr hrec.1 (.inl hrec.2) path).2 x hx hstate

end Xinul
