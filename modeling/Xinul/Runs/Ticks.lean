import Xinul.Proofs.FrameSteps
import Xinul.Runs.Base

/-!
# The clock counts the calls of its handler

`counter` moves in `handle_stimer_interrupt` only. On `VIRTMACHINE` the case of the
software interrupt in `strap_handler` has no `break`: when the process that the tick
interrupted goes on, the handler is called for the same tick again.
-/

namespace Xinul

open Prog Machine

/-- The clock does not move. -/
def SameClock (s t : Kernel) : Prop := t.counter = s.counter

instance : HoldsOfWrites SameClock where
  refl _ := rfl
  trans _ _ _ h h' := h'.trans h
  write _ _ _ _ _ _ _ h := h.counter
  globals _ _ _ _ h := h.counter
  free _ _ _ _ := rfl

theorem SameClock.holdsOfStarts : HoldsOfStarts SameClock where
  enlist _ _ := rfl
  pids _ _ _ := rfl
  alloc _ _ _ _ _ _ _ _ _ h := h

theorem SameClock.ignoresAsleep : IgnoresAsleep SameClock := fun _ _ _ _ _ _ h => h.counter

/-- The interrupted process goes on in `strap_handler`, between its two handlers. -/
def Event.again (s : Kernel) : Event → Bool
  | .resume => s.current.any fun r => r.context = .stimer
  | _ => false

section

variable {s t : Kernel} {e : Event}

theorem wp_handleStimerInterrupt (after : Context) (hmail : after.mail = false) (hwait : after ≠ .wait)
    (hread : ∀ n, after ≠ .consRead n) :
    wp (handleStimerInterrupt after) (fun _ t => t.counter = (s.counter + 1) % 2 ^ 64) (fun _ => True) s := by
  rw [handleStimerInterrupt, wp_bind, wp_modify]
  have hsame : Guards (Frame False False SameClock) (fun _ _ => True) (schedule after) :=
    apart_schedule (fun _ => hmail) (fun _ => hwait) (.inl hread)
  exact wp_mono (Respects.run hsame _) (fun _ _ _ h => h.also) (fun _ _ h => h)

/-- What happens to the clock in a step: `handle_stimer_interrupt` adds one. -/
theorem Step.clock (hst : Step s e t) :
    t.counter = if e = .timer ∨ e.again s = true then (s.counter + 1) % 2 ^ 64 else s.counter := by
  have same {m : KernelM Unit} (h : wp m (fun _ t => Frame False False SameClock s t) (fun _ => True) s) :
      wp m (fun _ t => t.counter = s.counter) (fun _ => True) s :=
    wp_mono h (fun _ _ _ h => h.also) (fun _ _ h => h)
  cases e with
  | syscall sc =>
    rw [if_neg (by simp [Event.again])]
    apply wp_ok (same _) hst.2
    apply frame_syscall (E := fun _ _ => True)
    intro hspecial
    cases sc with
    | start name ssize prio env => exact Respects.run (apart_startVirtual _ _ _ _ SameClock.holdsOfStarts) s
    | chprio pid newprio => exact Respects.run (frame_chprio _ _ SameClock.ignoresAsleep) s
    | consRead n => exact Respects.run (apart_consRead n (fun _ _ => rfl) (fun _ => trivial) fun _ _ => rfl) s
    | consEcho on => exact Respects.run (apart_consEcho _ fun _ _ => rfl) s
    | sleep n => exact Respects.run (apart_waitClock _ SameClock.ignoresAsleep fun _ _ _ => rfl) s
    | waitClock n => exact Respects.run (apart_waitClock _ SameClock.ignoresAsleep fun _ _ _ => rfl) s
    | _ => cases hspecial
  | timer =>
    rw [if_pos (.inl rfl)]
    have hrun : wp (step .timer) (fun _ t => t.counter = (s.counter + 1) % 2 ^ 64) (fun _ => True) s := by
      rw [step, wp_bind, wp_get]
      split
      · exact wp_handleStimerInterrupt _ rfl (by simp) (by simp)
      · exact wp_handleStimerInterrupt _ rfl (by simp) (by simp)
    exact wp_ok hrun hst.2
  | keyboard k =>
    rw [if_neg (by simp [Event.again])]
    exact wp_ok (same (Respects.run (apart_handleKeyboardInterrupt k fun _ _ => rfl) s)) hst.2
  | pageFault =>
    rw [if_neg (by simp [Event.again])]
    exact wp_ok (same (Respects.run frame_pageFault s)) hst.2
  | resume =>
    by_cases hagain : Event.resume.again s = true
    · rw [if_pos (.inr hagain)]
      obtain ⟨r, hcur, hctx⟩ := (Option.any_eq_true _ _).1 hagain
      have hctx' : r.context = .stimer := by simpa using hctx
      obtain ⟨c, hc, hr⟩ := Option.bind_eq_some_iff.1 hcur
      have hrun : wp resume (fun _ t => t.counter = (s.counter + 1) % 2 ^ 64) (fun _ => True) s := by
        rw [resume, wp_bind, wp_getCurrentProcess, hc, wp_bind, wp_derefOpt hr]
        simp only [hctx']
        exact wp_handleStimerInterrupt _ rfl (by simp) (by simp)
      exact wp_ok hrun hst.2
    · rw [if_neg (by simpa using hagain)]
      apply wp_ok (same _) hst.2
      apply frame_resume (E := fun _ _ => True)
      · intro r n _ _
        exact Respects.run (apart_consReadLoop n (fun _ _ => rfl) (fun _ => trivial) fun _ _ => rfl) s
      · intro r hcur hctx
        exact absurd (by simp [Event.again, hcur, hctx]) hagain

end

/-! ## Runs -/

/-- The timer interrupts delivered since boot, and how many of them were handled again. -/
structure TickCount where
  delivered : Nat
  again : Nat
  deriving DecidableEq

/-- The ticks after the event. -/
def noteTicks (s : Kernel) (e : Event) (n : TickCount) : TickCount where
  delivered := n.delivered + if e = .timer then 1 else 0
  again := n.again + if e.again s = true then 1 else 0

/-- Runs, with their ticks. -/
abbrev Ticking : Kernel → TickCount → Prop := Noted Boot Step (fun _ _ => True) ⟨0, 0⟩ noteTicks

section

variable {s t : Kernel} {n : TickCount}

theorem Ticking.counter (hs : Ticking s n) : s.counter = (n.delivered + n.again) % 2 ^ 64 := by
  induction hs with
  | init hb =>
    obtain ⟨symbols, virt, idle, shell, rfl⟩ := hb.eq
    rfl
  | @step s t e n _ _ hst ih =>
    rw [hst.clock]
    by_cases htimer : e = .timer
    · subst htimer
      have hnote : noteTicks s .timer n = ⟨n.delivered + 1, n.again⟩ := rfl
      rw [if_pos (.inl rfl), hnote, ih]
      dsimp only
      omega
    · by_cases hagain : e.again s = true
      · have hnote : noteTicks s e n = ⟨n.delivered, n.again + 1⟩ := by simp [noteTicks, htimer, hagain]
        rw [if_pos (.inr hagain), hnote, ih]
        dsimp only
        omega
      · have hnote : noteTicks s e n = n := by simp [noteTicks, htimer, hagain]
        rw [if_neg (by simp [htimer, hagain]), hnote, ih]

/-- `current_clock` answers with the clock. -/
theorem Step.currentClock_answers (hst : Step s (.syscall .currentClock) t) :
    ∃ c, s.caller = some c ∧ Answers t c s.counter [] := by
  have huser : s.inUserMode = true ∧ s.currentRunningProcessPid ≠ -1 := by
    have he := hst.1
    simp only [Event.enabled, Bool.and_eq_true, decide_eq_true_eq] at he
    exact he.1
  obtain ⟨r, hcur⟩ : ∃ r, s.current = some r := by
    cases hcur : s.current with
    | none =>
      have := huser.1
      simp only [Kernel.inUserMode, hcur, decide_eq_true_eq] at this
      exact absurd this huser.2
    | some r => exact ⟨r, rfl⟩
  obtain ⟨c, hc, hr⟩ := Option.bind_eq_some_iff.1 hcur
  refine ⟨c, hc, ?_⟩
  have hrun : wp (syscallHandler .currentClock) (fun _ t => Answers t c s.counter []) (fun _ => True) s := by
    rw [syscallHandler, wp_bind, wp_get, answer, saveContext, wp_bind, wp_getCurrentProcess, hc]
    dsimp only
    rw [wp_modifyProc hr]
    simp [Answers, hr]
  exact wp_ok hrun hst.2

end

/-- In every state of every run: `current_clock` answers with the number of timer interrupts
delivered plus the number of those handled again, on 64 bits; up to `2 ^ 64` it is the number
of interrupts delivered if and only if none was handled again. -/
theorem clock_counts_ticks {s : Kernel} {n : TickCount} (hs : Ticking s n) :
    (∀ t, Step s (.syscall .currentClock) t →
      ∃ c, s.caller = some c ∧ Answers t c ((n.delivered + n.again) % 2 ^ 64 : Nat) []) ∧
    s.counter = (n.delivered + n.again) % 2 ^ 64 ∧
    (n.delivered + n.again < 2 ^ 64 → (s.counter = n.delivered ↔ n.again = 0)) := by
  have hcount := hs.counter
  refine ⟨fun t hst => ?_, hcount, fun hlt => ?_⟩
  · rw [← hcount]
    exact hst.currentClock_answers
  · rw [hcount, Nat.mod_eq_of_lt hlt]
    omega

/-- Two timer interrupts without `VIRTMACHINE`. -/
theorem clock_counts_ticks_twice : ∃ s, Ticking s ⟨2, 0⟩ ∧ s.counter = 2 := by
  have hval : (runNoted noteTicks boot ⟨0, 0⟩ [.timer, .timer]).bind (fun v => some v.2) = some ⟨2, 0⟩ := by decide +kernel
  obtain ⟨s, n, hs, hn⟩ := noted_of_run (C := fun _ _ => True) (fun _ _ _ => trivial) hval
  obtain rfl : n = ⟨2, 0⟩ := Option.some.inj hn
  exact ⟨s, hs, ((clock_counts_ticks hs).2.2 (by decide)).2 rfl⟩

/-- The same two interrupts on `VIRTMACHINE`, and the shell goes on. -/
theorem clock_ahead_of_ticks : ¬ ∀ s n, Ticking s n → s.counter = n.delivered := by
  intro h
  have hval : (runNoted noteTicks (bootState [idleName, shellName] true blank blank) ⟨0, 0⟩ [.timer, .timer, .resume]).map
      (fun v => (v.1.counter, v.2)) = some (3, ⟨2, 1⟩) := by decide +kernel
  obtain ⟨⟨s, n⟩, hrun, hv⟩ := Option.map_eq_some_iff.1 hval
  have hboot : Boot (bootState [idleName, shellName] true blank blank) := bootState_boot (by simp) (by simp)
  have hs : Ticking s n := runNoted_noted (.init hboot) (fun _ _ _ => trivial) hrun
  have hclock := h s n hs
  simp only [Prod.mk.injEq] at hv
  rw [hv.1, hv.2] at hclock
  cases hclock

end Xinul
