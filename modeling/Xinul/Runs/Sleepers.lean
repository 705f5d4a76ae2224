import Xinul.Proofs.Sleeping
import Xinul.Runs.Base

/-!
# Sleeping

`wait_clock` adds the ticks to the clock on 64 bits and stores the opposite of the sum in a
signed field. A sum of 2⁶³ or more fails the assertion of `get_next_wake_time`, and a sum
of zero reads as an empty queue, so that nobody behind it is woken. No other argument does
harm: in a run without these, whoever is asleep has time left after every step, and the
step in which the clock passes his time makes him activatable or runs him.
-/

namespace Xinul

open Prog Machine

/-- The time the event lets the running process wake up at fits the queue of those asleep. -/
def NapsInTime (s : Kernel) (e : Event) : Prop :=
  ∀ k, e.sleeps = some k → 0 < (s.counter + k) % 2 ^ 64 ∧ (s.counter + k) % 2 ^ 64 < 2 ^ 63

/-- The steps of a run in which everybody is woken in time. -/
structure SoundSleep (s : Kernel) (e : Event) : Prop where
  kills : KillsAtEnd s e
  naps : NapsInTime s e

/-- A check of `SoundSleep`: nobody is killed, and a sum of the clock fits. -/
def Event.napsInTime (s : Kernel) (e : Event) : Bool :=
  (e.target s).isNone && e.sleeps.all fun k => decide (0 < (s.counter + k) % 2 ^ 64 ∧ (s.counter + k) % 2 ^ 64 < 2 ^ 63)

theorem SoundSleep.of_napsInTime {s : Kernel} {e : Event} (h : e.napsInTime s = true) : SoundSleep s e := by
  simp only [Event.napsInTime, Bool.and_eq_true, Option.isNone_iff_eq_none, Option.all_eq_true, decide_eq_true_eq] at h
  exact ⟨.of_none h.1, h.2⟩

/-- Whoever is asleep has a wake-up time, which the clock has not passed. -/
structure Dozing (s : Kernel) : Prop where
  ready : Ready s
  order : NapOrder s
  times : Timetable s
  early : ∀ p ∈ s.queue .asleep, ∀ r, s.heap p = some r → ¬ r.Overdue s.counter

section

variable {T : Prop} {s t : Kernel} {e : Event} {c p : Ptr} {r : Process} {k : Context}

/-- What a step that puts nobody to sleep does to those asleep. -/
theorem slept_step (hi : Inv ∅ s) (hn : e.sleeps = none) (hT : T → ¬ e.Ticks s) :
    wp (step e) (fun _ t => Slept T s t) (Alarm T s) s := by
  have console : ∀ (s : Kernel) c, Slept T s { s with console := c } := fun _ _ => .globals rfl (fun _ => id) rfl fun _ => rfl
  have reads : ∀ length (s : Kernel) p, Slept T s (s.mapProc p fun r => { r with context := .consRead length }) :=
    fun length s p => .map (p := p) (f := fun r => { r with context := .consRead length }) (fun _ => rfl) rfl
      (fun _ => id) rfl fun _ => rfl
  have copies : ∀ s, Alarm T s .copyAssert := fun _ h => by cases h
  have framed : wp (step e) (fun _ t => Frame False False (Slept T) s t) (Alarm T s) s := by
    cases e with
    | syscall sc =>
      refine frame_syscall fun _ => ?_
      cases sc with
      | start name ssize prio env => exact apart_startVirtual _ _ _ _ Slept.holdsOfStarts s
      | chprio pid newprio => exact chprio_slept hi _ _
      | consRead length => exact apart_consRead length console copies (reads length) s
      | consEcho on => exact apart_consEcho _ (fun s _ => console s _) s
      | sleep nbrMs => cases hn
      | waitClock clock => cases hn
      | _ => contradiction
    | timer =>
      have late : ¬ T := fun h => hT h trivial
      exact frame_timer (fun _ _ => .globals rfl (fun _ => id) rfl fun h => absurd h late) s
    | keyboard k => exact apart_handleKeyboardInterrupt k console s
    | pageFault => exact frame_pageFault s
    | resume =>
      refine frame_resume (fun r length _ _ => apart_consReadLoop length console copies (reads length) s) fun r hr hctx => ?_
      have late : ¬ T := fun h => hT h ⟨r, hr, hctx⟩
      exact apart_handleStimerInterrupt (k := .user none) rfl (by simp) (by simp)
        (fun _ _ => .globals rfl (fun _ => id) rfl fun h => absurd h late) s
  exact wp_mono framed (fun _ _ _ h => h.also) (fun _ _ h => h)

/-- A tick wakes those whose time it passes. -/
theorem stimer_punctual (h : Dozing s) (hr : Running s c r) (hk : Saves .any s c r k) :
    wp (handleStimerInterrupt k) (fun _ t => Punctual s.tick t ∧ t.counter = s.tick.counter) (fun _ => True) s := by
  have hi := h.ready.inv
  have hn := hr.unlinked hi.toCore (by simp)
  rw [handleStimerInterrupt, wp_bind, wp_modify]
  refine wp_mono (wp_and (schedule_punctual (s := s.tick) (Chain.tick (K := .any) (.refl hi)).inv
    ⟨hr.table, hr.heap, hr.started, hr.user⟩ (by rw [hn]; exact fun h => by cases h) h.order h.times
    ⟨hk.pointers, hk.final, hk.idle, hk.acts⟩) (keeps_schedule k s.tick)) (fun _ t _ ht => ⟨ht.1, ?_⟩) (fun _ _ h => h)
  have hrest := ht.2
  simp only [Kernel.rest, Prod.mk.injEq] at hrest
  exact hrest.2.2.1

theorem Step.tick (h : Step s e t) (hd : Dozing s) (he : e.Ticks s) (hr : Running s c r) :
    Punctual s.tick t ∧ t.counter = s.tick.counter := by
  cases e with
  | timer =>
    have hwp : wp (step .timer) (fun _ t => Punctual s.tick t ∧ t.counter = s.tick.counter) (fun _ => True) s := by
      simp only [step, wp_bind, wp_get]
      refine stimer_punctual hd hr ?_
      split
      · exact ⟨.inl trivial, (fun h => by cases h), fun _ => trivial, trivial⟩
      · exact .user none trivial
    exact wp_ok hwp h.2
  | resume =>
    obtain ⟨r', hcur, hctx⟩ := he
    rw [hr.current] at hcur
    cases hcur
    have hwp : wp (step .resume) (fun _ t => Punctual s.tick t ∧ t.counter = s.tick.counter) (fun _ => True) s := by
      simp only [step, resume, wp_bind, wp_getCurrentProcess, hr.table, wp_derefOpt hr.heap, hctx]
      exact stimer_punctual hd hr (.user none trivial)
    exact wp_ok hwp h.2
  | syscall sc => exact he.elim
  | keyboard k => exact he.elim
  | pageFault => exact he.elim

/-- The record of the process that sleeps for `n` ticks. -/
def Process.nap (s : Kernel) (n : Nat) (r : Process) : Process :=
  { r with wakeTime := Int.bmod (-(s.counter + n : Nat)) (2 ^ 64), state := .asleep }

/-- The state in which `wait_clock` calls `scheduler`. -/
def Kernel.napping (s : Kernel) (c : Ptr) (r : Process) (n : Nat) : Kernel :=
  (s.mapProc c (Process.nap s n)).link c .asleep ((s.mapProc c (Process.nap s n)).inserted c (r.nap s n) .asleep)

theorem Process.nap_timed {n : Nat} (h : 0 < (s.counter + n) % 2 ^ 64 ∧ (s.counter + n) % 2 ^ 64 < 2 ^ 63) :
    (r.nap s n).Timed := by
  simp only [Process.Timed, Process.nap]
  rw [Int.bmod_def]
  split <;> omega

theorem napping_heap_self {n : Nat} (hr : s.heap c = some r) :
    (s.napping c r n).heap c = some { r.nap s n with nextPrev := some .asleep, stamp := s.insertions } := by
  simp [Kernel.napping, hr, Kernel.mapProc]

theorem napping_heap_of_ne {n : Nat} (hp : p ≠ c) : (s.napping c r n).heap p = s.heap p := by
  simp [Kernel.napping, hp]

theorem mem_napping {n : Nat} : p ∈ (s.napping c r n).queue .asleep ↔ p = c ∨ p ∈ s.queue .asleep := by
  simp [Kernel.napping, Kernel.inserted]

theorem Timetable.napping {n : Nat} (h : Timetable s) (hr : s.heap c = some r)
    (hn : 0 < (s.counter + n) % 2 ^ 64 ∧ (s.counter + n) % 2 ^ 64 < 2 ^ 63) : Timetable (s.napping c r n) := by
  intro p hp x hx
  by_cases hpc : p = c
  · subst hpc
    rw [napping_heap_self hr] at hx
    cases hx
    exact Process.nap_timed (r := r) hn
  · rw [napping_heap_of_ne hpc] at hx
    exact h p ((mem_napping.1 hp).resolve_left hpc) x hx

/-- `wait_clock` chains the running process and calls `scheduler`. -/
theorem wp_waitClock {n : Nat} {Q : Unit → Kernel → Prop} {E : Fault → Prop} (hi : Inv ∅ s) (hr : Running s c r)
    (hu : s.pidProcessHashTable idleId ≠ some c)
    (hq : Chain Kind.any s ∅ (s.napping c r n) → wp (scheduleAnswer 0 []) Q E (s.napping c r n)) : wp (waitClock n) Q E s := by
  have m : Mid Kind.any s ∅ s c r := hr.mid hi (fun _ _ _ _ _ => trivial) trivial
  obtain ⟨hcore, ch⟩ := m.blockSelf (d := .asleep) (f := Process.nap s n) hu rfl rfl rfl rfl
    ⟨rfl, rfl, rfl, rfl, by rw [hr.state]; rfl, .inl rfl⟩ rfl (fun k => by simp [Process.Fits, Process.nap, hr.started])
    (fun _ h => by cases h) (by simp) fun h => by cases h
  simp only [waitClock, wp_bind, wp_getCurrentProcess, hr.table, wp_get]
  rw [wp_modifyProc hr.heap]
  exact wp_queueAdd (f := Process.wakeTime) (r := r.nap s n) hcore (by simp [hr.heap, Process.nap]) m.unlinked rfl (hq ch)

/-- `wait_clock` with a sum that fits. -/
theorem waitClock_punctual {n : Nat} (h : Dozing s) (hr : Running s c r) (hu : s.pidProcessHashTable idleId ≠ some c)
    (hn : 0 < (s.counter + n) % 2 ^ 64 ∧ (s.counter + n) % 2 ^ 64 < 2 ^ 63) :
    wp (waitClock n) (fun _ t => (Timetable t ∧ t.counter = s.counter) ∧
      ∀ p ∈ t.queue .asleep, ∀ r, t.heap p = some r → ¬ r.Overdue t.counter) (· ≠ .wakeTimeAssert) s := by
  have htimes : Timetable (s.napping c r n) := h.times.napping hr.heap hn
  have hslept := apart_scheduleAnswer (M := False) (W := False) (R := Slept True) (E := Alarm True) 0 [] (s.napping c r n)
  refine wp_waitClock h.ready.inv hr hu fun ch => ?_
  have hpunctual : wp (scheduleAnswer 0 []) (fun _ t => Punctual (s.napping c r n) t) (fun _ => True) (s.napping c r n) :=
    schedule_punctual ch.inv ⟨hr.table, napping_heap_self hr.heap, hr.started, hr.user⟩ (by simp) (ch.napOrder h.order)
      htimes (.user _ trivial)
  refine wp_mono (wp_and hslept hpunctual) (fun _ t _ ht => ⟨⟨?_, ?_⟩, ht.2.noneDue⟩) (fun f _ hf he => ?_)
  · exact htimes.slept ch.inv ht.1.also
  · exact ht.1.also.counter trivial
  · subst he
    exact hf.absent ch.inv htimes

/-- The event that puts the running process to sleep calls `wait_clock`. -/
theorem step_of_sleeps {n : Nat} (h : e.sleeps = some n) : step e = waitClock n ∧ ∃ sc, e = .syscall sc := by
  unfold Event.sleeps at h
  split at h
  · cases h
    exact ⟨rfl, _, rfl⟩
  · cases h
    exact ⟨rfl, _, rfl⟩
  · cases h

theorem Booting.dozing (h : Booting s) (hs : Ready s) : Dozing s := by
  have hnil : s.queue .asleep = [] := h.queue_nil (by decide)
  refine ⟨hs, ?_, ?_, ?_⟩
  · simp [NapOrder, hnil]
  · simp [Timetable, hnil]
  · simp [hnil]

/-- No step fails the assertion of `get_next_wake_time`. -/
theorem Dozing.asserts (h : Dozing s) (hc : SoundSleep s e) (he : e.enabled s = true) : step e s ≠ .error .wakeTimeAssert := by
  intro hf
  cases hn : e.sleeps with
  | none =>
    have hwp : wp (step e) (fun _ t => Slept False s t) (Alarm False s) s := slept_step h.ready.inv hn False.elim
    exact (wp_error hwp hf).absent h.ready.inv h.times
  | some n =>
    obtain ⟨hstep, sc, rfl⟩ := step_of_sleeps hn
    rcases h.ready.stage with hb | ⟨c, r, hr⟩
    · simp [Event.enabled, hb.running] at he
    · simp only [Event.enabled, Bool.and_eq_true, decide_eq_true_eq] at he
      rw [hstep] at hf
      exact wp_error (waitClock_punctual h hr (h.ready.user hr he.2) (hc.naps n hn)) hf rfl

/-- A step wakes those whose time it passes, and leaves the others asleep. -/
theorem Dozing.step (h : Dozing s) (hc : SoundSleep s e) (hst : Step s e t) : Dozing t ∧
    ∀ p r, p ∈ s.queue .asleep → s.heap p = some r → r.deadline < t.counter →
      p ∈ t.queue .activatable ∨ t.caller = some p := by
  have hready := h.ready.step hc.kills hst
  have horder : NapOrder t :=
    (hst.outcome h.ready (admits_any hc.kills) False.elim (G := False) False.elim).after.chain.napOrder h.order
  have early : t.counter = s.counter → ∀ p r, p ∈ s.queue .asleep → s.heap p = some r → r.deadline < t.counter →
      p ∈ t.queue .activatable ∨ t.caller = some p := by
    intro hcounter p r hp hr hlt
    rw [hcounter] at hlt
    exact absurd ⟨(h.times p hp r hr).deadline_eq.2, hlt⟩ (h.early p hp r hr)
  cases hn : e.sleeps with
  | some n =>
    obtain ⟨hstep, sc, rfl⟩ := step_of_sleeps hn
    obtain ⟨c, r, hr⟩ := h.ready.running_of_syscall hst
    have he := hst.1
    simp only [Event.enabled, Bool.and_eq_true, decide_eq_true_eq] at he
    have hrun := hst.2
    rw [hstep] at hrun
    obtain ⟨⟨htimes, hcounter⟩, hlate⟩ := wp_ok (waitClock_punctual h hr (h.ready.user hr he.2) (hc.naps n hn)) hrun
    exact ⟨⟨hready, horder, htimes, hlate⟩, early hcounter⟩
  | none =>
    have hslept : Slept False s t := wp_ok (slept_step h.ready.inv hn False.elim) hst.2
    have htimes := h.times.slept h.ready.inv hslept
    by_cases ht : e.Ticks s
    · rcases h.ready.stage with hb | ⟨c, r, hr⟩
      · -- nobody is asleep before the first process runs
        have hnil : s.queue .asleep = [] := hb.queue_nil (by decide)
        have hnone : ∀ p, p ∉ s.queue .asleep := by simp [hnil]
        exact ⟨⟨hready, horder, htimes, fun p hp => absurd (hslept.asleep hp) (hnone p)⟩, fun p _ hp => absurd hp (hnone p)⟩
      · obtain ⟨hp, hcounter⟩ := hst.tick h ht hr
        refine ⟨⟨hready, horder, htimes, hp.noneDue⟩, fun p x hm hx hlt => hp.woken p hm x hx ⟨?_, ?_⟩⟩
        · exact (h.times p hm x hx).deadline_eq.2
        · rwa [← hcounter]
    · have hsame : Slept True s t := wp_ok (slept_step h.ready.inv hn fun _ => ht) hst.2
      refine ⟨⟨hready, horder, htimes, fun p hp r hr hover => ?_⟩, early (hsame.counter trivial)⟩
      obtain ⟨x, hx, -, hiff⟩ := hsame.record h.ready.inv hp hr
      rw [hsame.counter trivial, ← hiff] at hover
      exact h.early p (hsame.asleep hp) x hx hover

theorem SoundSleep.dozing (h : Reached SoundSleep s) : Dozing s := by
  refine h.invariant (I := Dozing) (fun s hb => hb.booting.dozing hb.ready) fun _ _ _ hs hc hst => (hs.step hc hst).1

end

/-- In a run in which no sum of the clock and a time to sleep is zero or reaches 2⁶³, the
assertion of `get_next_wake_time` holds, nobody is asleep whose time the clock has passed,
and the step that passes it makes the process activatable or runs it. -/
theorem sleepers_wake_in_time {s : Kernel} (h : Reached SoundSleep s) :
    (∀ p ∈ s.queue .asleep, ∃ r, s.heap p = some r ∧ 0 < r.deadline ∧ s.counter ≤ r.deadline) ∧
    ∀ e, SoundSleep s e → ¬ Faults s e .wakeTimeAssert ∧
      ∀ t, Step s e t → ∀ p r, p ∈ s.queue .asleep → s.heap p = some r → r.deadline < t.counter →
        p ∈ t.queue .activatable ∨ t.caller = some p := by
  have hd := SoundSleep.dozing h
  refine ⟨fun p hp => ?_, fun e he => ⟨fun hf => hd.asserts he hf.1 hf.2, fun t hst => (hd.step he hst).2⟩⟩
  obtain ⟨r, hr, _⟩ := hd.ready.inv.live_of_mem hp
  have hpos := (hd.times p hp r hr).deadline_eq.2
  refine ⟨r, hr, hpos, ?_⟩
  by_contra hlt
  exact hd.early p hp r hr ⟨hpos, by omega⟩

/-- The shell sleeps for a tick, which two timer interrupts bring about. -/
theorem sleepers_wake_in_time_shell : ∃ s t, Reached SoundSleep s ∧ Step s .timer t ∧ 1 ∈ s.queue .asleep ∧
    (1 ∈ t.queue .activatable ∨ t.caller = some 1) := by
  have hval : ((runChecked (fun s e => e.napsInTime s) (fun _ _ n => n) boot () [.timer, .syscall (.waitClock 1), .timer]).map
      (·.1)).bind (fun s => (run s [.timer]).bind fun t => if s.queue .asleep = [1] ∧
        (s.heap 1).map (fun r => decide (r.deadline < (t.counter : Int))) = some true then some () else none) = some () := by
    decide +kernel
  obtain ⟨s, hs, hf⟩ := reached_of_runChecked (C := SoundSleep) (fun _ _ _ _ hok => .of_napsInTime hok) hval
  obtain ⟨t, ht, hcheck⟩ := Option.bind_eq_some_iff.1 hf
  split at hcheck
  · next h =>
    have hmem : 1 ∈ s.queue .asleep := by simp [h.1]
    obtain ⟨r, hr, hlt⟩ := Option.map_eq_some_iff.1 h.2
    have hsound : SoundSleep s .timer := .of_napsInTime rfl
    exact ⟨s, t, hs, run_step ht, hmem,
      ((sleepers_wake_in_time hs).2 .timer hsound).2 t (run_step ht) 1 r hmem hr (by simpa using hlt)⟩
  · cases hcheck

/-- A sum of 2⁶³ stops the kernel; and behind a process whose sum is zero the shell sleeps on
when its time is up. -/
theorem sleepers_held_up : (∃ s, Reached (fun _ _ => True) s ∧ Faults s (.syscall (.waitClock (2 ^ 63))) .wakeTimeAssert) ∧
    ∃ s t p r, Reached (fun _ _ => True) s ∧ Step s .timer t ∧ p ∈ s.queue .asleep ∧ s.heap p = some r ∧
      0 < r.deadline ∧ r.deadline < t.counter ∧ ¬ (p ∈ t.queue .activatable ∨ t.caller = some p) := by
  constructor
  · have hval : (run boot [.timer]).bind (faultOf (.syscall (.waitClock (2 ^ 63)))) = some .wakeTimeAssert := by
      decide +kernel
    obtain ⟨s, hs, hf⟩ := reached_of_run (C := fun _ _ => True) (fun _ _ _ => trivial) hval
    exact ⟨s, hs, faultOf_faults hf⟩
  · have hval : (run boot [.timer, startShell 2, .syscall (.waitClock 1), .syscall (.waitClock (2 ^ 64 - 1)), .timer]).bind
        (fun s => (run s [.timer]).bind fun t => if 1 ∈ s.queue .asleep ∧ t.queue .activatable = [] ∧ t.caller = some 0 ∧
          (s.heap 1).map (fun r => decide (0 < r.deadline ∧ r.deadline < (t.counter : Int))) = some true
          then some () else none) = some () := by decide +kernel
    obtain ⟨s, hs, hf⟩ := reached_of_run (C := fun _ _ => True) (fun _ _ _ => trivial) hval
    obtain ⟨t, ht, hcheck⟩ := Option.bind_eq_some_iff.1 hf
    split at hcheck
    · next h =>
      obtain ⟨hmem, hq, hc, htime⟩ := h
      obtain ⟨r, hr, hlt⟩ := Option.map_eq_some_iff.1 htime
      obtain ⟨h1, h2⟩ : 0 < r.deadline ∧ r.deadline < t.counter := by simpa using hlt
      exact ⟨s, t, 1, r, hs, run_step ht, hmem, hr, h1, h2, by simp [hq, hc]⟩
    · cases hcheck

end Xinul
