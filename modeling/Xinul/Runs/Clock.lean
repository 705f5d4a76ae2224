import Xinul.Proofs.Waking
import Xinul.Runs.Sleepers

/-!
# The clock and those who wait for it

`timer_api.h` lets a process that calls `wait_clock(t)` sleep until the interrupt number
`t`. The code adds `t` to the clock, and `awake_sleeping_process` wakes a process only once
the clock has passed the sum. It wakes those it does wake in the order of their times.
-/

namespace Xinul

open Prog Machine

/-- For every process, the clock at its last call of `wait_clock` and the argument. -/
abbrev Naps := Ptr → Option (Nat × Nat)

/-- The call of `wait_clock` made in the event, noted. -/
def noteNap (s : Kernel) (e : Event) (naps : Naps) : Naps :=
  match s.caller, e.sleeps with
  | some p, some k => Function.update naps p (some (s.counter, k))
  | _, _ => naps

/-- The states reached by runs whose steps meet `C`, with the calls of `wait_clock`. -/
abbrev Napped (C : Kernel → Event → Prop) : Kernel → Naps → Prop := Noted Boot Step C (fun _ => none) noteNap

/-- A `scheduler` call at the clock value `now` makes the process runnable. -/
def MadeRunnable (s : Kernel) (now : Nat) (p : Ptr) : Prop :=
  ∃ t, awakeSleepingProcess { s with counter := now } = .ok ((), t) ∧ p ∉ t.queue .asleep ∧ p ∈ t.queue .activatable

/-- The time in the record of everybody who is asleep is the sum of his last call. -/
def Logged (s : Kernel) (naps : Naps) : Prop :=
  ∀ p ∈ s.queue .asleep, ∃ c k, naps p = some (c, k) ∧ ∀ r, s.heap p = some r → r.deadline = ((c + k) % 2 ^ 64 : Nat)

section

variable {s t : Kernel} {e : Event} {naps : Naps} {c p : Ptr} {r : Process}

theorem SoundSleep.napAge (h : Reached SoundSleep s) : NapAge s := by
  have both : Dozing s ∧ NapAge s := by
    refine h.invariant (I := fun s => Dozing s ∧ NapAge s) (fun s hb => ?_) fun s e t hs hc hst => ?_
    · have hnil : s.queue .asleep = [] := hb.booting.queue_nil (by decide)
      exact ⟨hb.booting.dozing hb.ready, by simp [hnil], by simp [hnil]⟩
    · have hout := hst.outcome hs.1.ready (admits_any hc.kills) False.elim (G := False) False.elim
      exact ⟨(hs.1.step hc hst).1, hout.after.chain.napAge hs.2⟩
  exact both.2

theorem Process.nap_deadline {n : Nat} (h : 0 < (s.counter + n) % 2 ^ 64 ∧ (s.counter + n) % 2 ^ 64 < 2 ^ 63) :
    (r.nap s n).deadline = ((s.counter + n) % 2 ^ 64 : Nat) := by
  simp only [Process.deadline, Process.nap]
  rw [Int.bmod_def, Int.bmod_def]
  split <;> split <;> omega

/-- Who is asleep after a step that puts nobody to sleep was noted before. -/
theorem Logged.slept {T : Prop} (h : Logged s naps) (hi : Inv ∅ s) (hs : Slept T s t) : Logged t naps := by
  intro p hp
  obtain ⟨c, k, hn, hd⟩ := h p (hs.asleep hp)
  refine ⟨c, k, hn, fun y hy => ?_⟩
  obtain ⟨x, hx, _⟩ := hi.live_of_mem (hs.asleep hp)
  obtain ⟨z, hz, hzy⟩ := hs.wakeTime p hp (hi.fresh p x hx) y hy
  rw [← hd z hz]
  simp [Process.deadline, hzy]

/-- The process that calls `wait_clock` is noted. -/
theorem Logged.napping {k : Nat} (h : Logged s naps) (hr : s.heap c = some r)
    (hk : 0 < (s.counter + k) % 2 ^ 64 ∧ (s.counter + k) % 2 ^ 64 < 2 ^ 63) :
    Logged (s.napping c r k) (Function.update naps c (some (s.counter, k))) := by
  intro p hp
  by_cases hpc : p = c
  · subst hpc
    refine ⟨s.counter, k, by simp, fun y hy => ?_⟩
    rw [napping_heap_self hr] at hy
    cases hy
    exact Process.nap_deadline (r := r) hk
  · obtain ⟨c', k', hn, hd⟩ := h p ((mem_napping.1 hp).resolve_left hpc)
    refine ⟨c', k', by simp [hpc, hn], fun y hy => ?_⟩
    rw [napping_heap_of_ne hpc] at hy
    exact hd y hy

theorem Logged.step (h : Logged s naps) (hd : Dozing s) (hc : SoundSleep s e) (hst : Step s e t) :
    Logged t (noteNap s e naps) := by
  cases hn : e.sleeps with
  | none =>
    have hslept : Slept False s t := wp_ok (slept_step hd.ready.inv hn False.elim) hst.2
    have hnote : noteNap s e naps = naps := by
      unfold noteNap
      rw [hn]
      split
      · rename_i hk
        cases hk
      · rfl
    rw [hnote]
    exact h.slept hd.ready.inv hslept
  | some k =>
    obtain ⟨hstep, sc, rfl⟩ := step_of_sleeps hn
    obtain ⟨c, r, hr⟩ := hd.ready.running_of_syscall hst
    have he := hst.1
    simp only [Event.enabled, Bool.and_eq_true, decide_eq_true_eq] at he
    have hrun := hst.2
    rw [hstep] at hrun
    have hnote : noteNap s (.syscall sc) naps = Function.update naps c (some (s.counter, k)) := by
      have hcaller : s.caller = some c := hr.table
      simp [noteNap, hn, hcaller]
    rw [hnote]
    have hwp : wp (waitClock k) (fun _ t => Logged t (Function.update naps c (some (s.counter, k)))) (fun _ => True) s := by
      refine wp_waitClock hd.ready.inv hr (hd.ready.user hr he.2) fun ch => ?_
      have hslept := apart_scheduleAnswer (M := False) (W := False) (R := Slept True) (E := fun _ _ => True) 0 []
        (s.napping c r k)
      exact wp_mono hslept (fun _ t _ ht => (h.napping hr.heap (hc.naps k hn)).slept ch.inv ht.also) (fun _ _ h => h)
    exact wp_ok hwp hrun

theorem Napped.logged (h : Napped SoundSleep s naps) : Logged s naps := by
  induction h with
  | @init s hb =>
    have hnil : s.queue .asleep = [] := hb.booting.queue_nil (by decide)
    simp [Logged, hnil]
  | step hs hc hst ih => exact ih.step (SoundSleep.dozing hs.reach) hc hst

/-! ## One call of `awake_sleeping_process` -/

/-- A state with another clock. -/
theorem Inv.setClock (hi : Inv ∅ s) (now : Nat) : Inv ∅ { s with counter := now } := by
  have a : Act .any ∅ s ∅ { s with counter := now } :=
    .other ⟨rfl, rfl, rfl, rfl, rfl, rfl, rfl, rfl, le_rfl, rfl, rfl, rfl, rfl, rfl, rfl⟩
  exact ((Chain.refl hi).step a).inv

/-- In a state of a run `awake_sleeping_process` returns at any clock value. -/
theorem SoundSleep.awake_woken (h : Reached SoundSleep s) (now : Nat) :
    ∃ t suf, awakeSleepingProcess { s with counter := now } = .ok ((), t) ∧
      Woken { s with counter := now } ({ s with counter := now } : Kernel).due suf t ∧
      ∀ p ∈ suf, ¬ s.value Process.deadline p < now := by
  have hd := SoundSleep.dozing h
  exact Xinul.awake_woken (hd.ready.inv.setClock now) hd.order hd.times

/-- The sum of the call is the time the record holds. -/
theorem Napped.deadline {k n : Nat} (h : Napped SoundSleep s naps) (hp : p ∈ s.queue .asleep) (hn : naps p = some (n, k)) :
    s.value Process.deadline p = ((n + k) % 2 ^ 64 : Nat) := by
  obtain ⟨n', k', hn', hd⟩ := h.logged p hp
  obtain ⟨r, hr, _⟩ := (SoundSleep.dozing h.reach).ready.inv.live_of_mem hp
  rw [hn] at hn'
  cases hn'
  simp [Kernel.value, hr, hd r hr]

/-- A sleeper is made runnable once the clock has passed his time. -/
theorem SoundSleep.madeRunnable_iff (h : Reached SoundSleep s) (now : Nat) (hp : p ∈ s.queue .asleep) :
    MadeRunnable s now p ↔ s.value Process.deadline p < now := by
  obtain ⟨t, suf, ht, hw, hleft⟩ := SoundSleep.awake_woken h now
  constructor
  · rintro ⟨t', ht', hnot, -⟩
    obtain rfl : t' = t := congrArg Prod.snd (Except.ok.inj (ht'.symm.trans ht))
    have hmem : p ∈ ({ s with counter := now } : Kernel).due ++ suf := by
      rw [← hw.split]
      simpa using hp
    obtain hdue | hsuf := List.mem_append.1 hmem
    · exact hw.late p hdue
    · rw [hw.asleep] at hnot
      exact absurd (by simpa using hsuf) hnot
  · intro hlt
    have hdue : p ∈ ({ s with counter := now } : Kernel).due := by
      simp only [Kernel.due, List.mem_filter, List.mem_reverse, decide_eq_true_eq]
      exact ⟨hp, hlt⟩
    refine ⟨t, ht, fun hm => ?_, hw.activatable.mem_iff.2 (List.mem_append_left _ hdue)⟩
    rw [hw.asleep, List.mem_reverse] at hm
    exact hleft p hm hlt

end

/-- A `scheduler` call does with a process that called `wait_clock(k)` at the clock value `n`
what the interrupt number `k` asks for only before that interrupt, or once the clock has
passed the sum of the two. At the interrupt number `k` itself the process sleeps on. -/
theorem wait_clock_absolute_iff {s : Kernel} {naps : Naps} {p : Ptr} {n k : Nat} (h : Napped SoundSleep s naps)
    (hp : p ∈ s.queue .asleep) (hn : naps p = some (n, k)) :
    (∀ now, (MadeRunnable s now p ↔ k ≤ now) ↔
      if n + k < 2 ^ 64 then now < k ∨ n + k < now else now ≤ (n + k) % 2 ^ 64 ∧ now < k ∨ (n + k) % 2 ^ 64 < now ∧ k ≤ now) ∧
    (n + k < 2 ^ 64 → ¬ (MadeRunnable s (max n k) p ↔ k ≤ max n k)) := by
  have hiff : ∀ now, MadeRunnable s now p ↔ (n + k) % 2 ^ 64 < now := by
    intro now
    rw [SoundSleep.madeRunnable_iff h.reach now hp, h.deadline hp hn, Int.ofNat_lt]
  constructor
  · intro now
    rw [hiff now]
    split
    · next hlt =>
      rw [Nat.mod_eq_of_lt hlt]
      omega
    · omega
  · intro hlt
    rw [hiff, Nat.mod_eq_of_lt hlt]
    omega

/-- The shell calls `wait_clock(2)` at the clock value 1, and the `scheduler` call of the
interrupt number 2 does not make it runnable. -/
theorem wait_clock_oversleeps : ∃ s naps p n k, Napped (fun _ _ => True) s naps ∧ p ∈ s.queue .asleep ∧
    naps p = some (n, k) ∧ k ≤ s.counter ∧ ¬ MadeRunnable s s.counter p := by
  have hval : (runNoted noteNap boot (fun _ => none) [.timer, .syscall (.waitClock 2), .timer]).bind (fun v =>
      if 1 ∈ v.1.queue .asleep ∧ v.2 1 = some (1, 2) ∧ 2 ≤ v.1.counter then
        (Except.toOption (awakeSleepingProcess v.1)).bind fun woken => if 1 ∈ woken.2.queue .asleep then some () else none
      else none) = some () := by decide +kernel
  obtain ⟨s, naps, hs, hf⟩ := noted_of_run (C := fun _ _ => True) (fun _ _ _ => trivial) hval
  split at hf
  · next h =>
    refine ⟨s, naps, 1, 1, 2, hs, h.1, h.2.1, h.2.2, ?_⟩
    rintro ⟨t, ht, hnot, -⟩
    rw [show awakeSleepingProcess s = .ok ((), t) from ht] at hf
    simp [Except.toOption, hnot] at hf
  · cases hf

/-- After a timer interrupt the shell calls `wait_clock(2)`, and another interrupt follows. -/
theorem shell_naps : ∃ s naps, Napped SoundSleep s naps ∧ 1 ∈ s.queue .asleep ∧ naps 1 = some (1, 2) := by
  have hval : (runChecked (fun s e => e.napsInTime s) noteNap boot (fun _ => none)
      [.timer, .syscall (.waitClock 2), .timer]).bind (fun v => some (decide (1 ∈ v.1.queue .asleep), v.2 1)) =
        some (true, some (1, 2)) := by decide +kernel
  obtain ⟨s, naps, h, hf⟩ := noted_of_runChecked (C := SoundSleep) (fun _ _ _ _ _ hok => .of_napsInTime hok) hval
  simp only [Option.some.injEq, Prod.mk.injEq, decide_eq_true_eq] at hf
  exact ⟨s, naps, h, hf.1, hf.2⟩

/-- The shell that called `wait_clock(2)` at the clock value 1 is not made runnable at the
clock value 3, and is at the clock value 4. -/
theorem wait_clock_absolute_shell : ∃ s naps, Napped SoundSleep s naps ∧
    ¬ (MadeRunnable s 3 1 ↔ 2 ≤ 3) ∧ (MadeRunnable s 4 1 ↔ 2 ≤ 4) := by
  obtain ⟨s, naps, h, hp, hn⟩ := shell_naps
  refine ⟨s, naps, h, ?_, ?_⟩
  · rw [(wait_clock_absolute_iff h hp hn).1 3]
    decide
  · rw [(wait_clock_absolute_iff h hp hn).1 4]
    decide

/-- One call of `awake_sleeping_process` moves the sleepers whose time the clock has passed
to the activatable queue one after the other, in the order of their times and with one time
in the order of their calls. The others stay as they are. -/
theorem sleepers_moved_in_order {s : Kernel} {naps : Naps} (h : Napped SoundSleep s naps) (now : Nat) :
    ∃ t, awakeSleepingProcess { s with counter := now } = .ok ((), t) ∧
    ∃ moved, t = moved.foldl Kernel.rouse { s with counter := now } ∧
      (∀ p, p ∈ moved ↔ p ∈ s.queue .asleep ∧ ∃ n k, naps p = some (n, k) ∧ (n + k) % 2 ^ 64 < now) ∧
      moved.Pairwise (fun a b => s.value Process.deadline a < s.value Process.deadline b ∨
        s.value Process.deadline a = s.value Process.deadline b ∧ s.value Process.stampField a < s.value Process.stampField b) ∧
      t.queue .asleep = (s.queue .asleep).filter (· ∉ moved) ∧
      (t.queue .activatable).Perm (moved ++ s.queue .activatable) := by
  obtain ⟨t, suf, ht, hw, hleft⟩ := SoundSleep.awake_woken h.reach now
  have hd := SoundSleep.dozing h.reach
  have hmem : ∀ p, p ∈ ({ s with counter := now } : Kernel).due ↔ p ∈ s.queue .asleep ∧ s.value Process.deadline p < now := by
    intro p
    simp only [Kernel.due, List.mem_filter, List.mem_reverse, decide_eq_true_eq]
    rfl
  refine ⟨t, ht, _, hw.state, fun p => ?_, ?_, ?_, hw.activatable⟩
  · rw [hmem]
    refine and_congr_right fun hp => ?_
    obtain ⟨n, k, hn, -⟩ := h.logged p hp
    rw [h.deadline hp hn]
    constructor
    · exact fun hlt => ⟨n, k, hn, Int.ofNat_lt.1 hlt⟩
    · rintro ⟨n', k', hn', hlt⟩
      rw [hn] at hn'
      cases hn'
      exact Int.ofNat_lt.2 hlt
  · have hdue : ({ s with counter := now } : Kernel).due.Sublist (s.queue .asleep).reverse := List.filter_sublist
    have horder : (s.queue .asleep).reverse.Pairwise (fun a b => s.WakesAfter b a) :=
      List.pairwise_reverse.2 (SoundSleep.napAge h.reach).order
    refine (horder.sublist hdue).imp_of_mem fun {a b} ha hb hab => ?_
    have htime : ∀ c ∈ ({ s with counter := now } : Kernel).due, s.value Process.deadline c = -s.value Process.wakeTime c := by
      intro c hc
      obtain ⟨r, hr, _⟩ := hd.ready.inv.live_of_mem ((hmem c).1 hc).1
      simpa [Kernel.value, hr] using (hd.times c ((hmem c).1 hc).1 r hr).deadline_eq.1
    rw [htime a ha, htime b hb]
    unfold Kernel.WakesAfter at hab
    omega
  · have hsplit : s.queue .asleep = suf.reverse ++ ({ s with counter := now } : Kernel).due.reverse := by
      have := congrArg List.reverse hw.split
      simpa using this
    have hrest : ∀ p ∈ suf.reverse, p ∉ ({ s with counter := now } : Kernel).due := by
      intro p hp hdue
      exact hleft p (List.mem_reverse.1 hp) ((hmem p).1 hdue).2
    rw [hw.asleep, hsplit, List.filter_append, List.filter_eq_self.2 (by simpa using hrest),
      List.filter_eq_nil_iff.2 (by simp), List.append_nil]

/-- Two children wait until 3 and the shell until 6: at the clock value 4 the call moves the
two, and leaves the shell. -/
theorem sleepers_moved_shell : ∃ s t, Reached SoundSleep s ∧ awakeSleepingProcess { s with counter := 4 } = .ok ((), t) ∧
    s.queue .asleep = [1, 3, 2] ∧ t.queue .asleep = [1] ∧ 2 ∈ t.queue .activatable ∧ 3 ∈ t.queue .activatable := by
  have hval : (runChecked (fun s e => e.napsInTime s) noteNap boot (fun _ => none) [.timer, startShell 3,
      .syscall (.waitClock 2), .resume, startShell 3, .syscall (.waitClock 2), .resume, .syscall (.waitClock 5)]).bind
        (fun v => some (v.1.queue .asleep, v.2 1, v.2 2, v.2 3)) =
          some ([1, 3, 2], some (1, 5), some (1, 2), some (1, 2)) := by decide +kernel
  obtain ⟨s, naps, h, hf⟩ := noted_of_runChecked (C := SoundSleep) (fun _ _ _ _ _ hok => .of_napsInTime hok) hval
  simp only [Option.some.injEq, Prod.mk.injEq] at hf
  obtain ⟨hasleep, h1, h2, h3⟩ := hf
  obtain ⟨t, ht, moved, -, hmoved, -, hleft, hperm⟩ := sleepers_moved_in_order h 4
  have two : 2 ∈ moved := (hmoved 2).2 ⟨by simp [hasleep], 1, 2, h2, by decide⟩
  have three : 3 ∈ moved := (hmoved 3).2 ⟨by simp [hasleep], 1, 2, h3, by decide⟩
  have shell : 1 ∉ moved := by
    intro hm
    obtain ⟨-, n, k, hn, hlt⟩ := (hmoved 1).1 hm
    rw [h1] at hn
    cases hn
    exact absurd hlt (by decide)
  refine ⟨s, t, h.reach, ht, hasleep, ?_, hperm.mem_iff.2 (List.mem_append_left _ two),
    hperm.mem_iff.2 (List.mem_append_left _ three)⟩
  rw [hleft, hasleep]
  simp [two, three, shell]

end Xinul
