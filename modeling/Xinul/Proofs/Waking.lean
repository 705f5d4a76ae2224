import Xinul.Proofs.Sleeping

/-!
# Who is woken, and in which order

The queue of those asleep is served from its end. `awake_sleeping_process` takes off the
sleepers whose time is up one after the other, the first to wake first, and among those
with one wake-up time the one that has slept longest.
-/

namespace Xinul

open Prog Waiting

/-- The number of the insertion that chained the process. -/
def Process.stampField (r : Process) : Int := r.stamp

/-- Of two sleepers, `b` wakes first, or both wake at one time and `b` called first. -/
def Kernel.WakesAfter (s : Kernel) (a b : Ptr) : Prop :=
  s.value Process.wakeTime a < s.value Process.wakeTime b ∨
    s.value Process.wakeTime a = s.value Process.wakeTime b ∧ s.value Process.stampField b < s.value Process.stampField a

/-- The queue is in the order its members are woken in, from its end on. -/
structure NapAge (s : Kernel) : Prop where
  order : (s.queue .asleep).Pairwise s.WakesAfter
  stamped : ∀ p ∈ s.queue .asleep, s.value Process.stampField p < s.insertions

/-- The sleepers whose time is up, from the end of the queue on. -/
def Kernel.due (s : Kernel) : List Ptr :=
  (s.queue .asleep).reverse.filter fun p => s.value Process.deadline p < s.counter

/-- One sleeper is moved to the activatable queue. -/
def Kernel.rouse (s : Kernel) (p : Ptr) : Kernel :=
  match s.heap p with
  | some r => s.awaken p r
  | none => s

section age

variable {K : Kind} {H H' : Set Ptr} {s s₀ t : Kernel} {p q : Ptr}

theorem NapAge.napOrder (h : NapAge s) : NapOrder s := by
  refine h.order.imp fun {a b} hab => ?_
  obtain hlt | ⟨heq, -⟩ := hab
  · exact hlt.le
  · exact heq.le

theorem Kernel.WakesAfter.congr (h : s.WakesAfter p q)
    (time : ∀ c ∈ [p, q], t.value Process.wakeTime c = s.value Process.wakeTime c)
    (stamp : ∀ c ∈ [p, q], t.value Process.stampField c = s.value Process.stampField c) : t.WakesAfter p q := by
  unfold Kernel.WakesAfter at h ⊢
  rwa [time p (by simp), time q (by simp), stamp p (by simp), stamp q (by simp)]

theorem Act.napAge (a : Act K H s H' t) (hi : Inv H s) (h : NapAge s) : NapAge t := by
  have time : ∀ q ∈ s.queue .asleep, t.value Process.wakeTime q = s.value Process.wakeTime q := fun q hq =>
    a.wakeTime_eq hi hq
  have stamp : ∀ q ∈ s.queue .asleep, t.value Process.stampField q = s.value Process.stampField q := fun q hq =>
    a.sleeper_eq (g := Process.stampField) (fun r r' _ hs => by simp [Process.stampField, hs]) hi hq
  have same : ∀ {a b}, a ∈ s.queue .asleep → b ∈ s.queue .asleep → s.WakesAfter a b → t.WakesAfter a b := by
    intro a b ha hb hab
    refine hab.congr (fun c hc => time c ?_) fun c hc => stamp c ?_
    all_goals
      obtain rfl | rfl : c = a ∨ c = b := by simpa using hc
      · exact ha
      · exact hb
  have old : ∀ q ∈ s.queue .asleep, t.value Process.stampField q < t.insertions := by
    intro q hq
    have h1 := h.stamped q hq
    have h2 := a.insertions_le
    rw [stamp q hq]
    omega
  have kept : (t.queue .asleep).Sublist (s.queue .asleep) → NapAge t := fun hsub =>
    ⟨(h.order.sublist hsub).imp_of_mem fun ha hb hab => same (hsub.subset ha) (hsub.subset hb) hab,
      fun p hp => old p (hsub.subset hp)⟩
  cases a with
  | @link _ _ p r d hH hp =>
    by_cases hd : d = .asleep
    · subst hd
      have hpt : (s.link p .asleep (s.inserted p r .asleep)).value Process.wakeTime p = r.wakeTime := by
        simp [Kernel.value, hp]
      have hps : (s.link p .asleep (s.inserted p r .asleep)).value Process.stampField p = s.insertions := by
        simp [Kernel.value, hp, Process.stampField]
      have hvp : QueueHead.asleep.field r = r.wakeTime := rfl
      have hv : ∀ c, s.value QueueHead.asleep.field c = s.value Process.wakeTime c := fun _ => rfl
      refine ⟨?_, fun c hc => ?_⟩
      · rw [link_queue, Function.update_self]
        refine pairwise_insertWhile (h.order.imp_of_mem fun ha hb hab => same ha hb hab) (fun c hc hlt => ?_)
          (fun c hc hge => ?_) fun a ha b hb hab hlt => ?_
        · left
          rw [hpt, time c hc]
          simpa only [decide_eq_true_eq, hv, hvp] using hlt
        · unfold Kernel.WakesAfter
          rw [hpt, hps, time c hc, stamp c hc]
          have := h.stamped c hc
          simp only [decide_eq_false_iff_not, hv, hvp] at hge
          omega
        · unfold Kernel.WakesAfter at hab
          rw [time a ha, time b hb] at hab
          simp only [decide_eq_true_eq, hv] at hlt ⊢
          omega
      · rw [link_queue, Function.update_self] at hc
        obtain rfl | hm := mem_insertWhile.1 hc
        · rw [hps]
          exact Int.ofNat_lt.2 (Nat.lt_succ_self _)
        · exact old c hm
    · refine kept ?_
      simp [Ne.symm hd]
  | @unlink _ _ p r d =>
    refine kept ?_
    by_cases hd : QueueHead.asleep = d
    · subst hd
      simpa using List.erase_sublist
    · simp [hd]
  | other same => exact kept (by rw [same.queue])
  | _ => exact kept (List.Sublist.refl _)

theorem Chain.napAge (ch : Chain K s₀ H s) (h : NapAge s₀) : NapAge s :=
  ch.induct (P := fun _ s => NapAge s) h fun _ _ _ _ hi h a => a.napAge hi h

end age

/-! ## `awake_sleeping_process` -/

section waking

variable {s u : Kernel} {p : Ptr} {r : Process} {pre suf : List Ptr}

/-- The sleepers `pre` have been woken, one after the other, and `suf` have not, from the
end of the queue on. -/
structure Woken (s : Kernel) (pre suf : List Ptr) (u : Kernel) : Prop where
  split : (s.queue .asleep).reverse = pre ++ suf
  state : u = pre.foldl Kernel.rouse s
  asleep : u.queue .asleep = suf.reverse
  activatable : (u.queue .activatable).Perm (pre ++ s.queue .activatable)
  late : ∀ p ∈ pre, s.value Process.deadline p < s.counter
  inv : Inv ∅ u
  order : NapOrder u
  slept : Slept True s u

/-- Nobody has been woken. -/
theorem Woken.refl (hi : Inv ∅ s) (ho : NapOrder s) : Woken s [] (s.queue .asleep).reverse s :=
  ⟨rfl, rfl, by simp, .refl _, by simp, hi, ho, refl_of (Slept True) s⟩

/-- The record of somebody who has not been woken is as it was, as far as its time goes. -/
theorem Woken.deadline (h : Woken s pre suf u) (hi : Inv ∅ s) (hp : p ∈ suf) (hr : u.heap p = some r) :
    s.value Process.deadline p = r.deadline := by
  have hmem : p ∈ u.queue .asleep := by simpa [h.asleep] using hp
  obtain ⟨x, hx, _⟩ := hi.live_of_mem (h.slept.asleep hmem)
  obtain ⟨y, hy, hyr⟩ := h.slept.wakeTime p hmem (hi.fresh p x hx) r hr
  simp [Kernel.value, hy, Process.deadline, hyr]

/-- The next one is woken. -/
theorem Woken.turn (h : Woken s pre (p :: suf) u) (hi : Inv ∅ s) (hp : u.heap p = some r)
    (hn : r.nextPrev = some .asleep) (hover : r.Overdue u.counter) : Woken s (pre ++ [p]) suf (u.awaken p r) := by
  have ch := Chain.awaken (K := .any) (.refl h.inv) trivial hp hn trivial
  have hslept : Slept True u (u.awaken p r) :=
    trans_of (Slept True) (Frame.unlink (M := False) (W := False) (p := p) False.elim).also
      (Frame.link (M := False) (W := False) (p := p) False.elim (.inl ((fun h => by cases h) : QueueHead.activatable ≠ .asleep))).also
  have hasleep : u.queue .asleep = suf.reverse ++ [p] := by rw [h.asleep, List.reverse_cons]
  have hnodup := h.inv.nodup .asleep
  rw [hasleep, List.nodup_append] at hnodup
  have hnot : p ∉ suf.reverse := fun hm => hnodup.2.2 p hm p (by simp) rfl
  refine ⟨by simp [h.split], ?_, ?_, ?_, ?_, ch.inv, ch.napOrder h.order, trans_of (Slept True) h.slept hslept⟩
  · rw [List.foldl_append, ← h.state]
    simp [Kernel.rouse, hp]
  · simp only [Kernel.awaken, link_queue, unlink_queue]
    rw [Function.update_of_ne (by decide), Function.update_self, hasleep, List.erase_append_right _ hnot]
    simp
  · simp only [Kernel.awaken, link_queue, Function.update_self]
    refine (Kernel.inserted_perm _).trans ?_
    rw [unlink_queue, Function.update_of_ne (by decide), List.append_assoc, List.singleton_append]
    exact (h.activatable.cons p).trans List.perm_middle.symm
  · intro q hq
    obtain hq | hq := List.mem_append.1 hq
    · exact h.late q hq
    · obtain rfl : q = p := by simpa using hq
      rw [h.deadline hi (by simp) hp, ← h.slept.counter trivial]
      exact hover.2

/-- When the next one has time left, those that were woken are those whose time was up. -/
theorem Woken.due (h : Woken s pre suf u) (hi : Inv ∅ s) (ht : Timetable s) (hrest : u.Rested) :
    s.due = pre ∧ ∀ p ∈ suf, ¬ s.value Process.deadline p < s.counter := by
  have hleft : ∀ p ∈ suf, ¬ s.value Process.deadline p < s.counter := by
    intro p hp hlt
    obtain ⟨r, hr, hn, _⟩ := h.inv.live_of_mem (p := p) (d := .asleep) (by simpa [h.asleep] using hp)
    have htimes := ht.slept hi h.slept
    have hpos := (htimes p (by simpa [h.asleep] using hp) r hr).deadline_eq.2
    rw [h.deadline hi hp hr, ← h.slept.counter trivial] at hlt
    exact hrest.noneDue h.inv h.order htimes p r hr hn ⟨hpos, hlt⟩
  refine ⟨?_, hleft⟩
  rw [Kernel.due, h.split, List.filter_append, List.filter_eq_self.2 (by simpa using h.late),
    List.filter_eq_nil_iff.2 (by simpa using hleft), List.append_nil]

/-- `awake_sleeping_process` returns, having woken those whose time is up, in order. -/
theorem awake_woken (hi : Inv ∅ s) (ho : NapOrder s) (ht : Timetable s) :
    ∃ t suf, awakeSleepingProcess s = .ok ((), t) ∧ Woken s s.due suf t ∧
      ∀ p ∈ suf, ¬ s.value Process.deadline p < s.counter := by
  have hloop : wp awakeSleepingProcess (fun _ u => (∃ pre suf, Woken s pre suf u) ∧ u.Rested) (· = .wakeTimeAssert) s := by
    refine wp_awakeSleepingProcess (fun u hu => hu.elim fun _ hu => hu.elim fun _ hu => hu.inv) rfl ?_
      ⟨[], _, .refl hi ho⟩
    rintro u l p r ⟨pre, suf, hu⟩ hq hp hn hover
    obtain rfl : suf = p :: l.reverse := by
      have := congrArg List.reverse (hu.asleep.symm.trans hq)
      simpa using this
    exact ⟨_, _, hu.turn hi hp hn hover⟩
  have hassert := apart_awakeSleepingProcess (M := False) (W := False) (R := Slept True) (E := Alarm True) s
  cases hrun : awakeSleepingProcess s with
  | error f =>
    obtain rfl := wp_error hloop hrun
    exact ((wp_error hassert hrun).absent hi ht).elim
  | ok v =>
    obtain ⟨⟨pre, suf, hw⟩, hrest⟩ := wp_ok hloop (a := v.1) (t := v.2) hrun
    obtain ⟨hdue, hleft⟩ := hw.due hi ht hrest
    exact ⟨v.2, suf, rfl, hdue.symm ▸ hw, hleft⟩

end waking

end Xinul
