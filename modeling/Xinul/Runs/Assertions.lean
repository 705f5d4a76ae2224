import Xinul.Runs.Base

/-!
# The assertions of `queue.h`

`kill` takes its target out of a list whenever the target is not blocked on a
semaphore. A process that waits for a child is in no list, and neither is a producer
whose message a `preceive` had taken when its store faulted.
-/

namespace Xinul

open Prog Machine

/-- `kill` is not called for a process that waits for a child, neither `kill` nor
`chprio` for a record that `start_virtual` gave up, and no `preceive` takes the message
of a blocked producer to an address that is not mapped. -/
structure TargetsLinked (s : Kernel) (e : Event) : Prop where
  ends : KillsAtEnd s e
  kill : ∀ p x, e.target s = some p → s.heap p = some x → x.state.dead = false →
    x.started = true ∧ x.state ≠ .blockedWaitChild
  chprio : ∀ p x v, e.reprios s = some (p, v) → s.heap p = some x → x.started = true
  preceive : ∀ fid, e = .syscall (.preceive fid .unmapped) → s.producerMet (toInt32 fid) = none

theorem TargetsLinked.of_none {s : Kernel} {e : Event} (h : e.target s = none) (h' : e.reprios s = none)
    (hm : ∀ fid, e ≠ .syscall (.preceive fid .unmapped)) : TargetsLinked s e := by
  refine ⟨.of_none h, fun p x hp => ?_, fun p x v hp => ?_, fun fid he => absurd he (hm fid)⟩
  · rw [h] at hp
    cases hp
  · rw [h'] at hp
    cases hp

section

variable {s t : Kernel} {e : Event}

theorem TargetsLinked.admits (h : TargetsLinked s e) (hn : NoneStranded ∅ s) :
    ({ Kind.any with assert := False, strand := False } : Kind).Admits False s e where
  meets fid b p he hp := by
    split
    · next hb =>
      rw [h.preceive fid (he.trans (by rw [hb]))] at hp
      cases hp
    · trivial
  reprio p x v hp hx := by
    have hst := h.chprio p x v hp hx
    exact ⟨.inr ⟨hst, hn p x hx (by simp) hst⟩, fun _ _ => .inl trivial, fun _ => .inl trivial⟩
  kills p x _ _ _ hp hx _ hd := by
    obtain ⟨hst, hwait⟩ := h.kill p x hp hx hd
    exact ⟨h.ends p x hp hx, .inr ⟨hst, hwait, hn p x hx (by simp) hst⟩, .inl trivial,
      fun _ _ _ _ _ => .inl trivial, fun _ => ⟨[], False.elim, False.elim, False.elim, .inl trivial⟩, trivial⟩

theorem Reached.noneStranded (h : Reached TargetsLinked s) : Ready s ∧ NoneStranded ∅ s := by
  refine h.invariant (I := fun s => Ready s ∧ NoneStranded ∅ s) (fun _ h => ⟨h.ready, h.noneStranded⟩)
    fun s e t ⟨hs, hn⟩ hc hst => ?_
  have ho := hst.outcome hs (hc.admits hn) False.elim (G := False) False.elim
  exact ⟨ho.ready hs, ho.after.chain.noneStranded id hn⟩

end

end Xinul
