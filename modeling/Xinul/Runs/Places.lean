import Xinul.Runs.Rendezvous

/-!
# The state of a process and the list it is in

`awake_sleeping_process` and the branch of `preceive` that meets a producer put a
process in the activatable queue with the state it was blocked in. Everywhere else the
two change together, so they agree as long as every such process gets the processor at
once, which is when `scheduler` writes its state.
-/

namespace Xinul

open Prog Machine

/-- A process in the activatable queue has the state for it, unless it is one of `W`. -/
def Tidy (W : Ptr → Prop) (s : Kernel) : Prop :=
  ∀ p r, s.heap p = some r → ¬ W p → r.nextPrev = some .activatable → r.state = .activatable

/-- A sleeper that is to be woken gets the processor at once. -/
def WokenAtOnce (s : Kernel) (e : Event) : Prop :=
  ∀ p x, s.heap p = some x → x.nextPrev = some .asleep → x.Overdue (e.clock s) →
    e.Ticks s ∧ ∃ c r, Running s c r ∧ Foremost s.tick p x ∧ r.prio ≤ x.prio

/-- Nobody is left in the activatable queue with the state it was blocked in, nobody
goes to sleep until a time that is past, no process in the middle of the list of a
semaphore is killed, `start_virtual` does not fail too late, and no store of `preceive`
faults when it meets a producer. -/
structure Orderly (s : Kernel) (e : Event) : Prop where
  kills : KillsAtEnd s e
  met : MetAtOnce s e
  stored : ∀ fid, e = .syscall (.preceive fid .unmapped) → s.producerMet (toInt32 fid) = none
  woken : WokenAtOnce s e
  sleeps : ∀ k c r, e.sleeps = some k → Running s c r → ¬ ({ r with wakeTime := s.wakeAt k } : Process).Overdue s.counter
  born : ¬ e.Stillborn s

section

variable {K : Kind} {W : Ptr → Prop} {H H' : Set Ptr} {s s₀ t : Kernel} {e : Event} {p c : Ptr} {x r : Process}

theorem Tidy.congr (h : Tidy W s) (heap : t.heap = s.heap) : Tidy W t := by
  intro p r hr
  rw [heap] at hr
  exact h p r hr

theorem Tidy.map {f : Process → Process} (h : Tidy W s) (hp : s.heap p = some r)
    (hf : (f r).nextPrev = some .activatable → (f r).state = .activatable ∨ W p) : Tidy W (s.mapProc p f) := by
  intro q x hx hW hn
  rw [mapProc_heap, hp] at hx
  rcases heap_update_cases hx with ⟨rfl, hv⟩ | ⟨_, hx⟩
  · cases hv
    exact (hf hn).resolve_right hW
  · exact h q x hx hW hn

/-- A process that is in no list. -/
theorem Tidy.map_unlinked {f : Process → Process} (h : Tidy W s) (hp : s.heap p = some r) (hf : (f r).nextPrev = none) :
    Tidy W (s.mapProc p f) := by
  apply h.map hp
  intro hn
  rw [hf] at hn
  cases hn

theorem Act.tidy (a : Act K H s H' t) (hi : Inv H s) (hW : ∀ p, K.stale p → W p) (h : Tidy W s) : Tidy W t := by
  cases a with
  | @write _ _ p r f hp same =>
    apply h.map hp
    rw [same.link, same.state]
    intro hn
    by_cases hw : W p
    · exact .inr hw
    · exact .inl (h p r hp hw hn)
  | set hH hp _ _ link => exact h.map_unlinked hp (link.trans (hi.unlinked hp hH).1)
  | @link _ _ p r d _ hp _ _ hstale =>
    refine Tidy.congr (h.map (f := fun r => { r with nextPrev := some d, stamp := s.insertions }) hp fun hn => ?_) rfl
    exact (hstale (Option.some.inj hn)).imp id (hW p)
  | unlink hp => exact Tidy.congr (h.map_unlinked (f := fun r => { r with nextPrev := none }) hp rfl) rfl
  | @reprio _ _ p r v hp =>
    apply h.map hp
    intro hn
    by_cases hw : W p
    · exact .inr hw
    · exact .inl (h p r hp hw hn)
  | free =>
    intro q x hx hw hn
    rcases heap_update_cases hx with ⟨_, hv⟩ | ⟨_, hx⟩
    · cases hv
    · exact h q x hx hw hn
  | alloc _ _ _ hnone =>
    intro q x hx hw hn
    rcases heap_update_cases hx with ⟨_, hv⟩ | ⟨_, hx⟩
    · cases hv
      rw [hnone] at hn
      cases hn
    · exact h q x hx hw hn
  | @birth _ _ p r _ _ hp hold _ _ _ link =>
    have hH : p ∉ H := by
      intro hm
      rw [(hi.unlinked hp hm).2] at hold
      cases hold
    have hf := hi.fits p r hp hH
    rw [Process.Fits, if_pos hold] at hf
    exact h.map_unlinked hp (link.trans hf)
  | @block _ _ p r sem _ _ _ _ _ _ _ hp =>
    refine Tidy.congr (h.map_unlinked (f := fun r => { r with
      semaphoreId := sem, state := .blockedSemaphore, stamp := s.insertions }) hp ?_) rfl
    exact (hi.unlinked hp (by simp)).1
  | other same => exact h.congr same.heap
  | _ => exact h

theorem Chain.tidy (ch : Chain K s₀ H s) (hW : ∀ p, K.stale p → W p) (h : Tidy W s₀) : Tidy W s :=
  ch.induct (P := fun _ s => Tidy W s) h fun _ _ _ _ hi h a => a.tidy hi hW h

/-- The processes the event puts in the activatable queue with their old state. -/
def Event.leaves (e : Event) (s : Kernel) (p : Ptr) : Prop :=
  (∃ x, s.heap p = some x ∧ x.nextPrev = some .asleep ∧ x.Overdue (e.clock s)) ∨
    ∃ fid b, e = .syscall (.preceive fid b) ∧ s.producerMet (toInt32 fid) = some p

/-- A producer is met only by a store that does not fault. -/
theorem Orderly.mapped {fid : Int} {b : UserPtr} (h : Orderly s (.syscall (.preceive fid b)))
    (hmet : s.producerMet (toInt32 fid) = some p) : b ≠ .unmapped := by
  rintro rfl
  rw [h.stored fid rfl] at hmet
  cases hmet

theorem Orderly.admits (h : Orderly s e) :
    ({ Kind.any with stale := e.leaves s, strand := False } : Kind).Admits False s e where
  wakes p x hx hn ho := .inl ⟨x, hx, hn, ho⟩
  sleeps k c r hk hr ho := absurd ho (h.sleeps k c r hk hr)
  meets fid b _ he hp := by
    subst he
    rw [if_neg (h.mapped hp)]
    exact .inr ⟨fid, b, rfl, hp⟩
  kills p x _ _ _ hp hx _ _ := ⟨h.kills p x hp hx, .inl trivial, .inl trivial, fun _ _ _ _ _ => .inl trivial,
    fun _ => ⟨[], False.elim, False.elim, False.elim, .inl trivial⟩, trivial⟩

/-- A sleeper that outranks everybody runs after the tick that wakes it. -/
theorem Step.sleeper_runs (h : Step s e t) (hs : Ready s) (he : e.Ticks s) (hr : Running s c r)
    (hw : Foremost s.tick p x) (hprio : r.prio ≤ x.prio) (hl : x.nextPrev = some .asleep) :
    t.currentRunningProcessPid = x.pid := by
  have hn : x.nextPrev ≠ none := by
    rw [hl]
    exact Option.some_ne_none _
  cases e with
  | timer =>
    have hwp : wp (step .timer) (fun _ t => t.currentRunningProcessPid = x.pid) (fun _ => True) s := by
      simp only [step, wp_bind, wp_get]
      refine stimer_runs hs.inv hr hw hprio ?_ hn
      split
      · exact ⟨.inl trivial, (fun h => by cases h), fun _ => trivial, trivial⟩
      · exact .user none trivial
    exact wp_ok hwp h.2
  | resume =>
    obtain ⟨r', hcur, hctx⟩ := he
    rw [hr.current] at hcur
    cases hcur
    have hwp : wp (step .resume) (fun _ t => t.currentRunningProcessPid = x.pid) (fun _ => True) s := by
      simp only [step, resume, wp_bind, wp_getCurrentProcess, hr.table, wp_derefOpt hr.heap, hctx]
      exact stimer_runs hs.inv hr hw hprio (.user none trivial) hn
    exact wp_ok hwp h.2
  | syscall sc => exact he.elim
  | keyboard k => exact he.elim
  | pageFault => exact he.elim

/-- A process the event leaves in the activatable queue runs after it. -/
theorem Step.left_runs (h : Step s e t) (hs : Ready s) (hk : Orderly s e) (hp : e.leaves s p) (hx : t.heap p = some x) :
    Running t p x := by
  have ho := h.outcome hs hk.admits False.elim (G := False) False.elim
  have ht := ho.ready hs
  rcases hp with ⟨y, hy, hl, hdue⟩ | ⟨fid, b, rfl, hmet⟩
  · obtain ⟨he, c, r, hr, hw, hprio⟩ := hk.woken p y hy hl hdue
    have hpid := h.sleeper_runs hs he hr hw hprio hl
    exact ht.running_of_pid hx (hpid.trans (ho.after.chain.pid hs.inv hy hx).symm)
  · obtain ⟨y, hy⟩ := h.met_runs hs hk.met hmet (hk.mapped hmet)
    obtain rfl : y = x := Option.some.inj (hy.heap.symm.trans hx)
    exact hy

theorem Tidy.step (h : Tidy (fun _ => False) s) (hs : Ready s) (hk : Orderly s e) (hst : Step s e t) :
    Tidy (fun _ => False) t := by
  have ho := hst.outcome hs hk.admits False.elim (G := False) False.elim
  have htidy : Tidy (e.leaves s) t := ho.after.chain.tidy (fun _ => id) fun p r hr _ => h p r hr id
  intro p x hx _ hn
  by_cases hp : e.leaves s p
  · -- the running process is in no list
    have hrun := (hst.left_runs hs hk hp hx).unlinked (ho.ready hs).inv.toCore (by simp)
    rw [hrun] at hn
    cases hn
  · exact htidy p x hx hp hn

theorem Boot.tidy (h : Boot s) : Tidy W s := fun p r hr _ _ => (h.booting.processes p r hr).2

theorem Reached.tidy (h : Reached Orderly s) :
    Ready s ∧ Tidy (fun _ => False) s ∧ AllStarted s ∧ NoneStranded ∅ s := by
  refine h.invariant (I := fun s => Ready s ∧ Tidy (fun _ => False) s ∧ AllStarted s ∧ NoneStranded ∅ s)
    (fun _ h => ⟨h.ready, h.tidy, h.allStarted, h.noneStranded⟩) fun s e t ⟨hs, htidy, hstarted, hn⟩ hk hst => ?_
  have ho := hst.outcome hs hk.admits False.elim (G := True) fun _ => ⟨hstarted, hk.born⟩
  exact ⟨ho.ready hs, htidy.step hs hk hst, ho.started trivial, ho.after.chain.noneStranded id hn⟩

/-- The state of the processes in a list. -/
def QueueHead.state : QueueHead → ProcessState
  | .activatable => .activatable
  | .asleep => .asleep
  | .blockedIo => .blockedIo
  | .dead => .killed
  | .blockedCons _ => .blockedQueue
  | .blockedProd _ => .blockedQueue

section fits

variable {running : Int}

variable (hf : r.Fits running) (hst : r.started = true)

include hf hst

variable (hact : r.nextPrev = some .activatable → r.state = .activatable)

include hact

end fits

theorem Core.mem_iff (hi : Core ∅ s) (hp : s.heap p = some r) {d : QueueHead} : p ∈ s.queue d ↔ r.nextPrev = some d := by
  rw [hi.mem d p]
  simp [hp]

end

end Xinul
