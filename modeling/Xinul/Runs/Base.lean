import Xinul.Proofs.Bystanders
import Xinul.Proofs.Steps

/-!
# Runs of the kernel

A run is a sequence of events from a state the kernel starts in. The results of
the other modules hold of runs whose steps meet a condition; the one they share is
that a process blocked on a semaphore is killed only when it is the first or the
last of the list, `proc_kill_diag` having no effect on the list elsewhere.
-/

namespace Xinul

open Prog Machine

/-- The states reached by runs whose steps meet `C`. -/
abbrev Reached (C : Kernel → Event → Prop) : Kernel → Prop := Reach Boot Step C

/-- The record of the running process. -/
def Kernel.caller (s : Kernel) : Option Ptr := s.pidProcessHashTable s.currentRunningProcessPid

/-- The call the process at `c` made returns `v` to it, having stored `w`. -/
def Answers (t : Kernel) (c : Ptr) (v : Int) (w : List Int) : Prop :=
  (t.heap c).map (·.context) = some (.user (some ⟨v, w⟩))

/-- A process blocked on a semaphore is killed only at an end of its list. -/
def KillsAtEnd (s : Kernel) (e : Event) : Prop :=
  ∀ p x, e.target s = some p → s.heap p = some x → x.state = .blockedSemaphore → s.AtEnd x.semaphoreId p

theorem KillsAtEnd.of_none {s : Kernel} {e : Event} (h : e.target s = none) : KillsAtEnd s e := by
  intro p x hp
  rw [h] at hp
  cases hp

section ready

variable {C : Kernel → Event → Prop} {K : Kind} {F G : Prop} {s t : Kernel} {e : Event}

theorem Boot.ready (h : Boot s) : Ready s := by
  refine ⟨h.booting.inv, h.lineage, .inl h.booting, ?_⟩
  obtain ⟨symbols, virt, idle, shell, rfl⟩ := h.eq
  rfl

theorem Boot.allStarted (h : Boot s) : AllStarted s := fun p r hp => (h.booting.processes p r hp).1

theorem Step.outcome (h : Step s e t) (hs : Ready s) (hK : K.Admits F s e) (hfam : F → Family s)
    (hG : G → AllStarted s ∧ ¬ e.Stillborn s) : Outcome K F G s t :=
  wp_ok (step_outcome hs h.1 hK hfam hG) h.2

/-- No step is refused anything. -/
theorem admits_any (h : KillsAtEnd s e) : Kind.any.Admits False s e where
  kills p x _ _ _ hp hx _ _ := ⟨h p x hp hx, .inl trivial, .inl trivial, fun _ _ _ _ _ => .inl trivial,
    fun _ => ⟨[], False.elim, False.elim, False.elim, .inl trivial⟩, trivial⟩

theorem Ready.step (hs : Ready s) (h : KillsAtEnd s e) (hst : Step s e t) : Ready t :=
  (hst.outcome hs (admits_any h) False.elim (G := False) False.elim).ready hs

theorem Reached.ready (hC : ∀ s e, C s e → KillsAtEnd s e) (h : Reached C s) : Ready s :=
  Reach.invariant (fun _ h => h.ready) (fun _ _ _ hs hc hst => hs.step (hC _ _ hc) hst) h

/-- A system call is made by the running process. -/
theorem Ready.running_of_syscall {sc : Syscall} (hs : Ready s) (h : Step s (.syscall sc) t) : ∃ c r, Running s c r := by
  refine hs.stage.resolve_left fun hb => ?_
  have he := h.1
  simp [Event.enabled, hb.running] at he

theorem Ready.running_of_caller {c : Ptr} (hs : Ready s) (h : s.caller = some c) : ∃ r, Running s c r := by
  rcases hs.stage with hb | ⟨c', r, hr⟩
  · rw [Kernel.caller, hb.table_none] at h
    cases h
  · obtain rfl : c' = c := Option.some.inj (hr.table.symm.trans h)
    exact ⟨r, hr⟩

/-- A kernel function goes on in the running process. -/
theorem Ready.running_of_resume (hs : Ready s) (h : Step s .resume t) : ∃ c r, Running s c r := by
  refine hs.stage.resolve_left fun hb => ?_
  have he := h.1
  have hcur : s.current = none := by simp [Kernel.current, hb.table_none]
  simp [Event.enabled, Kernel.inUserMode, hcur, hb.running] at he

/-- The state in which the store of a `preceive` faults is one a process can run in. -/
theorem Ready.faulted {fid : Int} {u : Kernel} {c : Ptr} {r : Process} (hs : Ready s) (hr : Running s c r)
    (hu : s.Faulted fid u) : Ready u ∧ Running u c r := by
  have m : Mid .any s ∅ s c r := hr.mid hs.inv (fun _ _ _ _ _ => trivial) trivial
  have m1 := m.faulted (fun _ _ => trivial) hu
  have hflag : u.parentBlock = s.parentBlock := by cases hu <;> rfl
  exact ⟨⟨m1.inv, m1.chain.lineage hs.lineage, .inr ⟨c, r, m1.running⟩, hflag.trans hs.unmuted⟩, m1.running⟩

/-- A `preceive` whose store faults leads to a state in which `strap_handler` kills the caller. -/
theorem Step.storeFaulted {fid : Int} {message : UserPtr} (hs : Ready s) (hst : Step s (.syscall (.preceive fid message)) t)
    (hf : s.storeFaults (toInt32 fid) message = true) :
    ∃ u c r, s.Faulted (toInt32 fid) u ∧ Ready u ∧ Running s c r ∧ Running u c r ∧ Step u .pageFault t := by
  obtain ⟨c, r, hr⟩ := hs.running_of_syscall hst
  obtain ⟨u, hu, hfault⟩ := preceiveWith_faults hs.inv.toCore hf
  obtain ⟨hsu, hru⟩ := hs.faulted hr hu
  have hpid : u.currentRunningProcessPid = s.currentRunningProcessPid := by cases hu <;> rfl
  obtain ⟨hen, hrun⟩ := hst
  refine ⟨u, c, r, hu, hsu, hr, hru, ?_, ?_⟩
  · rw [Event.enabled, Kernel.inUserMode, hr.current] at hen
    simp only [Bool.and_eq_true] at hen
    rw [Event.enabled, Kernel.inUserMode, hru.current, hpid]
    simp only [Bool.and_eq_true, Bool.or_eq_true]
    exact ⟨⟨.inl hen.1.1, hen.1.2⟩, hen.2⟩
  · exact (hfault pageFault).symm.trans hrun

/-- A `preceive` whose store does not fault has nothing to do with the handler. -/
theorem Step.stored {fid : Int} {message : UserPtr} (hst : Step s (.syscall (.preceive fid message)) t)
    (hf : s.storeFaults (toInt32 fid) message = false) (fault : KernelM Unit) :
    preceiveWith fault (toInt32 fid) message s = .ok ((), t) :=
  (preceiveWith_stores fault pageFault hf).trans hst.2

/-! ## Bystanders -/

/-- What the event may do to whom: only the process that runs it is blocked, and only it
and the process it kills are ended. -/
def Event.kind (s : Kernel) (e : Event) : Kind :=
  { Kind.any with
    acts := fun p => s.caller = some p
    kills := fun p => e.target s = some p
    reads := fun p => s.caller = some p ∧ (e.reading s).isSome = true }

theorem admits_kind (h : KillsAtEnd s e) : (e.kind s).Admits False s e where
  acts _ _ hr := hr.table
  reads _ _ _ hr hn := ⟨hr.table, by simp [hn]⟩
  kills p x _ _ _ hp hx _ _ := ⟨h p x hp hx, .inl trivial, .inl trivial, fun _ _ _ _ _ => .inl trivial,
    fun _ => ⟨[], False.elim, False.elim, False.elim, .inl trivial⟩, hp⟩

/-- A process that neither runs nor is killed goes on where it was to. -/
theorem Step.undisturbed {p : Ptr} {x : Process} (hst : Step s e t) (hs : Ready s) (hk : KillsAtEnd s e)
    (hp : s.heap p = some x) (hx : x.started = true) (hd : x.state.dead = false) (hc : s.caller ≠ some p)
    (ht : e.target s ≠ some p) : ∃ y, t.heap p = some y ∧ y.started = true ∧ x.Undisturbed y :=
  (hst.outcome hs (admits_kind hk) False.elim (G := False) False.elim).after.chain.undisturbed hp hx hd hc ht

/-! ## Answers -/

variable {c : Ptr} {r : Process} {v : Int} {w : List Int}

theorem answers_inj {v' : Int} {w' : List Int} (h : Answers t c v w) (h' : Answers t c v' w') : v = v' ∧ w = w' := by
  have := Option.some.inj (h.symm.trans h')
  simpa using this

/-- `answer` of the running process. -/
theorem wp_answer {Q : Unit → Kernel → Prop} {E : Fault → Prop} (htable : s.pidProcessHashTable s.currentRunningProcessPid = some c)
    (hc : s.heap c = some r) :
    wp (answer v w) Q E s ↔ Q () (s.mapProc c fun r => { r with context := .user (some ⟨v, w⟩) }) := by
  simp only [answer, saveContext, wp_bind, wp_getCurrentProcess, htable, wp_modifyProc hc]

theorem answers_mapProc (hc : s.heap c = some r) :
    Answers (s.mapProc c fun r => { r with context := .user (some ⟨v, w⟩) }) c v w := by
  simp [Answers, hc]

end ready

/-! ## Producers in no list -/

/-- Every process blocked on a message queue is in a list, but for those in hand. -/
def NoneStranded (H : Set Ptr) (s : Kernel) : Prop :=
  ∀ p r, s.heap p = some r → p ∉ H → r.started = true → r.state = .blockedQueue → r.nextPrev ≠ none

section stranded

variable {K : Kind} {H H' : Set Ptr} {s s₀ t : Kernel} {p : Ptr} {r : Process}

theorem NoneStranded.mono (h : NoneStranded H s) (hH : H ⊆ H') (heap : t.heap = s.heap) : NoneStranded H' t := by
  intro p r hp hm
  rw [heap] at hp
  exact h p r hp fun hc => hm (hH hc)

theorem NoneStranded.map {f : Process → Process} (h : NoneStranded H s) (hp : s.heap p = some r) (hH : H ⊆ insert p H')
    (hf : p ∉ H' → (f r).started = true → (f r).state = .blockedQueue → (f r).nextPrev ≠ none) :
    NoneStranded H' (s.mapProc p f) := by
  intro q x hx hq
  rw [mapProc_heap, hp] at hx
  rcases heap_update_cases hx with ⟨rfl, hv⟩ | ⟨hne, hx⟩
  · cases hv
    exact hf hq
  · exact h q x hx fun hc => (hH hc).elim hne hq

theorem Act.noneStranded (a : Act K H s H' t) (hK : ¬ K.strand) (h : NoneStranded H s) : NoneStranded H' t := by
  cases a with
  | hold => exact h.mono (Set.subset_insert _ _) rfl
  | @release _ _ p r _ hp _ _ hst =>
    intro q x hx hq _ hqueue
    by_cases hqp : q = p
    · subst hqp
      rw [hp] at hx
      cases hx
      exact absurd (hst hqueue) hK
    · exact h q x hx (by simp [hqp, hq]) ‹_› hqueue
  | @write _ _ p r f hp same =>
    refine h.map hp (Set.subset_insert _ _) fun hH => ?_
    rw [same.started, same.state, same.link]
    exact h p r hp hH
  | set hH hp => exact h.map hp (Set.subset_insert _ _) fun hc => absurd hH hc
  | @link _ _ p r d hH hp =>
    refine NoneStranded.mono (h.map (f := fun r => { r with nextPrev := some d, stamp := s.insertions }) hp subset_rfl
      fun _ _ _ => ?_) subset_rfl rfl
    exact Option.some_ne_none _
  | @unlink _ _ p r hd hp =>
    have hout : NoneStranded (insert p H) (s.mapProc p fun r => { r with nextPrev := none }) :=
      h.map hp (fun q hq => .inr (.inr hq)) fun hc => absurd (Set.mem_insert p H) hc
    exact hout.mono subset_rfl rfl
  | @reprio _ _ p r v hp => exact h.map hp (Set.subset_insert _ _) fun hH => h p r hp hH
  | free =>
    intro q x hx hq
    rcases heap_update_cases hx with ⟨_, hv⟩ | ⟨hne, hx⟩
    · cases hv
    · exact h q x hx fun hc => hq ⟨hc, hne⟩
  | alloc _ _ hst =>
    intro q x hx hq hstarted
    rcases heap_update_cases hx with ⟨_, hv⟩ | ⟨_, hx⟩
    · cases hv
      rw [hst] at hstarted
      cases hstarted
    · exact h q x hx hq hstarted
  | birth _ hp => exact h.map hp (fun q hq => .inr (.inr hq)) fun hc => absurd (by simp) hc
  | @block _ _ p r sem _ _ _ _ _ _ hH hp =>
    refine NoneStranded.mono (h.map (f := fun r => { r with
      semaphoreId := sem, state := .blockedSemaphore, stamp := s.insertions }) hp subset_rfl fun _ _ hc => ?_) subset_rfl rfl
    cases hc
  | unblock => exact h.mono (Set.subset_insert _ _) rfl
  | other same => exact h.mono subset_rfl same.heap
  | _ => exact h.mono subset_rfl rfl

theorem Chain.noneStranded (ch : Chain K s₀ H s) (hK : ¬ K.strand) (h : NoneStranded ∅ s₀) : NoneStranded H s :=
  ch.induct (P := fun H s => NoneStranded H s) h fun _ _ _ _ _ h a => a.noneStranded hK h

theorem Boot.noneStranded (h : Boot s) : NoneStranded ∅ s := by
  intro p r hp _ _ hqueue
  rw [(h.booting.processes p r hp).2] at hqueue
  cases hqueue

end stranded

/-! ## Runs that are computed -/

/-- The state after a sequence of events, if each can happen and returns. -/
def run (s : Kernel) : List Event → Option Kernel
  | [] => some s
  | e :: es => if e.enabled s then match step e s with
    | .ok (_, t) => run t es
    | .error _ => none
    else none

/-- The fault the event stops the kernel with. -/
def faultOf (e : Event) (s : Kernel) : Option Fault :=
  if e.enabled s then match step e s with
    | .ok _ => none
    | .error f => some f
  else none

/-- The memory `malloc` returns in the computed runs. -/
def blank : Process :=
  ⟨0, .actif, 0, .user none, none, none, none, none, none, 0, 0, ⟨0, .received, none⟩, 0, 0, 0, false⟩

/-- The state the computed runs start in. -/
def boot : Kernel := bootState [idleName, shellName] false blank blank

/-- A call of `start` for which everything can be allocated. -/
def startShell (prio : Int) : Event := .syscall (.start (some shellName) 100 prio ⟨some blank, true, true, true, true⟩)

section computed

variable {C : Kernel → Event → Prop} {s t : Kernel} {e : Event} {es : List Event}

theorem bootState_boot {symbols : List (List UInt8)} {virt : Bool} {idle shell : Process}
    (hi : idleName ∈ symbols) (hs : shellName ∈ symbols) : Boot (bootState symbols virt idle shell) := by
  refine ⟨symbols, virt, idle, shell, hi, hs, ?_⟩
  have h : wp (initializeProcessWorkflow idle shell) (fun _ t => t = bootState symbols virt idle shell)
      (fun _ => False) (Kernel.empty symbols virt) := wp_initializeProcessWorkflow hi hs
  obtain ⟨_, t, hrun, rfl⟩ := wp_returns h
  exact hrun

theorem boot_boot : Boot boot := bootState_boot (by simp) (by simp)

theorem run_reach (hs : Reached C s) (hC : ∀ u, ∀ e ∈ es, C u e) (h : run s es = some t) : Reached C t := by
  induction es generalizing s with
  | nil =>
    cases h
    exact hs
  | cons e es ih =>
    rw [run] at h
    split at h
    · next he =>
      split at h
      · next v u hst => exact ih (hs.step (hC s e (by simp)) ⟨he, hst⟩) (fun u e he => hC u e (by simp [he])) h
      · cases h
    · cases h

theorem run_step (h : run s [e] = some t) : Step s e t := by
  simp only [run] at h
  split at h
  · next he =>
    split at h
    · next v u hst =>
      cases h
      exact ⟨he, hst⟩
    · cases h
  · cases h

theorem run_path (hC : ∀ u, ∀ e ∈ es, C u e) (h : run s es = some t) : Path Step C s t := by
  have append : ∀ {u : Kernel}, Path Step C s u → run u es = some t → Path Step C s t := by
    clear h
    induction es with
    | nil =>
      intro u hu h
      cases h
      exact hu
    | cons e es ih =>
      intro u hu h
      rw [run] at h
      split at h
      · next he =>
        split at h
        · next v w hst =>
          exact ih (fun u e he => hC u e (by simp [he])) (hu.step (hC u e (by simp)) ⟨he, hst⟩) h
        · cases h
      · cases h
  exact append .refl h

theorem faultOf_faults {f : Fault} (h : faultOf e s = some f) : Faults s e f := by
  unfold faultOf at h
  split at h
  · next he =>
    split at h
    · cases h
    · next g hg =>
      cases h
      exact ⟨he, hg⟩
  · cases h

/-- Something computed about the state after the events holds of a reached state. -/
theorem reached_of_run {α : Type} {f : Kernel → Option α} {v : α} (hC : ∀ u, ∀ e ∈ es, C u e)
    (h : (run boot es).bind f = some v) : ∃ s, Reached C s ∧ f s = some v := by
  obtain ⟨s, hs, hf⟩ := Option.bind_eq_some_iff.1 h
  exact ⟨s, run_reach (.init boot_boot) hC hs, hf⟩

section notes

variable {μ : Type} {n₀ n m : μ} {note : Kernel → Event → μ → μ}

/-- The state after a sequence of events, with what is noted of them. -/
def runNoted (note : Kernel → Event → μ → μ) (s : Kernel) (n : μ) : List Event → Option (Kernel × μ)
  | [] => some (s, n)
  | e :: es => if e.enabled s then match step e s with
    | .ok (_, t) => runNoted note t (note s e n) es
    | .error _ => none
    else none

theorem runNoted_noted (hs : Noted Boot Step C n₀ note s n) (hC : ∀ u, ∀ e ∈ es, C u e)
    (h : runNoted note s n es = some (t, m)) : Noted Boot Step C n₀ note t m := by
  induction es generalizing s n with
  | nil =>
    cases h
    exact hs
  | cons e es ih =>
    rw [runNoted] at h
    split at h
    · next he =>
      split at h
      · next v u hst => exact ih (hs.step (hC s e (by simp)) ⟨he, hst⟩) (fun u e he => hC u e (by simp [he])) h
      · cases h
    · cases h

/-- Something computed about the state and the notes holds of a run. -/
theorem noted_of_run {α : Type} {f : Kernel × μ → Option α} {v : α} (hC : ∀ u, ∀ e ∈ es, C u e)
    (h : (runNoted note boot n₀ es).bind f = some v) : ∃ s n, Noted Boot Step C n₀ note s n ∧ f (s, n) = some v := by
  obtain ⟨⟨s, n⟩, hs, hf⟩ := Option.bind_eq_some_iff.1 h
  exact ⟨s, n, runNoted_noted (.init boot_boot) hC hs, hf⟩

/-- The state after a sequence of events that all pass the check `ok`, with what is noted of them. -/
def runChecked (ok : Kernel → Event → Bool) (note : Kernel → Event → μ → μ) (s : Kernel) (n : μ) :
    List Event → Option (Kernel × μ)
  | [] => some (s, n)
  | e :: es => if ok s e && e.enabled s then match step e s with
    | .ok (_, t) => runChecked ok note t (note s e n) es
    | .error _ => none
    else none

/-- A check that is enough for the condition in the states of such runs. -/
theorem noted_of_runChecked {α : Type} {ok : Kernel → Event → Bool} {f : Kernel × μ → Option α} {v : α}
    (hC : ∀ u n, ∀ e ∈ es, Noted Boot Step C n₀ note u n → ok u e = true → C u e)
    (h : (runChecked ok note boot n₀ es).bind f = some v) : ∃ s n, Noted Boot Step C n₀ note s n ∧ f (s, n) = some v := by
  have along : ∀ {s n}, Noted Boot Step C n₀ note s n → ∀ {t m}, runChecked ok note s n es = some (t, m) →
      Noted Boot Step C n₀ note t m := by
    clear h
    induction es with
    | nil =>
      intro s n hs t m h
      cases h
      exact hs
    | cons e es ih =>
      intro s n hs t m h
      rw [runChecked] at h
      split at h
      · next hok =>
        rw [Bool.and_eq_true] at hok
        split at h
        · next v u hst =>
          have hu := hs.step (hC s n e (by simp) hs hok.1) ⟨hok.2, hst⟩
          exact ih (fun u n e he => hC u n e (by simp [he])) hu h
        · cases h
      · cases h
  obtain ⟨⟨s, n⟩, hs, hf⟩ := Option.bind_eq_some_iff.1 h
  exact ⟨s, n, along (.init boot_boot) hs, hf⟩

end notes

/-- The same of a run of which nothing is noted. -/
theorem reached_of_runChecked {α : Type} {ok : Kernel → Event → Bool} {f : Kernel → Option α} {v : α}
    (hC : ∀ u, ∀ e ∈ es, Reached C u → ok u e = true → C u e)
    (h : ((runChecked ok (fun _ _ n => n) boot () es).map (·.1)).bind f = some v) : ∃ s, Reached C s ∧ f s = some v := by
  rw [Option.bind_map] at h
  obtain ⟨s, _, hs, hf⟩ := noted_of_runChecked (C := C) (fun u _ e he hu hok => hC u e he hu.reach hok) h
  exact ⟨s, hs.reach, hf⟩

/-- After boot and a timer interrupt the shell runs. -/
theorem shell_runs : ∃ s r, Reached (fun _ _ => True) s ∧ run boot [.timer] = some s ∧ Running s 1 r := by
  have hval : (run boot [.timer]).bind (fun s => if s.pidProcessHashTable s.currentRunningProcessPid = some 1 ∧
      (s.heap 1).map (fun r => (r.started, r.state)) = some (true, .actif) ∧ s.startedUserProcess = true
      then some () else none) = some () := by decide +kernel
  obtain ⟨s, hs, hf⟩ := Option.bind_eq_some_iff.1 hval
  split at hf
  · next h =>
    obtain ⟨r, hr, hstate⟩ := Option.map_eq_some_iff.1 h.2.1
    obtain ⟨hst, hact⟩ : r.started = true ∧ r.state = .actif := by simpa using hstate
    exact ⟨s, r, run_reach (.init boot_boot) (fun _ _ _ => trivial) hs, hs, h.1, hr, hst, hact, h.2.2⟩
  · cases hf

end computed

end Xinul
