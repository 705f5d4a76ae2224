import Xinul.Proofs.Exec

/-!
# What the messages and the semaphores have nothing to do with

`Apart M W s t` says that, under `M`, no message queue and no process in a call of
`psend` or `preceive` changed between `s` and `t` as far as the messages go, and the
same under `W` of the semaphores and `wait`. A function has this frame for the
messages unless it is one of `msgqueue.c`, `chprio` or `kill`, and for the
semaphores unless it is one of `semaphore_api.c` or `kill`, whatever state it
starts in.
-/

namespace Xinul

open Prog

/-- The process is in `psend` or `preceive`, after their `scheduler`. -/
def Context.mail : Context → Bool
  | .psend => true
  | .preceive _ => true
  | _ => false

/-- The process is in a call of the kinds looked at. -/
def Process.Parked (M W : Prop) (y : Process) : Prop :=
  y.started = true ∧ (M ∧ (y.state = .blockedQueue ∨ y.context.mail = true) ∨
    W ∧ (y.state = .blockedSemaphore ∨ y.context = .wait))

/-- The record was `x` and is `y`, its call being the same. -/
structure Process.Since (M W : Prop) (x y : Process) : Prop where
  started : x.started = true
  message : M → y.message = x.message
  queued : M → y.state = .blockedQueue → x.state = .blockedQueue
  mailing : M → y.context.mail = true → x.context = y.context
  signal : W → y.semSignal = x.semSignal ∧ y.semaphoreId = x.semaphoreId
  blocked : W → y.state = .blockedSemaphore → x.state = .blockedSemaphore
  waiting : W → y.context = .wait → x.context = .wait

/-- What a fault says of the state it happens in; the assertion of `copy` is only in
`cons_read`. -/
def Fault.cause (s : Kernel) : Fault → Prop
  | .wakeTimeAssert => ∃ p r, p ∈ s.queue .asleep ∧ s.heap p = some r ∧ Int.bmod (-r.wakeTime) (2 ^ 64) < 0
  | .copyAssert => False
  | _ => True

/-- The globals that few functions write. -/
structure Kernel.SameBase (s t : Kernel) : Prop where
  nextPtr : t.nextPtr = s.nextPtr
  pids : (t.nbProcRunning, t.pidProcessHashTable, t.processIdList, t.pidIterator) =
    (s.nbProcRunning, s.pidProcessHashTable, s.processIdList, s.pidIterator)
  console : t.console = s.console
  counter : t.counter = s.counter

theorem Kernel.SameBase.table {s t : Kernel} (h : s.SameBase t) : t.pidProcessHashTable = s.pidProcessHashTable := by
  have := h.pids
  simp only [Prod.mk.injEq] at this
  exact this.2.1

/-- A write that puts nobody to sleep, lets nobody begin to read and keeps the pid. -/
structure Process.Mild (r r' : Process) : Prop where
  wakeTime : r'.wakeTime = r.wakeTime
  reading : ∀ n, r'.started = true → r'.context = .consRead n → r.started = true ∧ r.context = .consRead n
  pid : r'.pid = r.pid

/-- The relation holds between the states before and after every write of the kernel, but for
those of `start`, of `wait_clock`, of the console and of the clock. -/
class HoldsOfWrites (R : Kernel → Kernel → Prop) : Prop extends IsPreorder Kernel R where
  write : ∀ s t p f, (∀ r : Process, r.Mild (f r)) → t.heap = (s.mapProc p f).heap →
    t.queue .asleep ⊆ s.queue .asleep → s.SameBase t → R s t
  globals : ∀ s t, t.heap = s.heap → t.queue .asleep ⊆ s.queue .asleep → s.SameBase t → R s t
  free : ∀ s p r, s.heap p = some r → R s (s.freeRecord p r.pid)

/-- The relation does not look at the queue of those asleep. -/
def IgnoresAsleep (R : Kernel → Kernel → Prop) : Prop :=
  ∀ s t p f, (∀ r : Process, r.Mild (f r)) → t.heap = (s.mapProc p f).heap → s.SameBase t → R s t

instance : HoldsOfWrites fun _ _ => True where
  refl _ := trivial
  trans _ _ _ _ _ := trivial
  write _ _ _ _ _ _ _ _ := trivial
  globals _ _ _ _ _ := trivial
  free _ _ _ _ := trivial

/-- Faults that may happen whatever a function does, as long as `R` holds. -/
class Spares (R : Kernel → Kernel → Prop) (E : Kernel → Fault → Prop) : Prop where
  reflects : ∀ {s t f}, R s t → E t f → E s f
  cause : ∀ {s f}, f.cause s → E s f

instance {R : Kernel → Kernel → Prop} : Spares R fun _ _ => True := ⟨fun _ _ => trivial, fun _ => trivial⟩

instance {R : Kernel → Kernel → Prop} {E : Kernel → Fault → Prop} [IsPreorder Kernel R] [Spares R E] : ReflectsFaults R E :=
  ⟨Spares.reflects⟩

theorem spares_throw {R : Kernel → Kernel → Prop} {E : Kernel → Fault → Prop} [Spares R E] {α : Type} {f : Fault}
    (h : ∀ s, f.cause s) : Guards R E (throw f : KernelM α) := .throw fun s => Spares.cause (R := R) (h s)

/-- The messages, under `M`, and the semaphores, under `W`, are as they were, and `R` holds. -/
structure Frame (M W : Prop) (R : Kernel → Kernel → Prop) (s t : Kernel) : Prop where
  queues : M → t.allQueues = s.allQueues ∧ t.msgQueue = s.msgQueue ∧ t.nextQueue = s.nextQueue
  lists : M → ∀ hd, hd.queue? ≠ none → t.queue hd = s.queue hd
  sems : W → t.semaphoreTable = s.semaphoreTable ∧ t.node = s.node ∧ t.nextNode = s.nextNode ∧
    t.semaphoreIdCounter = s.semaphoreIdCounter
  records : ∀ p y, t.heap p = some y → y.Parked M W → ∃ x, s.heap p = some x ∧ x.Since M W y
  also : R s t

/-- The messages, under `M`, and the semaphores, under `W`, are as they were. -/
abbrev Apart (M W : Prop) : Kernel → Kernel → Prop := Frame M W fun _ _ => True

section

variable {M W : Prop} {R : Kernel → Kernel → Prop} {E : Kernel → Fault → Prop} {s t u : Kernel} {p : Ptr} {r x y z : Process} {k : Context}

/-- Writing fields that have nothing to do with it. -/
theorem Process.Mild.of_eq (h : (y.started, y.context, y.wakeTime, y.pid) = (x.started, x.context, x.wakeTime, x.pid)) :
    x.Mild y := by
  simp only [Prod.mk.injEq] at h
  exact ⟨h.2.2.1, fun n hs hc => ⟨h.1 ▸ hs, h.2.1 ▸ hc⟩, h.2.2.2⟩

theorem Process.Since.refl (h : y.started = true) : y.Since M W y :=
  ⟨h, fun _ => rfl, fun _ => id, fun _ _ => rfl, fun _ => ⟨rfl, rfl⟩, fun _ => id, fun _ => id⟩

theorem Process.Since.parked (h : x.Since M W y) (hy : y.Parked M W) : x.Parked M W := by
  refine ⟨h.started, hy.2.imp (fun ⟨hm, hs⟩ => ⟨hm, hs.imp (h.queued hm) fun hc => ?_⟩)
    fun ⟨hw, hs⟩ => ⟨hw, hs.imp (h.blocked hw) (h.waiting hw)⟩⟩
  rw [h.mailing hm hc]
  exact hc

theorem Process.Since.trans (h : x.Since M W y) (h' : y.Since M W z) : x.Since M W z where
  started := h.started
  message hm := (h'.message hm).trans (h.message hm)
  queued hm hs := h.queued hm (h'.queued hm hs)
  mailing hm hc := by
    have hy := h'.mailing hm hc
    rw [h.mailing hm (hy ▸ hc), hy]
  signal hw := ⟨(h'.signal hw).1.trans (h.signal hw).1, (h'.signal hw).2.trans (h.signal hw).2⟩
  blocked hw hs := h.blocked hw (h'.blocked hw hs)
  waiting hw hc := h.waiting hw (h'.waiting hw hc)

/-- Looking at less. -/
theorem Frame.weaken {M' W' : Prop} (h : Frame M W R s t) (hm : M' → M) (hw : W' → W) : Frame M' W' R s t where
  queues h' := h.queues (hm h')
  lists h' := h.lists (hm h')
  sems h' := h.sems (hw h')
  records p y hy hp := by
    obtain ⟨x, hx, hxy⟩ := h.records p y hy ⟨hp.1, hp.2.imp (fun h => ⟨hm h.1, h.2⟩) fun h => ⟨hw h.1, h.2⟩⟩
    exact ⟨x, hx, hxy.started, fun h => hxy.message (hm h), fun h => hxy.queued (hm h), fun h => hxy.mailing (hm h),
      fun h => hxy.signal (hw h), fun h => hxy.blocked (hw h), fun h => hxy.waiting (hw h)⟩
  also := h.also

instance [IsPreorder Kernel R] : IsPreorder Kernel (Frame M W R) where
  refl s := ⟨fun _ => ⟨rfl, rfl, rfl⟩, fun _ _ _ => rfl, fun _ => ⟨rfl, rfl, rfl, rfl⟩,
    fun p y hy hp => ⟨y, hy, .refl hp.1⟩, refl_of R s⟩
  trans s t u h h' := by
    refine ⟨fun hm => ?_, fun hm hd hq => (h'.lists hm hd hq).trans (h.lists hm hd hq), fun hw => ?_,
      fun p z hz hp => ?_, trans_of R h.also h'.also⟩
    · obtain ⟨a, b, c⟩ := h.queues hm
      obtain ⟨a', b', c'⟩ := h'.queues hm
      exact ⟨a'.trans a, b'.trans b, c'.trans c⟩
    · obtain ⟨a, b, c, d⟩ := h.sems hw
      obtain ⟨a', b', c', d'⟩ := h'.sems hw
      exact ⟨a'.trans a, b'.trans b, c'.trans c, d'.trans d⟩
    · obtain ⟨y, hy, hyz⟩ := h'.records p z hz hp
      obtain ⟨x, hx, hxy⟩ := h.records p y hy (hyz.parked hp)
      exact ⟨x, hx, hxy.trans hyz⟩

/-- Only a part of the state that neither looks at changed. -/
theorem Frame.of_heap (heap : t.heap = s.heap)
    (queues : M → t.allQueues = s.allQueues ∧ t.msgQueue = s.msgQueue ∧ t.nextQueue = s.nextQueue)
    (lists : M → ∀ hd, hd.queue? ≠ none → t.queue hd = s.queue hd)
    (sems : W → t.semaphoreTable = s.semaphoreTable ∧ t.node = s.node ∧ t.nextNode = s.nextNode ∧
      t.semaphoreIdCounter = s.semaphoreIdCounter) (also : R s t) : Frame M W R s t :=
  ⟨queues, lists, sems, fun _ y hy hp => ⟨y, heap ▸ hy, .refl hp.1⟩, also⟩

/-- How a record may be written. -/
def Process.Aside (M W : Prop) (f : Process → Process) : Prop :=
  ∀ r, (f r).Parked M W → r.Since M W (f r)

/-- One record and nothing else that either looks at was written. -/
theorem Frame.map {f : Process → Process} (hf : Process.Aside M W f) (heap : t.heap = (s.mapProc p f).heap)
    (queues : M → t.allQueues = s.allQueues ∧ t.msgQueue = s.msgQueue ∧ t.nextQueue = s.nextQueue)
    (lists : M → ∀ hd, hd.queue? ≠ none → t.queue hd = s.queue hd)
    (sems : W → t.semaphoreTable = s.semaphoreTable ∧ t.node = s.node ∧ t.nextNode = s.nextNode ∧
      t.semaphoreIdCounter = s.semaphoreIdCounter) (also : R s t) : Frame M W R s t := by
  refine ⟨queues, lists, sems, fun q y hy hp => ?_, also⟩
  rw [heap] at hy
  rcases heap_update_cases hy with ⟨rfl, hv⟩ | ⟨_, hy⟩
  · obtain ⟨x, hx, rfl⟩ := Option.map_eq_some_iff.1 hv
    exact ⟨x, hx, hf x hp⟩
  · exact ⟨y, hy, .refl hp.1⟩

/-- A change of the globals that is not looked at. -/
theorem apart_modify {f : Kernel → Kernel} (heap : ∀ s, (f s).heap = s.heap) (queue : ∀ s, (f s).queue = s.queue)
    (queues : ∀ s, M → (f s).allQueues = s.allQueues ∧ (f s).msgQueue = s.msgQueue ∧ (f s).nextQueue = s.nextQueue)
    (sems : ∀ s, W → (f s).semaphoreTable = s.semaphoreTable ∧ (f s).node = s.node ∧ (f s).nextNode = s.nextNode ∧
      (f s).semaphoreIdCounter = s.semaphoreIdCounter) (also : ∀ s, R s (f s)) :
    Guards (Frame M W R) E (modify f : KernelM Unit) :=
  .modify fun s => .of_heap (heap s) (queues s) (fun _ _ _ => by rw [queue s]) (sems s) (also s)

/-- A change of the globals that have to do with neither. -/
theorem apart_globals {f : Kernel → Kernel} (heap : ∀ s, (f s).heap = s.heap) (queue : ∀ s, (f s).queue = s.queue)
    (queues : ∀ s, (f s).allQueues = s.allQueues ∧ (f s).msgQueue = s.msgQueue ∧ (f s).nextQueue = s.nextQueue)
    (sems : ∀ s, (f s).semaphoreTable = s.semaphoreTable ∧ (f s).node = s.node ∧ (f s).nextNode = s.nextNode ∧
      (f s).semaphoreIdCounter = s.semaphoreIdCounter) (also : ∀ s, R s (f s)) :
    Guards (Frame M W R) E (modify f : KernelM Unit) :=
  apart_modify heap queue (fun s _ => queues s) (fun s _ => sems s) also

instance [Spares R E] : Spares (Frame M W R) E where
  reflects h he := Spares.reflects h.also he
  cause h := Spares.cause (R := R) h

variable [HoldsOfWrites R] [Spares R E]

theorem Frame.mapProc {f : Process → Process} (hf : Process.Aside M W f)
    (hw : ∀ r : Process, r.Mild (f r)) : Frame M W R s (s.mapProc p f) :=
  .map hf rfl (fun _ => ⟨rfl, rfl, rfl⟩) (fun _ _ _ => rfl) (fun _ => ⟨rfl, rfl, rfl, rfl⟩)
    (HoldsOfWrites.write _ _ p f hw rfl (fun _ => id) ⟨rfl, rfl, rfl, rfl⟩)

/-- The fields of a record that belong to a call. -/
def Process.call (r : Process) := (r.started, r.state, r.context, r.message, r.semSignal, r.semaphoreId, r.wakeTime)

/-- Writing other fields. -/
theorem Process.Aside.of_call {f : Process → Process} (h : ∀ r, (f r).call = r.call) : Process.Aside M W f := by
  intro r hp
  have hr := h r
  simp only [Process.call, Prod.mk.injEq] at hr
  obtain ⟨started, state, context, message, signal, sem, -⟩ := hr
  exact ⟨started ▸ hp.1, fun _ => message, fun _ h => state ▸ h, fun _ _ => context.symm,
    fun _ => ⟨signal, sem⟩, fun _ h => state ▸ h, fun _ h => context ▸ h⟩

/-- Writing a state that is not one of those a call blocks in. -/
theorem Process.Aside.state (st : ProcessState) (hm : M → st ≠ .blockedQueue) (hw : W → st ≠ .blockedSemaphore) :
    Process.Aside M W fun r => { r with state := st } := fun _ hp =>
  ⟨hp.1, fun _ => rfl, fun h hs => absurd hs (hm h), fun _ _ => rfl, fun _ => ⟨rfl, rfl⟩,
    fun h hs => absurd hs (hw h), fun _ => id⟩

/-- Going on in a context that is not one of the calls. -/
theorem Process.Aside.context (hm : M → k.mail = false) (hw : W → k ≠ .wait) :
    Process.Aside M W fun r => { r with context := k } := fun _ hp =>
  ⟨hp.1, fun _ => rfl, fun _ => id, fun h hc => absurd (hc.symm.trans (hm h)) (fun h => by cases h), fun _ => ⟨rfl, rfl⟩,
    fun _ => id, fun h hc => absurd hc (hw h)⟩

/-! ## Reading and chaining -/

theorem respects_deref {R : Kernel → Kernel → Prop} [IsPreorder Kernel R] [Spares R E] (p : Ptr) :
    Guards R E (deref p) := by
  refine .bind .get fun s => ?_
  split
  · exact .pure _
  · exact spares_throw fun _ => trivial

theorem respects_derefOpt {R : Kernel → Kernel → Prop} [IsPreorder Kernel R] [Spares R E] (p : Option Ptr) :
    Guards R E (derefOpt p) := by
  cases p with
  | none => exact spares_throw fun _ => trivial
  | some p => exact respects_deref p

theorem respects_getpid {R : Kernel → Kernel → Prop} [IsPreorder Kernel R] [Spares R E] : Guards R E getpid :=
  .bind .get fun _ => .pure _

theorem respects_getCurrentProcess {R : Kernel → Kernel → Prop} [IsPreorder Kernel R] [Spares R E] :
    Guards R E getCurrentProcess := .bind respects_getpid fun _ => .bind .get fun _ => .pure _

theorem respects_validate {R : Kernel → Kernel → Prop} [IsPreorder Kernel R] [Spares R E] (p : Option Ptr) :
    Guards R E (validateActionProcessValid p) := by
  cases p with
  | none => exact .pure _
  | some p => exact .bind (respects_deref p) fun _ => .ite (.pure _) (.pure _)

theorem respects_queueWalk {R : Kernel → Kernel → Prop} [IsPreorder Kernel R] [Spares R E] {f : Process → Int} {e : Ptr}
    {v : Int} (l : List Ptr) : Guards R E (queueWalk f e v l) := by
  induction l with
  | nil => exact .pure _
  | cons c l ih => exact .bind (respects_deref c) fun r => .ite (.bind ih fun _ => .pure _) (.pure _)

theorem apart_modifyProc {f : Process → Process} (hf : Process.Aside M W f)
    (hw : ∀ r : Process, r.Mild (f r)) : Guards (Frame M W R) E (modifyProc p f) :=
  .bind (respects_deref p) fun _ => .modify fun _ => .mapProc hf hw

theorem Frame.link {hd : QueueHead} {l : List Ptr} (hq : M → hd.queue? = none) (ha : hd ≠ .asleep ∨ IgnoresAsleep R) :
    Frame M W R s (s.link p hd l) := by
  have also : R s (s.link p hd l) := by
    rcases ha with ha | hb
    · refine HoldsOfWrites.write s _ p (fun r => { r with nextPrev := some hd, stamp := s.insertions }) (fun _ => .of_eq rfl)
        rfl ?_ ⟨rfl, rfl, rfl, rfl⟩
      rw [link_queue, Function.update_of_ne ha.symm]
      exact fun _ => id
    · exact hb s _ p (fun r => { r with nextPrev := some hd, stamp := s.insertions }) (fun _ => .of_eq rfl) rfl
        ⟨rfl, rfl, rfl, rfl⟩
  refine .map (f := fun r => { r with nextPrev := some hd, stamp := s.insertions }) (.of_call fun _ => rfl) rfl (fun _ => ⟨rfl, rfl, rfl⟩)
    (fun hm d hd' => ?_) (fun _ => ⟨rfl, rfl, rfl, rfl⟩) also
  have hne : d ≠ hd := by
    rintro rfl
    exact hd' (hq hm)
  simp [Kernel.link, Kernel.mapProc, hne]

theorem Frame.unlink {hd : QueueHead} (hq : M → hd.queue? = none) : Frame M W R s (s.unlink p hd) := by
  have asleep : (s.unlink p hd).queue .asleep ⊆ s.queue .asleep := by
    by_cases hd' : .asleep = hd
    · subst hd'
      rw [unlink_queue, Function.update_self]
      exact fun _ h => List.mem_of_mem_erase h
    · rw [unlink_queue, Function.update_of_ne hd']
      exact fun _ => id
  refine .map (f := fun r => { r with nextPrev := none }) (.of_call fun _ => rfl) rfl (fun _ => ⟨rfl, rfl, rfl⟩) (fun hm d hd' => ?_)
    (fun _ => ⟨rfl, rfl, rfl, rfl⟩) (HoldsOfWrites.write s _ p (fun r => { r with nextPrev := none }) (fun _ => .of_eq rfl) rfl
      asleep ⟨rfl, rfl, rfl, rfl⟩)
  have hne : d ≠ hd := by
    rintro rfl
    exact hd' (hq hm)
  simp [Kernel.unlink, Kernel.mapProc, hne]

theorem apart_queueAdd {hd : QueueHead} {f : Process → Int} (hq : M → hd.queue? = none) (ha : hd ≠ .asleep ∨ IgnoresAsleep R) :
    Guards (Frame M W R) E (queueAdd p hd f) := by
  refine .bind (respects_deref p) fun r => ?_
  split
  · exact spares_throw fun _ => trivial
  · exact .bind .get fun s => .bind (respects_queueWalk _) fun l => .modify fun s => .link hq ha

theorem apart_queueOut {hd : QueueHead} (hq : M → hd.queue? = none) : Guards (Frame M W R) E (queueOut hd) := by
  refine .bind .get fun s => ?_
  split
  · exact .pure _
  · exact .bind (respects_deref _) fun _ => .bind (.modify fun s => .unlink hq) fun _ => .pure _

/-! ## `scheduler` -/

theorem apart_state (st : ProcessState) (hm : st ≠ .blockedQueue) (hw : st ≠ .blockedSemaphore) :
    Guards (Frame M W R) E (modifyProc p fun r => { r with state := st }) :=
  apart_modifyProc (.state st (fun _ => hm) fun _ => hw) fun _ => .of_eq rfl

theorem apart_freeProcessMemory : Guards (Frame M W R) E (freeProcessMemory p) := by
  intro s
  rw [freeProcessMemory, wp_bind]
  refine wp_deref_any (Spares.cause (R := R) trivial) fun r hr => ?_
  refine ⟨fun _ => ⟨rfl, rfl, rfl⟩, fun _ _ _ => rfl, fun _ => ⟨rfl, rfl, rfl, rfl⟩, fun q y hy hp => ?_,
    HoldsOfWrites.free s p r hr⟩
  rcases heap_update_cases hy with ⟨_, hv⟩ | ⟨_, hy⟩
  · cases hv
  · exact ⟨y, hy, .refl hp.1⟩

theorem apart_setpid (k : Int) : Guards (Frame M W R) E (setpid k) := by
  refine .bind (.bind .get fun _ => .pure _) fun o => ?_
  split
  · exact .pure _
  · exact .bind (apart_globals (fun _ => rfl) (fun _ => rfl) (fun _ => ⟨rfl, rfl, rfl⟩)
      (fun _ => ⟨rfl, rfl, rfl, rfl⟩) fun s => HoldsOfWrites.globals s _ rfl (fun _ => id) ⟨rfl, rfl, rfl, rfl⟩) fun _ => .pure _

theorem apart_awakeSleepingProcess : Guards (Frame M W R) E awakeSleepingProcess := by
  have wake : Guards (Frame M W R) E getNextWakeTime := by
    intro s
    rw [getNextWakeTime, wp_bind, wp_queueTop]
    cases hlast : (s.queue .asleep).getLast? with
    | none => exact refl_of (Frame M W R) s
    | some p =>
      dsimp only
      rw [wp_bind]
      refine wp_deref_any (Spares.cause (R := R) trivial) fun r hr => ?_
      split
      · next hneg => exact Spares.cause (R := R) ⟨p, r, List.mem_of_getLast? hlast, hr, hneg⟩
      · exact refl_of (Frame M W R) s
  have loop : ∀ n, Guards (Frame M W R) E (awakeSleepingLoop n) := by
    intro n
    induction n with
    | zero => exact spares_throw fun _ => trivial
    | succ n ih =>
      refine .bind wake fun t => .bind .get fun s => .ite ?_ (.pure _)
      refine .bind (apart_queueOut fun _ => rfl) fun o => ?_
      split
      · exact spares_throw fun _ => trivial
      · exact .bind (apart_queueAdd (fun _ => rfl) (.inl fun h => by cases h)) fun _ => ih
  exact .bind .get fun s => loop _

theorem apart_freeDeadProcess : Guards (Frame M W R) E freeDeadProcess := by
  have loop : ∀ n, Guards (Frame M W R) E (freeDeadLoop n) := by
    intro n
    induction n with
    | zero => exact spares_throw fun _ => trivial
    | succ n ih =>
      refine .bind (apart_queueOut fun _ => rfl) fun o => ?_
      split
      · exact .pure _
      · exact .bind apart_freeProcessMemory fun _ => ih
  exact .bind .get fun s => loop _

theorem apart_dispatch {k : KernelM Unit} (hk : Guards (Frame M W R) E k) : Guards (Frame M W R) E (dispatch p k) :=
  .bind (apart_queueOut fun _ => rfl) fun _ => .bind (respects_deref p) fun _ =>
    .bind (apart_setpid _) fun _ => .ite (.pure _) hk

theorem apart_scheduleNext : Guards (Frame M W R) E scheduleNext := by
  have started : Guards (Frame M W R) E (modify fun s : Kernel => { s with startedUserProcess := true }) :=
    apart_globals (fun _ => rfl) (fun _ => rfl) (fun _ => ⟨rfl, rfl, rfl⟩) (fun _ => ⟨rfl, rfl, rfl, rfl⟩)
      fun s => HoldsOfWrites.globals s _ rfl (fun _ => id) ⟨rfl, rfl, rfl, rfl⟩
  refine .bind respects_getpid fun pid => .ite ?_ (.bind .get fun s => .ite ?_ ?_)
  · refine .bind (.bind .get fun _ => .pure _) fun o => ?_
    split
    · exact .pure _
    · exact apart_dispatch (.bind (apart_state _ (fun h => by cases h) (fun h => by cases h)) fun _ => started)
  · refine .bind respects_getCurrentProcess fun o => ?_
    split
    · exact .pure _
    · exact started
  · refine .bind respects_getCurrentProcess fun o => .bind (.bind .get fun _ => .pure _) fun o' => ?_
    split
    · refine .bind (respects_deref _) fun c => .ite ?_ (.ite ?_ ?_)
      · refine .bind (respects_deref _) fun r => .ite ?_ (.pure _)
        exact apart_dispatch (.bind (apart_state _ (fun h => by cases h) (fun h => by cases h)) fun _ => .bind (apart_state _ (fun h => by cases h) (fun h => by cases h)) fun _ =>
          apart_queueAdd (fun _ => rfl) (.inl fun h => by cases h))
      · exact .bind (apart_queueAdd (fun _ => rfl) (.inl (fun h => by cases h))) fun _ => apart_dispatch (apart_state _ (fun h => by cases h) (fun h => by cases h))
      · exact apart_dispatch (apart_state _ (fun h => by cases h) (fun h => by cases h))
    · exact .pure _

theorem apart_scheduler : Guards (Frame M W R) E scheduler :=
  .bind apart_awakeSleepingProcess fun _ => .bind apart_freeDeadProcess fun _ => apart_scheduleNext

/-- Only `cons_read` leaves a process in its own context. -/
theorem apart_saveContext (hm : M → k.mail = false) (hw : W → k ≠ .wait)
    (hr : (∀ n, k ≠ .consRead n) ∨ ∀ s p, R s (s.mapProc p fun r => { r with context := k })) :
    Guards (Frame M W R) E (saveContext k) := by
  refine .bind respects_getCurrentProcess fun o => ?_
  split
  · exact .pure _
  · next c =>
    rcases hr with hr | hr
    · exact apart_modifyProc (.context hm hw) fun _ => ⟨rfl, fun n _ hc => absurd hc (hr n), rfl⟩
    · exact .bind (respects_deref c) fun _ => .modify fun s => .map (.context hm hw) rfl (fun _ => ⟨rfl, rfl, rfl⟩)
        (fun _ _ _ => rfl) (fun _ => ⟨rfl, rfl, rfl, rfl⟩) (hr s c)

theorem apart_schedule (hm : M → k.mail = false) (hw : W → k ≠ .wait)
    (hr : (∀ n, k ≠ .consRead n) ∨ ∀ s p, R s (s.mapProc p fun r => { r with context := k })) :
    Guards (Frame M W R) E (schedule k) :=
  .bind (apart_saveContext hm hw hr) fun _ => apart_scheduler

theorem apart_answer (v : Int) (w : List Int) : Guards (Frame M W R) E (answer v w) :=
  apart_saveContext (fun _ => rfl) (fun _ h => by cases h) (.inl fun _ h => by cases h)

theorem apart_scheduleAnswer (v : Int) (w : List Int) : Guards (Frame M W R) E (scheduleAnswer v w) :=
  apart_schedule (fun _ => rfl) (fun _ h => by cases h) (.inl fun _ h => by cases h)

/-! ## `semaphore_api.c` -/

section semaphore

variable {sem : Int} {n : NodePtr}

theorem apart_derefSem : Guards (Frame M W R) E (derefSem sem) := by
  refine .bind .get fun s => ?_
  split
  · exact .pure _
  · exact spares_throw fun _ => trivial

theorem apart_derefNode : Guards (Frame M W R) E (derefNode n) := by
  refine .bind .get fun s => ?_
  split
  · exact .pure _
  · exact spares_throw fun _ => trivial

theorem apart_modifySem {f : Semaphore → Semaphore} : Guards (Frame M False R) E (modifySem sem f) :=
  .bind apart_derefSem fun _ => apart_modify (fun _ => rfl) (fun _ => rfl) (fun _ _ => ⟨rfl, rfl, rfl⟩)
    (fun _ => False.elim) fun s => HoldsOfWrites.globals s _ rfl (fun _ => id) ⟨rfl, rfl, rfl, rfl⟩

theorem apart_setNextBlockStruct {next : Option NodePtr} : Guards (Frame M False R) E (setNextBlockStruct n next) :=
  .bind apart_derefNode fun _ => apart_modify (fun _ => rfl) (fun _ => rfl) (fun _ _ => ⟨rfl, rfl, rfl⟩)
    (fun _ => False.elim) fun s => HoldsOfWrites.globals s _ rfl (fun _ => id) ⟨rfl, rfl, rfl, rfl⟩

theorem apart_semSignal {v : Int} : Guards (Frame M False R) E (modifyProc p fun r => { r with semSignal := v }) :=
  apart_modifyProc (fun _ hp => ⟨hp.1, fun _ => rfl, fun _ => id, fun _ _ => rfl, False.elim, False.elim, False.elim⟩)
    fun _ => .of_eq rfl

theorem apart_beforeTail {tail : Option NodePtr} (i : Nat) : Guards (Frame M W R) E (beforeTail tail i n) := by
  induction i generalizing n with
  | zero => exact spares_throw fun _ => trivial
  | succ i ih =>
    refine .bind apart_derefNode fun nd => .ite (.pure _) ?_
    split
    · exact spares_throw fun _ => trivial
    · exact ih

theorem apart_removeMiddle {pid : Int} (i : Nat) (o : Option NodePtr) :
    Guards (Frame M False R) E (removeMiddle pid i o n) := by
  induction i generalizing n o with
  | zero => exact spares_throw fun _ => trivial
  | succ i ih =>
    cases o with
    | none => exact .pure _
    | some iter =>
      refine .bind apart_derefNode fun nd => .bind (respects_deref _) fun r => .ite ?_ (ih _)
      exact .bind apart_setNextBlockStruct fun _ => .pure _

theorem apart_removeFinish {signal : Int} : Guards (Frame M False R) E (removeFinish signal n) := by
  have rest : ∀ p, Guards (Frame M False R) E (do
      modifyProc p fun r => { r with semSignal := signal }
      pure (0 : Int)) := fun p => .bind apart_semSignal fun _ => .pure _
  refine .bind apart_derefNode fun nd => .bind (apart_state _ (fun h => by cases h) (fun h => by cases h)) fun _ => ?_
  exact .ite (.bind (apart_queueAdd (fun _ => rfl) (.inl fun h => by cases h)) fun _ => rest _) (rest _)

theorem apart_removeProcQueue {signal pid : Int} : Guards (Frame M False R) E (removeProcQueue sem signal pid) := by
  refine .bind apart_derefSem fun st => ?_
  split
  · exact .pure _
  · exact .pure _
  · refine .bind apart_derefNode fun hd => .ite (.bind (respects_deref _) fun r => .ite ?_ (.pure _))
      (.bind (respects_deref _) fun r => .ite ?_ ?_)
    · exact .bind apart_modifySem fun _ => apart_removeFinish
    · exact .bind apart_modifySem fun _ => apart_removeFinish
    · split
      · exact spares_throw fun _ => trivial
      · refine .bind apart_derefNode fun nd => .bind (respects_deref _) fun r => .ite ?_ ?_
        · refine .bind .get fun s => .bind (apart_beforeTail _) fun iter => ?_
          exact .bind apart_setNextBlockStruct fun _ => .bind apart_modifySem fun _ => apart_removeFinish
        · refine .bind .get fun s => .bind (apart_removeMiddle _ _) fun o => ?_
          split
          · exact .pure _
          · exact apart_removeFinish

theorem apart_unblockProcessSem {signal : Int} : Guards (Frame M False R) E (unblockProcessSem sem signal) := by
  refine .bind apart_derefSem fun st => ?_
  split
  · exact .pure _
  · exact .pure _
  · have wake : ∀ p, Guards (Frame M False R) E (do
        modifyProc p fun r => { r with state := .activatable }
        queueAdd p .activatable Process.prioField
        modifyProc p fun r => { r with semSignal := signal }
        pure (0 : Int)) := fun p => .bind (apart_state _ (fun h => by cases h) (fun h => by cases h)) fun _ =>
      .bind (apart_queueAdd (fun _ => rfl) (.inl fun h => by cases h)) fun _ => .bind apart_semSignal fun _ => .pure _
    exact .bind apart_derefNode fun hd => .ite (.bind apart_modifySem fun _ => wake _)
      (.bind apart_modifySem fun _ => wake _)

theorem apart_unblockAll {signal : Int} (i : Nat) : Guards (Frame M False R) E (unblockAll sem signal i) := by
  induction i with
  | zero => exact spares_throw fun _ => trivial
  | succ i ih => exact .bind apart_unblockProcessSem fun _ => .ite ih (.pure _)

theorem apart_procKillDiag {pid : Int} : Guards (Frame M False R) E (procKillDiag sem pid) := by
  refine .bind (.bind .get fun _ => .pure _) fun o => ?_
  split
  · exact .pure _
  · refine .ite (.pure _) (.bind apart_modifySem fun _ => .ite ?_ (.pure _))
    exact .bind apart_removeProcQueue fun _ => .pure _

theorem apart_signalStep : Guards (Frame M False R) E (signalStep sem) := by
  refine .bind (.bind .get fun _ => .pure _) fun o => ?_
  split
  · exact .pure _
  · refine .ite (.pure _) (.bind apart_modifySem fun _ => .ite ?_ (.pure _))
    exact .bind apart_unblockProcessSem fun _ => .pure _

theorem apart_signalnLoop (i : Nat) : Guards (Frame M False R) E (signalnLoop sem i) := by
  induction i with
  | zero => exact .pure _
  | succ i ih => exact .bind apart_signalStep fun _ => .ite (.pure _) ih

end semaphore

end

end Xinul
