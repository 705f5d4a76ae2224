import Mathlib.Data.Set.Insert
import Xinul.Kernel.Machine
import Xinul.Lib.Seg
import Xinul.Lib.Insert

/-!
# Where every process is

The state field of a process tells the kernel which list to take it out of.
`Process.Fits` is the agreement between the two that the code keeps in spite of
the two wake-ups that forget the state field: a woken sleeper and a producer met
by `preceive` sit in the activatable queue as `asleep` and `blockedQueue`. When that
`preceive` is killed before it has chained the producer, the producer is in no list.

`Inv H s` is the invariant of the scheduling state. The processes in `H` are in
the hands of the kernel function that is running: they are in no list, and
their state field may say anything. A record that `start_virtual` gave up is in
no list for ever.
-/

namespace Xinul

open Linked

/-- The message queue a list head belongs to. -/
def QueueHead.queue? : QueueHead → Option QueuePtr
  | .blockedCons q => some q
  | .blockedProd q => some q
  | _ => none

/-- The state of a record agrees with the list it is chained in; `running` is the
pid of the running process. -/
def Process.Fits (r : Process) (running : Int) : Prop :=
  if r.started = false then r.nextPrev = none
  else match r.state with
  | .actif => r.nextPrev = none ∧ r.pid = running
  | .activatable => r.nextPrev = some .activatable
  | .asleep => r.nextPrev = some .asleep ∨ r.nextPrev = some .activatable
  | .blockedIo => r.nextPrev = some .blockedIo
  | .blockedQueue => ∃ h, (∃ q, h.queue? = some q) ∧ r.message.blockedHead = some h ∧
      (r.nextPrev = some h ∨ r.nextPrev = some .activatable ∨ r.nextPrev = none)
  | .killed => r.nextPrev = some .dead ∨ r.nextPrev = none ∧ r.pid = running
  | .blockedSemaphore => r.nextPrev = none
  | .blockedWaitChild => r.nextPrev = none
  | .zombie => r.nextPrev = none

/-- The contexts the idle process can be in: it is only ever interrupted. -/
def Context.interrupted : Context → Prop
  | .user _ => True
  | .stimer => True
  | _ => False

/-- The contexts of a process that has ended itself. -/
def Context.final : Context → Bool
  | .exitProcess => true
  | .killSelf _ _ => true
  | .pageFault _ _ => true
  | _ => false

/-- Pids in use and pids to be used again are different and were handed out. -/
structure PidPool (s : Kernel) : Prop where
  used : ∀ p r, s.heap p = some r → 1 ≤ r.pid ∧ r.pid ≤ s.pidIterator
  free : ∀ k ∈ s.processIdList, 1 ≤ k ∧ k ≤ s.pidIterator ∧ s.pidProcessHashTable k = none
  nodup : s.processIdList.Nodup
  pos : 0 ≤ s.pidIterator

/-- The invariant of the scheduling state but for the semaphores, with the
processes in `H` taken out. -/
structure Core (H : Set Ptr) (s : Kernel) : Prop where
  fresh : ∀ p r, s.heap p = some r → p < s.nextPtr
  table : ∀ k p, s.pidProcessHashTable k = some p → ∃ r, s.heap p = some r ∧ r.pid = k
  pidOf : ∀ p r, s.heap p = some r → s.pidProcessHashTable r.pid = some p
  pool : PidPool s
  nodup : ∀ h, (s.queue h).Nodup
  mem : ∀ h p, p ∈ s.queue h ↔ ∃ r, s.heap p = some r ∧ r.nextPrev = some h
  held : ∀ p ∈ H, ∃ r, s.heap p = some r ∧ r.nextPrev = none ∧ r.started = true
  fits : ∀ p r, s.heap p = some r → p ∉ H → r.Fits s.currentRunningProcessPid
  contexts : ∀ p r, s.heap p = some r → r.started = true → r.context.final = true →
    r.state.dead = true
  queues : ∀ p r h q, s.heap p = some r → r.nextPrev = some h → h.queue? = some q →
    (s.msgQueue q).isSome
  queueIds : ∀ q, (s.msgQueue q).isSome → q < s.nextQueue
  idle : ∃ p r, s.pidProcessHashTable idleId = some p ∧ s.heap p = some r ∧ r.started = true ∧
    (r.state = .actif ∨ r.state = .activatable) ∧ r.context.interrupted

/-! ## Semaphores -/

/-- `head_blocked`, `NULL` when there is no header yet. -/
def Semaphore.head (st : Semaphore) : Option NodePtr := st.listHeaderProcess.bind (·.headBlocked)

/-- `tail_blocked`, `NULL` when there is no header yet. -/
def Semaphore.tail (st : Semaphore) : Option NodePtr := st.listHeaderProcess.bind (·.tailBlocked)

/-- The successor of a node. -/
def Kernel.nextBlock (s : Kernel) (n : NodePtr) : Option NodePtr :=
  (s.node n).bind (·.nextBlockStruct)

/-- The process a node stands for. -/
def Kernel.blockedAt (s : Kernel) (n : NodePtr) : Option Ptr := (s.node n).map (·.blockedProcess)

/-- The blocked list of a semaphore: the nodes from `head_blocked` on are `ns`,
`tail_blocked` is the last of them, and they stand for the processes `ps`. -/
structure Blocked (s : Kernel) (st : Semaphore) (ns : List NodePtr) (ps : List Ptr) : Prop where
  chain : Seg s.nextBlock st.head ns none
  tail : st.tail = ns.getLast?
  procs : ns.map s.blockedAt = ps.map some
  bound : ∀ n ∈ ns, n < s.nextNode

/-- The process `p` waits for the semaphore `sem`. -/
def WaitsFor (H : Set Ptr) (s : Kernel) (p : Ptr) (sem : Int) : Prop :=
  p ∉ H ∧ ∃ r, s.heap p = some r ∧ r.started = true ∧ r.state = .blockedSemaphore ∧
    r.semaphoreId = sem

theorem WaitsFor.state {H : Set Ptr} {s : Kernel} {p : Ptr} {sem : Int} {r : Process} (h : WaitsFor H s p sem)
    (hp : s.heap p = some r) : r.state = .blockedSemaphore := by
  obtain ⟨-, x, hx, -, hstate, -⟩ := h
  rw [hp] at hx
  cases hx
  exact hstate

/-- The blocked list of a semaphore holds the processes that wait for it, once
each, and no more than its count tells. -/
structure Waiters (H : Set Ptr) (s : Kernel) (sem : Int) (st : Semaphore) (ps : List Ptr) : Prop where
  list : ∃ ns, Blocked s st ns ps
  nodup : ps.Nodup
  mem : ∀ p, p ∈ ps ↔ WaitsFor H s p sem
  room : ps.length ≤ (-st.count).toNat

/-- The invariant of the semaphores. -/
structure Sems (H : Set Ptr) (s : Kernel) : Prop where
  lists : ∀ sem st, s.semaphoreTable sem = some st → ∃ ps, Waiters H s sem st ps
  waiting : ∀ p sem, WaitsFor H s p sem → (s.semaphoreTable sem).isSome
  ids : ∀ sem st, s.semaphoreTable sem = some st → sem ≤ s.semaphoreIdCounter

/-- The invariant of the scheduling state. -/
structure Inv (H : Set Ptr) (s : Kernel) : Prop extends Core H s where
  sems : Sems H s

/-! ## Reading the invariant -/

section reading

variable {H : Set Ptr} {s t : Kernel} {p q : Ptr} {r r' : Process}

theorem Process.Fits.linked {running : Int} (h : r.Fits running) {hd : QueueHead}
    (hl : r.nextPrev = some hd) : r.started = true ∧ r.state ≠ .actif ∧
      r.state ≠ .blockedSemaphore ∧ r.state ≠ .blockedWaitChild ∧ r.state ≠ .zombie := by
  cases hb : r.started <;> cases hs : r.state <;> simp_all [Process.Fits]

/-- Only the running process can stop fitting when another one becomes the
running process. -/
theorem Process.Fits.of_ne {a b : Int} (h : r.Fits a) (hne : r.pid ≠ a) : r.Fits b := by
  cases hb : r.started <;> cases hs : r.state <;> simp_all [Process.Fits]

theorem Process.Fits.congr {running : Int} (h : r.Fits running) (started : r'.started = r.started)
    (pid : r'.pid = r.pid) (state : r'.state = r.state) (link : r'.nextPrev = r.nextPrev)
    (head : r'.message.blockedHead = r.message.blockedHead) : r'.Fits running := by
  unfold Process.Fits at h ⊢
  rw [started, state, link, pid, head]
  exact h

theorem Kernel.mapProc_eq (hp : s.heap p = some r) (f : Process → Process) :
    s.mapProc p f = { s with heap := Function.update s.heap p (some (f r)) } := by
  simp [Kernel.mapProc, hp]

theorem Core.mem_queue (h : Core H s) (hp : s.heap p = some r) (hd : QueueHead) (q : Ptr) :
    q ∈ s.queue hd ↔ if q = p then r.nextPrev = some hd else q ∈ s.queue hd := by
  by_cases hq : q = p
  · subst hq
    rw [h.mem hd q]
    simp [hp]
  · simp [hq]

theorem Core.unlinked (h : Core H s) (hp : s.heap p = some r) (hH : p ∈ H) :
    r.nextPrev = none ∧ r.started = true := by
  obtain ⟨x, hx, hn⟩ := h.held p hH
  rw [hp] at hx
  cases hx
  exact hn

theorem Core.live_of_mem (h : Core H s) {d : QueueHead} (hm : p ∈ s.queue d) :
    ∃ r, s.heap p = some r ∧ r.nextPrev = some d ∧ p ∉ H := by
  obtain ⟨r, hr, hn⟩ := (h.mem d p).1 hm
  refine ⟨r, hr, hn, fun hH => ?_⟩
  rw [(h.unlinked hr hH).1] at hn
  cases hn

theorem Core.not_mem_of_unlinked (h : Core H s) (hp : s.heap p = some r) (hn : r.nextPrev = none)
    (hd : QueueHead) : p ∉ s.queue hd := by
  intro hm
  obtain ⟨r', hr', hn', _⟩ := h.live_of_mem hm
  rw [hp] at hr'
  cases hr'
  rw [hn] at hn'
  cases hn'

/-- A process that has not ended is in no final context. -/
theorem Core.context_of_undead (h : Core H s) (hp : s.heap p = some r) (hst : r.started = true)
    (hd : r.state.dead = false) : r.context.final = false := by
  by_contra hc
  have := h.contexts p r hp hst (by simpa using hc)
  rw [hd] at this
  cases this

/-- Two records with one pid are one record. -/
theorem Core.pid_inj (h : Core H s) (hp : s.heap p = some r) (hq : s.heap q = some r')
    (he : r.pid = r'.pid) : p = q := by
  have h1 := h.pidOf p r hp
  rw [he, h.pidOf q r' hq] at h1
  exact (Option.some.inj h1).symm

/-- What the invariant says of the idle process, at its record. -/
theorem Core.idle_at (h : Core H s) (hp : s.heap p = some r)
    (hi : s.pidProcessHashTable idleId = some p) :
    r.started = true ∧ (r.state = .actif ∨ r.state = .activatable) ∧ r.context.interrupted := by
  obtain ⟨i, x, hi', hx, hst⟩ := h.idle
  rw [hi] at hi'
  cases hi'
  rw [hp] at hx
  cases hx
  exact hst

theorem Blocked.congr {st : Semaphore} {ns : List NodePtr} {ps : List Ptr} (h : Blocked s st ns ps)
    (hn : ∀ n ∈ ns, t.node n = s.node n) (hb : s.nextNode ≤ t.nextNode) : Blocked t st ns ps where
  chain := h.chain.congr fun n hm => by simp [Kernel.nextBlock, hn n hm]
  tail := h.tail
  procs := by
    rw [← h.procs]
    exact List.map_congr_left fun n hm => by simp [Kernel.blockedAt, hn n hm]
  bound n hm := lt_of_lt_of_le (h.bound n hm) hb

theorem Blocked.unique {st : Semaphore} {ns ns' : List NodePtr} {ps ps' : List Ptr}
    (h : Blocked s st ns ps) (h' : Blocked s st ns' ps') : ns = ns' ∧ ps = ps' := by
  obtain rfl := h.chain.unique h'.chain
  refine ⟨rfl, ?_⟩
  have := h.procs.symm.trans h'.procs
  exact List.map_injective_iff.2 (fun _ _ h => Option.some.inj h) this

theorem Waiters.unique {H' : Set Ptr} {sem : Int} {st : Semaphore} {ps ps' : List Ptr}
    (h : Waiters H s sem st ps) (h' : Waiters H' s sem st ps') : ps = ps' := by
  obtain ⟨_, hb⟩ := h.list
  obtain ⟨_, hb'⟩ := h'.list
  exact (hb.unique hb').2

/-- The semaphore a process waits for is the one in its record. -/
theorem WaitsFor.sem_eq {sem sem' : Int} {H' : Set Ptr} (h : WaitsFor H s p sem)
    (h' : WaitsFor H' s p sem') : sem = sem' := by
  obtain ⟨_, r, hr, _, _, hs⟩ := h
  obtain ⟨_, r', hr', _, _, hs'⟩ := h'
  rw [hr] at hr'
  cases hr'
  exact hs.symm.trans hs'

/-- The blocked lists read the nodes and who waits. -/
theorem Sems.congr {H' : Set Ptr} (h : Sems H s) (table : t.semaphoreTable = s.semaphoreTable)
    (node : t.node = s.node) (next : s.nextNode ≤ t.nextNode)
    (counter : s.semaphoreIdCounter ≤ t.semaphoreIdCounter)
    (waits : ∀ p sem, WaitsFor H' t p sem ↔ WaitsFor H s p sem) : Sems H' t where
  lists sem st hst := by
    rw [table] at hst
    obtain ⟨ps, hw⟩ := h.lists sem st hst
    obtain ⟨ns, hb⟩ := hw.list
    refine ⟨ps, ⟨ns, hb.congr (fun n _ => by rw [node]) next⟩, hw.nodup, fun p => ?_, hw.room⟩
    rw [waits, hw.mem]
  waiting p sem hp := by
    rw [table]
    exact h.waiting p sem ((waits p sem).1 hp)
  ids sem st hst := by
    rw [table] at hst
    exact (h.ids sem st hst).trans counter

end reading

/-! ## Updates -/

section updates

variable {H J : Set Ptr} {s t : Kernel} {p q : Ptr} {r y : Process}

/-- A record in an updated heap is an old one or the new one. -/
theorem heap_update_cases {x : Process} {v : Option Process}
    (h : Function.update s.heap p v q = some x) :
    (q = p ∧ v = some x) ∨ (q ≠ p ∧ s.heap q = some x) := by
  by_cases hq : q = p
  · subst hq
    rw [Function.update_self] at h
    exact .inl ⟨rfl, h⟩
  · rw [Function.update_of_ne hq] at h
    exact .inr ⟨hq, h⟩

/-- One record changes, and the lists with it. -/
theorem Core.update (h : Core H s) (hp : s.heap p = some r)
    {F : QueueHead → List Ptr} {n : Nat} (pid : y.pid = r.pid)
    (nodup : ∀ hd, (F hd).Nodup)
    (mem : ∀ hd q, q ∈ F hd ↔ if q = p then y.nextPrev = some hd else q ∈ s.queue hd)
    (others : ∀ q, q ≠ p → (q ∈ J ↔ q ∈ H))
    (held : p ∈ J → y.nextPrev = none ∧ y.started = true)
    (fits : p ∉ J → y.Fits s.currentRunningProcessPid)
    (context : y.started = true → y.context.final = true → y.state.dead = true)
    (queues : ∀ hd q, y.nextPrev = some hd → hd.queue? = some q → (s.msgQueue q).isSome)
    (idle : s.pidProcessHashTable idleId = some p → y.started = true ∧
      (y.state = .actif ∨ y.state = .activatable) ∧ y.context.interrupted) :
    Core J { s with heap := Function.update s.heap p (some y), queue := F, insertions := n } := by
  constructor
  case fresh =>
    intro q x hx
    rcases heap_update_cases hx with ⟨rfl, _⟩ | ⟨_, hx⟩
    · exact h.fresh q r hp
    · exact h.fresh q x hx
  case table =>
    intro k q hk
    obtain ⟨x, hx, hxk⟩ := h.table k q hk
    by_cases hq : q = p
    · subst hq
      obtain rfl : x = r := by simpa using hx.symm.trans hp
      exact ⟨y, by simp, by rw [pid, hxk]⟩
    · exact ⟨x, by simp [hq, hx], hxk⟩
  case pidOf =>
    intro q x hx
    rcases heap_update_cases hx with ⟨rfl, hv⟩ | ⟨_, hx⟩
    · cases hv
      rw [pid]
      exact h.pidOf q r hp
    · exact h.pidOf q x hx
  case pool =>
    refine ⟨fun q x hx => ?_, h.pool.free, h.pool.nodup, h.pool.pos⟩
    rcases heap_update_cases hx with ⟨rfl, hv⟩ | ⟨_, hx⟩
    · cases hv
      rw [pid]
      exact h.pool.used q r hp
    · exact h.pool.used q x hx
  case nodup => exact nodup
  case mem =>
    intro hd q
    rw [mem hd q]
    by_cases hq : q = p
    · subst hq; simp
    · simp [hq, h.mem hd q]
  case held =>
    intro q hq
    by_cases hqp : q = p
    · subst hqp
      exact ⟨y, by simp, held hq⟩
    · obtain ⟨x, hx, hxn⟩ := h.held q ((others q hqp).1 hq)
      exact ⟨x, by simp [hqp, hx], hxn⟩
  case fits =>
    intro q x hx hq
    rcases heap_update_cases hx with ⟨rfl, hv⟩ | ⟨hqp, hx⟩
    · cases hv
      exact fits hq
    · exact h.fits q x hx (fun hc => hq ((others q hqp).2 hc))
  case contexts =>
    intro q x hx
    rcases heap_update_cases hx with ⟨rfl, hv⟩ | ⟨_, hx⟩
    · cases hv
      exact context
    · exact h.contexts q x hx
  case queues =>
    intro q x hd qp hx hn hqp
    rcases heap_update_cases hx with ⟨rfl, hv⟩ | ⟨_, hx⟩
    · cases hv
      exact queues hd qp hn hqp
    · exact h.queues q x hd qp hx hn hqp
  case queueIds => exact h.queueIds
  case idle =>
    obtain ⟨i, x, hi, hx, hst⟩ := h.idle
    by_cases hip : i = p
    · subst hip
      exact ⟨i, y, hi, by simp, idle hi⟩
    · exact ⟨i, x, hi, by simp [hip, hx], hst⟩

/-- Who waits after one record was replaced. -/
theorem waitsFor_update {F : QueueHead → List Ptr} {n : Nat} (hp : s.heap p = some r)
    (others : ∀ q, q ≠ p → (q ∈ J ↔ q ∈ H))
    (here : ∀ sem, (p ∉ J ∧ y.started = true ∧ y.state = .blockedSemaphore ∧ y.semaphoreId = sem) ↔
      (p ∉ H ∧ r.started = true ∧ r.state = .blockedSemaphore ∧ r.semaphoreId = sem)) (q : Ptr) (sem : Int) :
    WaitsFor J { s with heap := Function.update s.heap p (some y), queue := F, insertions := n } q sem ↔
      WaitsFor H s q sem := by
  unfold WaitsFor
  by_cases hq : q = p
  · subst hq
    simpa [hp] using here sem
  · simp [hq, others q hq]

/-- One record changes that waits for no semaphore, or goes on waiting. -/
theorem Inv.update (h : Inv H s) (hp : s.heap p = some r) {F : QueueHead → List Ptr} {n : Nat}
    (core : Core J { s with heap := Function.update s.heap p (some y), queue := F, insertions := n })
    (others : ∀ q, q ≠ p → (q ∈ J ↔ q ∈ H))
    (here : ∀ sem, (p ∉ J ∧ y.started = true ∧ y.state = .blockedSemaphore ∧ y.semaphoreId = sem) ↔
      (p ∉ H ∧ r.started = true ∧ r.state = .blockedSemaphore ∧ r.semaphoreId = sem)) :
    Inv J { s with heap := Function.update s.heap p (some y), queue := F, insertions := n } :=
  ⟨core, h.sems.congr rfl rfl le_rfl le_rfl (waitsFor_update hp others here)⟩

/-- Fields that tell where a process is stay as they are. -/
structure Process.SamePlace (r r' : Process) : Prop where
  pid : r'.pid = r.pid
  state : r'.state = r.state
  link : r'.nextPrev = r.nextPrev
  head : r'.message.blockedHead = r.message.blockedHead
  sem : r'.semaphoreId = r.semaphoreId
  started : r'.started = r.started

/-- Fields that scheduling does not look at are written. -/
theorem Inv.write (h : Inv H s) (hp : s.heap p = some r) {f : Process → Process}
    (same : r.SamePlace (f r))
    (context : r.started = true → (f r).context.final = true → r.state.dead = true)
    (idle : s.pidProcessHashTable idleId = some p → (f r).context.interrupted) :
    Inv H (s.mapProc p f) := by
  rw [Kernel.mapProc_eq hp]
  refine h.update hp (F := s.queue) (n := s.insertions) ?_ (fun _ _ => Iff.rfl) ?_
  · refine h.toCore.update hp same.pid h.nodup ?_ (fun _ _ => Iff.rfl) ?_ ?_ ?_ ?_ ?_
    · intro hd q
      rw [same.link]
      exact h.mem_queue hp hd q
    · intro hH
      rw [same.link, same.started]
      exact h.unlinked hp hH
    · exact fun hH => (h.fits p r hp hH).congr same.started same.pid same.state same.link same.head
    · rw [same.started, same.state]
      exact context
    · intro hd q hn hq
      rw [same.link] at hn
      exact h.queues p r hd q hp hn hq
    · intro hi
      rw [same.started, same.state]
      exact ⟨(h.idle_at hp hi).1, (h.idle_at hp hi).2.1, idle hi⟩
  · intro sem
    rw [same.started, same.state, same.sem]

/-- A process that is in no list is taken in hand. -/
theorem Inv.hold (h : Inv H s) (hp : s.heap p = some r) (hst : r.started = true)
    (hn : r.nextPrev = none) (hs : r.state ≠ .blockedSemaphore) : Inv (insert p H) s := by
  have hoth : ∀ q, q ≠ p → (q ∈ insert p H ↔ q ∈ H) := fun q hq => by simp [hq]
  have core := h.toCore.update (J := insert p H) hp (y := r) (F := s.queue) (n := s.insertions)
    rfl h.nodup (h.mem_queue hp) hoth (fun _ => ⟨hn, hst⟩) (fun hc => absurd (by simp) hc)
    (h.contexts p r hp) (fun hd q hl hq => h.queues p r hd q hp hl hq) (h.idle_at hp)
  have := h.update hp core hoth (fun sem => by simp [hs])
  rwa [← hp, Function.update_eq_self] at this

/-- A process in hand whose state fits being in no list is let go. -/
theorem Inv.release (h : Inv (insert p H) s) (hp : s.heap p = some r)
    (hf : r.Fits s.currentRunningProcessPid) (hs : r.state ≠ .blockedSemaphore) : Inv H s := by
  have hoth : ∀ q, q ≠ p → (q ∈ H ↔ q ∈ insert p H) := fun q hq => by simp [hq]
  have core := h.toCore.update (J := H) hp (y := r) (F := s.queue) (n := s.insertions)
    rfl h.nodup (h.mem_queue hp) hoth (fun _ => h.unlinked hp (by simp)) (fun _ => hf)
    (h.contexts p r hp) (fun hd q hl hq => h.queues p r hd q hp hl hq) (h.idle_at hp)
  have := h.update hp core hoth (fun sem => by simp [hs])
  rwa [← hp, Function.update_eq_self] at this

/-- A process in hand is written, but not its pid or its links. -/
theorem Inv.set (h : Inv H s) (hH : p ∈ H) (hp : s.heap p = some r) {f : Process → Process}
    (pid : (f r).pid = r.pid) (link : (f r).nextPrev = r.nextPrev) (started : (f r).started = r.started)
    (context : (f r).context.final = true → (f r).state.dead = true)
    (idle : s.pidProcessHashTable idleId = some p →
      ((f r).state = .actif ∨ (f r).state = .activatable) ∧ (f r).context.interrupted) :
    Inv H (s.mapProc p f) := by
  obtain ⟨hn, hst⟩ := h.unlinked hp hH
  rw [Kernel.mapProc_eq hp]
  refine h.update hp (F := s.queue) (n := s.insertions) ?_ (fun _ _ => Iff.rfl)
    (fun sem => by simp [hH])
  refine h.toCore.update hp pid h.nodup ?_ (fun _ _ => Iff.rfl) ?_ ?_ ?_ ?_ ?_
  · intro hd q
    rw [link]
    exact h.mem_queue hp hd q
  · exact fun _ => ⟨link.trans hn, started.trans hst⟩
  · exact fun hc => absurd hH hc
  · exact fun _ => context
  · intro hd q hl
    rw [link, hn] at hl
    cases hl
  · exact fun hi => ⟨started.trans hst, idle hi⟩

/-- A process in hand is chained into a list its state fits. -/
theorem Inv.link (h : Inv (insert p H) s) (hH : p ∉ H) (hp : s.heap p = some r) {hd : QueueHead}
    {l : List Ptr} (hl : l.Perm (p :: s.queue hd))
    (hf : ({ r with nextPrev := some hd, stamp := s.insertions } : Process).Fits
      s.currentRunningProcessPid)
    (hq : ∀ q, hd.queue? = some q → (s.msgQueue q).isSome) : Inv H (s.link p hd l) := by
  obtain ⟨hn, hst⟩ := h.unlinked hp (by simp)
  have hnm := h.not_mem_of_unlinked hp hn
  have hoth : ∀ q, q ≠ p → (q ∈ H ↔ q ∈ insert p H) := fun q hq => by simp [hq]
  unfold Kernel.link
  rw [Kernel.mapProc_eq hp]
  refine h.update hp (F := Function.update s.queue hd l) (n := s.insertions + 1) ?_ hoth ?_
  · refine h.toCore.update hp rfl ?_ ?_ hoth (fun hc => absurd hc hH) (fun _ => hf)
      (h.contexts p r hp) ?_ (h.idle_at (r := r) hp)
    · intro hd'
      by_cases hh : hd' = hd
      · subst hh
        rw [Function.update_self, hl.nodup_iff]
        exact List.nodup_cons.2 ⟨hnm hd', h.nodup hd'⟩
      · rw [Function.update_of_ne hh]
        exact h.nodup hd'
    · intro hd' q
      by_cases hh : hd' = hd
      · subst hh
        rw [Function.update_self, hl.mem_iff, List.mem_cons]
        by_cases hqp : q = p <;> simp [hqp]
      · rw [Function.update_of_ne hh]
        by_cases hqp : q = p
        · subst hqp
          simp [hnm hd', Ne.symm hh]
        · simp [hqp]
    · intro hd' q hl' hq'
      cases hl'
      exact hq q hq'
  · intro sem
    have := (hf.linked rfl).2.2.1
    simp_all

/-- A process is unchained and taken in hand. -/
theorem Inv.unlink (h : Inv H s) (hp : s.heap p = some r) {hd : QueueHead}
    (hl : r.nextPrev = some hd) : Inv (insert p H) (s.unlink p hd) := by
  have hH : p ∉ H := by
    intro hc
    rw [(h.unlinked hp hc).1] at hl
    cases hl
  have hs := (h.fits p r hp hH).linked hl
  have hoth : ∀ q, q ≠ p → (q ∈ insert p H ↔ q ∈ H) := fun q hq => by simp [hq]
  unfold Kernel.unlink
  rw [Kernel.mapProc_eq hp]
  refine h.update hp (F := Function.update s.queue hd ((s.queue hd).erase p))
    (n := s.insertions) ?_ hoth ?_
  · refine h.toCore.update hp rfl ?_ ?_ hoth (fun _ => ⟨rfl, hs.1⟩)
      (fun hc => absurd (by simp) hc) (h.contexts p r hp) ?_ (h.idle_at (r := r) hp)
    · intro hd'
      by_cases hh : hd' = hd
      · subst hh
        rw [Function.update_self]
        exact (h.nodup hd').erase p
      · rw [Function.update_of_ne hh]
        exact h.nodup hd'
    · intro hd' q
      by_cases hqp : q = p
      · subst hqp
        by_cases hh : hd' = hd
        · subst hh
          simp [(h.nodup hd').mem_erase_iff]
        · rw [Function.update_of_ne hh, h.mem hd' q]
          simp [hp, hl, Ne.symm hh]
      · by_cases hh : hd' = hd
        · subst hh
          simp [hqp, (h.nodup hd').mem_erase_iff]
        · simp [hqp, hh]
    · intro hd' q hl'
      cases hl'
  · intro sem
    simp [hs.2.2.1]

/-- Another process becomes the running one. -/
theorem Inv.run (h : Inv H s) {k : Int} (old : ∀ q x, s.heap q = some x → q ∉ H →
      x.pid = s.currentRunningProcessPid → x.Fits k) :
    Inv H (s.setRunning k) := by
  refine ⟨⟨h.fresh, h.table, h.pidOf, ⟨h.pool.used, h.pool.free, h.pool.nodup, h.pool.pos⟩, h.nodup,
    h.mem, h.held, ?_, h.contexts, h.queues, h.queueIds, h.idle⟩,
    h.sems.congr rfl rfl le_rfl le_rfl (fun _ _ => Iff.rfl)⟩
  intro q x hx hq
  by_cases hpid : x.pid = s.currentRunningProcessPid
  · exact old q x hx hq hpid
  · exact (h.fits q x hx hq).of_ne hpid

/-- A record that is in no list is freed. -/
theorem Inv.free (h : Inv H s) (hp : s.heap p = some r) (hn : r.nextPrev = none)
    (hs : r.state ≠ .blockedSemaphore) (hi : s.pidProcessHashTable idleId ≠ some p) :
    Inv (H \ {p}) (s.freeRecord p r.pid) := by
  have live : ∀ q x, Function.update s.heap p none q = some x → q ≠ p ∧ s.heap q = some x := by
    intro q x hx
    rcases heap_update_cases hx with ⟨_, hv⟩ | hx
    · cases hv
    · exact hx
  have hpid : ∀ q x, q ≠ p → s.heap q = some x → x.pid ≠ r.pid :=
    fun q x hq hx he => hq (h.pid_inj hx hp he)
  refine ⟨⟨?_, ?_, ?_, ⟨?_, ?_, ?_, h.pool.pos⟩, h.nodup, ?_, ?_, ?_, ?_, ?_, h.queueIds, ?_⟩, ?_⟩
  · exact fun q x hx => h.fresh q x (live q x hx).2
  · intro k q hk
    by_cases hkp : k = r.pid
    · subst hkp
      simp [Kernel.freeRecord] at hk
    · simp only [Kernel.freeRecord, Function.update_of_ne hkp] at hk
      obtain ⟨x, hx, hxk⟩ := h.table k q hk
      refine ⟨x, ?_, hxk⟩
      have hqp : q ≠ p := by
        rintro rfl
        rw [hp] at hx
        cases hx
        exact hkp hxk.symm
      simp [Kernel.freeRecord, hqp, hx]
  · intro q x hx
    obtain ⟨hqp, hx⟩ := live q x hx
    simp only [Kernel.freeRecord, Function.update_of_ne (hpid q x hqp hx)]
    exact h.pidOf q x hx
  · exact fun q x hx => h.pool.used q x (live q x hx).2
  · intro k hk
    by_cases hkp : k = r.pid
    · subst hkp
      exact ⟨(h.pool.used p r hp).1, (h.pool.used p r hp).2, by simp [Kernel.freeRecord]⟩
    · have hk' : k ∈ s.processIdList := by simpa [Kernel.freeRecord, hkp] using hk
      obtain ⟨h1, h2, h3⟩ := h.pool.free k hk'
      exact ⟨h1, h2, by simp [Kernel.freeRecord, hkp, h3]⟩
  · refine List.nodup_cons.2 ⟨fun hm => ?_, h.pool.nodup⟩
    have := (h.pool.free r.pid hm).2.2
    rw [h.pidOf p r hp] at this
    cases this
  · intro hd q
    change q ∈ s.queue hd ↔ ∃ x, Function.update s.heap p none q = some x ∧ x.nextPrev = some hd
    by_cases hqp : q = p
    · subst hqp
      simp [h.not_mem_of_unlinked hp hn hd]
    · simp [hqp, h.mem hd q]
  · rintro q ⟨hq, hqp⟩
    obtain ⟨x, hx, hxn⟩ := h.held q hq
    exact ⟨x, by simpa [Kernel.freeRecord, show q ≠ p from hqp] using hx, hxn⟩
  · intro q x hx hq
    obtain ⟨hqp, hx⟩ := live q x hx
    exact h.fits q x hx (fun hc => hq ⟨hc, hqp⟩)
  · exact fun q x hx => h.contexts q x (live q x hx).2
  · exact fun q x hd qp hx => h.queues q x hd qp (live q x hx).2
  · obtain ⟨i, x, hi', hx, hst⟩ := h.idle
    have hip : i ≠ p := by
      rintro rfl
      exact hi hi'
    refine ⟨i, x, ?_, by simp [Kernel.freeRecord, hip, hx], hst⟩
    have hne : idleId ≠ r.pid := by
      intro he
      rw [he, h.pidOf p r hp] at hi'
      exact hip (Option.some.inj hi').symm
    simp [Kernel.freeRecord, hne, hi']
  · refine h.sems.congr rfl rfl le_rfl le_rfl (fun q sem => ?_)
    unfold WaitsFor
    by_cases hqp : q = p
    · subst hqp
      simp [Kernel.freeRecord, hp, hs]
    · simp [Kernel.freeRecord, hqp]

/-- A new record under a pid that is not in use. -/
theorem Inv.alloc (h : Inv H s) {pids : List Int} {it : Int} (hst : r.started = false)
    (hn : r.nextPrev = none) (hused : 1 ≤ r.pid ∧ r.pid ≤ it) (hit : s.pidIterator ≤ it)
    (hnew : s.pidProcessHashTable r.pid = none) (hsub : pids.Sublist s.processIdList)
    (hnot : r.pid ∉ pids) :
    Inv H { s with
      processIdList := pids
      pidIterator := it
      heap := Function.update s.heap s.nextPtr (some r)
      nextPtr := s.nextPtr + 1
      pidProcessHashTable := Function.update s.pidProcessHashTable r.pid (some s.nextPtr) } := by
  have old : ∀ q x, s.heap q = some x → q ≠ s.nextPtr := by
    rintro q x hx rfl
    exact Nat.lt_irrefl _ (h.fresh _ x hx)
  have oldPid : ∀ q x, s.heap q = some x → x.pid ≠ r.pid := by
    intro q x hx he
    have := h.pidOf q x hx
    rw [he, hnew] at this
    cases this
  have hnH : s.nextPtr ∉ H := fun hc => by
    obtain ⟨x, hx, _⟩ := h.held _ hc
    exact old _ x hx rfl
  refine ⟨⟨?_, ?_, ?_, ⟨?_, ?_, hsub.nodup h.pool.nodup, h.pool.pos.trans hit⟩, h.nodup, ?_, ?_, ?_,
    ?_, ?_, h.queueIds, ?_⟩, ?_⟩
  · intro q x hx
    rcases heap_update_cases hx with ⟨rfl, _⟩ | ⟨_, hx⟩
    · exact Nat.lt_succ_self _
    · exact Nat.lt_succ_of_lt (h.fresh q x hx)
  · intro k q hk
    by_cases hkp : k = r.pid
    · subst hkp
      simp only [Function.update_self] at hk
      cases hk
      exact ⟨r, by simp, rfl⟩
    · simp only [Function.update_of_ne hkp] at hk
      obtain ⟨x, hx, hxk⟩ := h.table k q hk
      exact ⟨x, by simp [old q x hx, hx], hxk⟩
  · intro q x hx
    rcases heap_update_cases hx with ⟨rfl, hv⟩ | ⟨_, hx⟩
    · cases hv
      simp
    · simp only [Function.update_of_ne (oldPid q x hx)]
      exact h.pidOf q x hx
  · intro q x hx
    rcases heap_update_cases hx with ⟨rfl, hv⟩ | ⟨_, hx⟩
    · cases hv
      exact hused
    · exact ⟨(h.pool.used q x hx).1, (h.pool.used q x hx).2.trans hit⟩
  · intro k hk
    obtain ⟨h1, h2, h3⟩ := h.pool.free k (hsub.subset hk)
    have hkp : k ≠ r.pid := by
      rintro rfl
      exact hnot hk
    exact ⟨h1, h2.trans hit, by simp [hkp, h3]⟩
  · intro hd q
    rw [h.mem hd q]
    by_cases hq : q = s.nextPtr
    · subst hq
      simp only [Function.update_self]
      constructor
      · rintro ⟨x, hx, _⟩
        exact absurd rfl (old _ x hx)
      · rintro ⟨x, hx, hxn⟩
        cases hx
        rw [hn] at hxn
        cases hxn
    · simp [hq]
  · intro q hq
    obtain ⟨x, hx, hxn⟩ := h.held q hq
    exact ⟨x, by simp [old q x hx, hx], hxn⟩
  · intro q x hx hq
    rcases heap_update_cases hx with ⟨rfl, hv⟩ | ⟨_, hx⟩
    · cases hv
      simp [Process.Fits, hst, hn]
    · exact h.fits q x hx hq
  · intro q x hx hxs
    rcases heap_update_cases hx with ⟨rfl, hv⟩ | ⟨_, hx⟩
    · cases hv
      rw [hst] at hxs
      cases hxs
    · exact h.contexts q x hx hxs
  · intro q x hd qp hx hxn
    rcases heap_update_cases hx with ⟨rfl, hv⟩ | ⟨_, hx⟩
    · cases hv
      rw [hn] at hxn
      cases hxn
    · exact h.queues q x hd qp hx hxn
  · obtain ⟨i, x, hi, hx, hxst⟩ := h.idle
    refine ⟨i, x, ?_, by simp [old i x hx, hx], hxst⟩
    have hne : idleId ≠ r.pid := by
      intro he
      rw [he, hnew] at hi
      cases hi
    simp [hne, hi]
  · refine h.sems.congr rfl rfl le_rfl le_rfl (fun q sem => ?_)
    unfold WaitsFor
    by_cases hq : q = s.nextPtr
    · subst hq
      have hnone : s.heap s.nextPtr = none := by
        by_contra hc
        obtain ⟨x, hx⟩ := Option.ne_none_iff_exists'.1 hc
        exact old _ x hx rfl
      simp [hst, hnone]
    · simp [hq]

/-- A record that was given nothing but its memory is filled in. -/
theorem Inv.birth (h : Inv H s) (hp : s.heap p = some r) {f : Process → Process}
    (hold : r.started = false) (hnew : (f r).started = true) (pid : (f r).pid = r.pid)
    (link : (f r).nextPrev = r.nextPrev) (context : (f r).context.final = false) :
    Inv (insert p H) (s.mapProc p f) := by
  have hH : p ∉ H := fun hc => by
    have := (h.unlinked hp hc).2
    rw [hold] at this
    cases this
  have hn : r.nextPrev = none := by
    have := h.fits p r hp hH
    simpa [Process.Fits, hold] using this
  have hoth : ∀ q, q ≠ p → (q ∈ insert p H ↔ q ∈ H) := fun q hq => by simp [hq]
  rw [Kernel.mapProc_eq hp]
  refine h.update hp (F := s.queue) (n := s.insertions) ?_ hoth (fun sem => by simp [hold])
  refine h.toCore.update hp pid h.nodup ?_ hoth (fun _ => ⟨link.trans hn, hnew⟩)
    (fun hc => absurd (by simp) hc) ?_ ?_ ?_
  · intro hd q
    rw [link]
    exact h.mem_queue hp hd q
  · intro _ hf
    rw [context] at hf
    cases hf
  · intro hd q hl
    rw [link, hn] at hl
    cases hl
  · intro hi
    have := (h.idle_at hp hi).1
    rw [hold] at this
    cases this

/-- A message queue is created, changed or, with nobody blocked on it, deleted. -/
theorem Inv.setQueue (h : Inv H s) {qp : QueuePtr} {m : Option MsgQueue} {next : QueuePtr}
    (hnext : s.nextQueue ≤ next) (hm : m.isSome → qp < next)
    (hdel : m = none → ∀ hd, hd.queue? = some qp → s.queue hd = []) :
    Inv H { s.setQueue qp m with nextQueue := next } := by
  refine ⟨⟨h.fresh, h.table, h.pidOf, ⟨h.pool.used, h.pool.free, h.pool.nodup, h.pool.pos⟩, h.nodup,
    h.mem, h.held, h.fits, h.contexts, ?_, ?_, h.idle⟩,
    h.sems.congr rfl rfl le_rfl le_rfl (fun _ _ => Iff.rfl)⟩
  · intro q x hd q' hx hxn hq'
    by_cases hqq : q' = qp
    · subst hqq
      cases m with
      | some m => simp [Kernel.setQueue]
      | none =>
        have hmem : q ∈ s.queue hd := (h.mem hd q).2 ⟨x, hx, hxn⟩
        rw [hdel rfl hd hq'] at hmem
        cases hmem
    · simpa [Kernel.setQueue, hqq] using h.queues q x hd q' hx hxn hq'
  · intro q' hq'
    by_cases hqq : q' = qp
    · subst hqq
      exact hm (by simpa [Kernel.setQueue] using hq')
    · exact lt_of_lt_of_le (h.queueIds q' (by simpa [Kernel.setQueue, hqq] using hq')) hnext

/-- The fields the invariant does not read may change. -/
theorem Core.congr (h : Core H s) (heap : t.heap = s.heap) (nextPtr : t.nextPtr = s.nextPtr)
    (table : t.pidProcessHashTable = s.pidProcessHashTable)
    (running : t.currentRunningProcessPid = s.currentRunningProcessPid)
    (pids : t.processIdList = s.processIdList) (it : t.pidIterator = s.pidIterator)
    (queue : t.queue = s.queue) (msg : t.msgQueue = s.msgQueue) (next : s.nextQueue ≤ t.nextQueue) :
    Core H t := by
  refine ⟨?_, ?_, ?_, ⟨?_, ?_, ?_, ?_⟩, ?_, ?_, ?_, ?_, ?_, ?_, ?_, ?_⟩
  · rw [heap, nextPtr]; exact h.fresh
  · rw [heap, table]; exact h.table
  · rw [heap, table]; exact h.pidOf
  · rw [heap, it]; exact h.pool.used
  · rw [pids, it, table]; exact h.pool.free
  · rw [pids]; exact h.pool.nodup
  · rw [it]; exact h.pool.pos
  · rw [queue]; exact h.nodup
  · rw [queue, heap]; exact h.mem
  · rw [heap]; exact h.held
  · rw [heap, running]; exact h.fits
  · rw [heap]; exact h.contexts
  · rw [heap, msg]; exact h.queues
  · rw [msg]; exact fun q hq => lt_of_lt_of_le (h.queueIds q hq) next
  · rw [heap, table]; exact h.idle

theorem Blocked.mem_procs {st : Semaphore} {ns : List NodePtr} {ps : List Ptr} {n : NodePtr}
    (h : Blocked s st ns ps) (hn : n ∈ ns) : ∃ p ∈ ps, s.blockedAt n = some p := by
  have : s.blockedAt n ∈ ps.map some := h.procs ▸ List.mem_map_of_mem hn
  obtain ⟨p, hp, he⟩ := List.mem_map.1 this
  exact ⟨p, hp, he.symm⟩

/-- One semaphore changes, with the nodes `ns` of its list. -/
theorem Sems.replace (h : Sems H s) {i : Int} {v : Option Semaphore} {l : List NodePtr}
    (table : t.semaphoreTable = Function.update s.semaphoreTable i v)
    (next : s.nextNode ≤ t.nextNode) (counter : s.semaphoreIdCounter ≤ t.semaphoreIdCounter)
    (nodes : ∀ n < s.nextNode, n ∉ l → t.node n = s.node n)
    (mine : ∀ n ∈ l, ∃ p, s.blockedAt n = some p ∧ WaitsFor H s p i)
    (waits : ∀ p sem, sem ≠ i → (WaitsFor J t p sem ↔ WaitsFor H s p sem))
    (some_case : ∀ st, v = some st → (∃ ps, Waiters J t i st ps) ∧ i ≤ t.semaphoreIdCounter)
    (none_case : v = none → ∀ p, ¬ WaitsFor J t p i) : Sems J t where
  lists sem st hst := by
    rw [table] at hst
    by_cases hs : sem = i
    · subst hs
      rw [Function.update_self] at hst
      exact (some_case st hst).1
    · rw [Function.update_of_ne hs] at hst
      obtain ⟨ps, hw⟩ := h.lists sem st hst
      obtain ⟨ns', hb⟩ := hw.list
      refine ⟨ps, ⟨ns', hb.congr (fun n hn => nodes n (hb.bound n hn) fun hc => ?_) next⟩, hw.nodup,
        fun p => ?_, hw.room⟩
      · -- the process of a shared node would wait for two semaphores
        obtain ⟨p, hp, hpn⟩ := hb.mem_procs hn
        obtain ⟨p', hpn', hp'⟩ := mine n hc
        rw [hpn] at hpn'
        cases hpn'
        exact hs (((hw.mem p).1 hp).sem_eq hp')
      · rw [waits p sem hs, hw.mem]
  waiting p sem hp := by
    rw [table]
    by_cases hs : sem = i
    · subst hs
      rw [Function.update_self]
      cases hst : v with
      | none => exact absurd hp (none_case hst p)
      | some st => rfl
    · rw [Function.update_of_ne hs]
      exact h.waiting p sem ((waits p sem hs).1 hp)
  ids sem st hst := by
    rw [table] at hst
    by_cases hs : sem = i
    · subst hs
      rw [Function.update_self] at hst
      exact (some_case st hst).2
    · rw [Function.update_of_ne hs] at hst
      exact (h.ids sem st hst).trans counter

end updates

end Xinul
