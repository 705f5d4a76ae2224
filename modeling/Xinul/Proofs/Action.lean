import Xinul.Proofs.Invariant

/-!
# What a kernel function does, action by action

Every kernel function is a sequence of a few kinds of action on the scheduling
state: a process is taken in hand, chained, unchained, written, made the running
one, blocked on a semaphore or taken off its list, and so on. `Act` lists them with
the guards the code establishes before each; `Chain K s₀ H s` says that such a
sequence leads from `s₀` to `s`, with the processes in `H` in hand.

An invariant of the kernel is proved once for each action and then holds along
every chain (`Chain.induct`). What only some functions may do is switched by the
`Kind` of the chain.
-/

namespace Xinul

open Waiting

/-- The process can be given the processor, or has it. -/
def ProcessState.ready : ProcessState → Bool
  | .actif => true
  | .activatable => true
  | _ => false

/-- What the actions of a kernel function may do besides the usual. -/
structure Kind where
  /-- Make a process of a greater priority than the running one activatable,
  or change the running process, `scheduler` being called afterwards. -/
  resched : Prop
  /-- Do so without a call of `scheduler`. -/
  rash : Prop
  /-- Chain the process into the activatable queue under its old state. -/
  stale : Ptr → Prop
  /-- Leave a process that is blocked on a message queue in no list. -/
  strand : Prop
  /-- Change the priority of a process in place in a queue ordered by it. -/
  reorder : Prop
  /-- Change the priority of a process in the blocked list of a semaphore. -/
  reorderSem : Prop
  /-- Take a process off the list of the semaphore and leave its count. -/
  flush : Int → Prop
  /-- Write the links between parents and children, start, end or free a process. -/
  family : Prop
  /-- Allocate a record. -/
  spawn : Prop
  /-- Keep `signal` from calling `scheduler`. -/
  mute : Prop
  /-- Run into the assertion of `queue_del`. -/
  assert : Prop
  /-- Run into a record that was freed. -/
  usesFreed : Prop
  /-- Write the context of the process, block it or end it. -/
  acts : Ptr → Prop
  /-- End the process. -/
  kills : Ptr → Prop
  /-- Block the process until a key is typed. -/
  reads : Ptr → Prop

/-- The kind of a function that does not call `scheduler`. -/
def Kind.quiet (K : Kind) : Kind := { K with resched := K.rash }

/-- Every permission of `K` is one of `L`. -/
structure Kind.Le (K L : Kind) : Prop where
  resched : K.resched → L.resched
  stale : ∀ p, K.stale p → L.stale p
  strand : K.strand → L.strand
  reorder : K.reorder → L.reorder
  reorderSem : K.reorderSem → L.reorderSem
  flush : ∀ sem, K.flush sem → L.flush sem
  family : K.family → L.family
  spawn : K.spawn → L.spawn
  mute : K.mute → L.mute
  acts : ∀ p, K.acts p → L.acts p
  kills : ∀ p, K.kills p → L.kills p
  reads : ∀ p, K.reads p → L.reads p

/-- The faults a function of the kind may stop with. -/
def Kind.Allows (K : Kind) : Fault → Prop
  | .useAfterFree _ => K.usesFreed
  | .queueAddAssert _ => False
  | .queueDelAssert _ => K.assert
  | _ => True

/-- The field a list is ordered by. -/
def QueueHead.field : QueueHead → Process → Int
  | .asleep => Process.wakeTime
  | _ => Process.prioField

/-- The value of a field of the process at `p`. -/
def Kernel.value (s : Kernel) (f : Process → Int) (p : Ptr) : Int := ((s.heap p).map f).getD 0

/-- The list of `hd` after `queue_add` of `p`, whose record is `r`. -/
def Kernel.inserted (s : Kernel) (p : Ptr) (r : Process) (hd : QueueHead) : List Ptr :=
  insertWhile (fun c => s.value hd.field c < hd.field r) p (s.queue hd)

/-- The state with the semaphore `sem` and the nodes of its list replaced. -/
def Kernel.setBlocked (s : Kernel) (sem : Int) (st : Semaphore) (N : NodePtr → Option Node)
    (next : NodePtr) : Kernel :=
  { s with
    semaphoreTable := Function.update s.semaphoreTable sem (some st)
    node := N
    nextNode := next }

/-- The records a context points to. -/
def Context.pointers : Context → List Ptr
  | .start p => [p]
  | .waitpidChild p q _ => [p, q]
  | .killSelf p _ => [p]
  | .pageFault p _ => [p]
  | _ => []

/-- The family of a process, and whether it has ended, stay as they are. -/
structure Process.SameTree (r r' : Process) : Prop where
  parent : r'.parent = r.parent
  head : r'.childrenHead = r.childrenHead
  tail : r'.childrenTail = r.childrenTail
  sibling : r'.nextSibling = r.nextSibling
  dead : r'.state.dead = r.state.dead
  context : r'.context = r.context ∨ r'.context.pointers = []

/-- How a function of the kind may write the family of a process. -/
def Kind.Writes (K : Kind) (r r' : Process) : Prop :=
  K.family ∧ (r.started = true → r'.parent = r.parent) ∨ r.SameTree r'

/-- The process goes on where it was to, and as soon as it was to. -/
def Process.Undisturbed (r r' : Process) : Prop :=
  r'.context = r.context ∧ (r'.state = r.state ∨ r'.state.ready = true)

/-- How a function of the kind may write the state of a process. -/
structure Kind.Sets (K : Kind) (p : Ptr) (r r' : Process) : Prop where
  goesOn : K.acts p ∨ r.Undisturbed r' ∨ r'.context = r.context ∧ r'.state.dead = true ∧ K.kills p
  reads : r'.state = .blockedIo → r.state = .blockedIo ∨ K.reads p

/-- The state but for what scheduling does not look at. -/
structure Kernel.SameSched (s t : Kernel) : Prop where
  heap : t.heap = s.heap
  nextPtr : t.nextPtr = s.nextPtr
  table : t.pidProcessHashTable = s.pidProcessHashTable
  running : t.currentRunningProcessPid = s.currentRunningProcessPid
  pids : t.processIdList = s.processIdList
  iterator : t.pidIterator = s.pidIterator
  queue : t.queue = s.queue
  msgQueue : t.msgQueue = s.msgQueue
  nextQueue : s.nextQueue ≤ t.nextQueue
  semaphoreTable : t.semaphoreTable = s.semaphoreTable
  node : t.node = s.node
  nextNode : t.nextNode = s.nextNode
  semaphoreIdCounter : t.semaphoreIdCounter = s.semaphoreIdCounter
  insertions : t.insertions = s.insertions
  parentBlock : t.parentBlock = s.parentBlock

/-- The count of a semaphore with `n` waiters becomes the one of `st'`, and the
number of waiters `n'`; exactness may only be lost in a flush. -/
structure CountStep (K : Kind) (sem : Int) (st st' : Semaphore) (n n' : Nat) : Prop where
  room : n' ≤ (-st'.count).toNat
  exact : K.flush sem ∨ (n = (-st.count).toNat → n' = (-st'.count).toNat)

/-- One action, with the processes in hand before and after it. -/
inductive Act (K : Kind) : Set Ptr → Kernel → Set Ptr → Kernel → Prop where
  /-- A process in no list is taken in hand. -/
  | hold {H s p r} : s.heap p = some r → r.started = true → r.nextPrev = none →
      r.state ≠ .blockedSemaphore → Act K H s (insert p H) s
  /-- A process in hand belongs in no list. -/
  | release {H s p r} : p ∉ H → s.heap p = some r → r.Fits s.currentRunningProcessPid →
      r.state ≠ .blockedSemaphore → (r.state = .blockedQueue → K.strand) →
      Act K (insert p H) s H s
  /-- Fields of no concern to the lists are written. -/
  | write {H s p r f} : s.heap p = some r → r.SamePlace (f r) → (f r).prio = r.prio →
      (f r).stamp = r.stamp → (f r).wakeTime = r.wakeTime → K.Writes r (f r) →
      (r.started = true → (f r).context.final = true → r.state.dead = true) →
      (s.pidProcessHashTable idleId = some p → (f r).context.interrupted) →
      ((f r).context = r.context ∨ K.acts p) → Act K H s H (s.mapProc p f)
  /-- The state of a process in hand is written. -/
  | set {H s p r f} : p ∈ H → s.heap p = some r → (f r).pid = r.pid → (f r).prio = r.prio →
      (f r).nextPrev = r.nextPrev → (f r).started = r.started →
      (r.state.dead = true → (f r).state.dead = true) → K.Writes r (f r) →
      (K.family ∨ (f r).state ≠ .killed) →
      ((f r).context.final = true → (f r).state.dead = true) →
      (s.pidProcessHashTable idleId = some p →
        ((f r).state = .actif ∨ (f r).state = .activatable) ∧ (f r).context.interrupted) →
      K.Sets p r (f r) → Act K H s H (s.mapProc p f)
  /-- `queue_add` of a process in hand. -/
  | link {H s p r d} : p ∉ H → s.heap p = some r →
      ({ r with nextPrev := some d, stamp := s.insertions } : Process).Fits
        s.currentRunningProcessPid →
      (∀ q, d.queue? = some q → (s.msgQueue q).isSome) →
      (d = .activatable → r.state = .activatable ∨ K.stale p) →
      (d = .activatable → K.resched ∨ ∀ c rc, s.pidProcessHashTable s.currentRunningProcessPid = some c →
        s.heap c = some rc → r.prio ≤ rc.prio) →
      Act K (insert p H) s H (s.link p d (s.inserted p r d))
  /-- `queue_del`: the process is in hand afterwards. -/
  | unlink {H s p r hd} : s.heap p = some r → r.nextPrev = some hd →
      Act K H s (insert p H) (s.unlink p hd)
  /-- A priority changes. -/
  | reprio {H s p r} {v : Nat} : s.heap p = some r →
      (v = r.prio ∨ K.reorder ∨ r.nextPrev = none ∨ r.nextPrev = some .asleep) →
      (v = r.prio ∨ K.reorderSem ∨ ∀ sem, ¬ WaitsFor H s p sem) →
      (v = r.prio ∨ K.resched ∨ s.pidProcessHashTable s.currentRunningProcessPid ≠ some p) →
      Act K H s H (s.mapProc p fun r => { r with prio := v })
  /-- A process in hand becomes the running one. -/
  | run {H s p r} : K.resched → p ∈ H → s.heap p = some r →
      (∀ q x, s.heap q = some x → q ∉ H → x.pid = s.currentRunningProcessPid → x.Fits r.pid) →
      Act K H s H (s.setRunning r.pid)
  /-- A process that has ended is freed. -/
  | free {H s p r} : s.heap p = some r → r.nextPrev = none → r.state.dead = true →
      (r.started = true ∧ r.state = .killed ∨ K.family) → r.pid ≠ s.currentRunningProcessPid →
      Act K H s (H \ {p}) (s.freeRecord p r.pid)
  /-- A new record, not filled in yet. -/
  | alloc {H s r pids it} : K.family → K.spawn → r.started = false → r.nextPrev = none →
      (1 ≤ r.pid ∧ r.pid ≤ it) → s.pidIterator ≤ it → s.pidProcessHashTable r.pid = none →
      pids.Sublist s.processIdList → r.pid ∉ pids →
      Act K H s H { s with
        processIdList := pids
        pidIterator := it
        heap := Function.update s.heap s.nextPtr (some r)
        nextPtr := s.nextPtr + 1
        pidProcessHashTable := Function.update s.pidProcessHashTable r.pid (some s.nextPtr) }
  /-- The new record is filled in. -/
  | birth {H s p r f} : K.family → s.heap p = some r → r.started = false → (f r).started = true →
      (f r).pid = r.pid → (f r).prio = r.prio → (f r).nextPrev = r.nextPrev →
      (f r).context.final = false → (f r).state ≠ .blockedIo →
      (∀ q, (f r).parent = some q → q < s.nextPtr ∧ ∀ x, s.heap q = some x → x.started = true) →
      Act K H s (insert p H) (s.mapProc p f)
  /-- A process in hand is put in the blocked list of a semaphore. -/
  | block {H s p r sem st st' ns ns' ps N} : p ∉ H → s.heap p = some r → r.state.dead = false →
      s.semaphoreTable sem = some st → s.pidProcessHashTable idleId ≠ some p →
      Waiters (insert p H) s sem st ps → Blocked s st ns ps →
      Blocked { s with node := N, nextNode := s.nextNode + 1 } st' ns'
        (insertWhile (fun q => s.value Process.prioField p ≤ s.value Process.prioField q) p ps) →
      (∀ n < s.nextNode, n ∉ ns → N n = s.node n) →
      CountStep K sem st st' ps.length (ps.length + 1) → K.acts p →
      Act K (insert p H) s H ((s.setBlocked sem st' N (s.nextNode + 1)).markBlocked p sem)
  /-- A process is taken off the blocked list of a semaphore. -/
  | unblock {H s p sem st st' ns ns' a b N} : s.semaphoreTable sem = some st →
      Waiters H s sem st (a ++ p :: b) → Blocked s st ns (a ++ p :: b) →
      Blocked { s with node := N } st' ns' (a ++ b) →
      (∀ n < s.nextNode, n ∉ ns → N n = s.node n) →
      CountStep K sem st st' (a ++ p :: b).length (a ++ b).length →
      Act K H s (insert p H) (s.setBlocked sem st' N s.nextNode)
  /-- The count of a semaphore changes. -/
  | count {H s sem st} {c : Int} : s.semaphoreTable sem = some st →
      (∀ ps, Waiters H s sem st ps → CountStep K sem st { st with count := c } ps.length ps.length) →
      Act K H s H (s.setSem sem (some { st with count := c }))
  /-- `screate`. -/
  | semNew {H s} {c : Int} : 0 ≤ c →
      Act K H s H { s.setSem (s.semaphoreIdCounter + 1) (some ⟨c, none⟩) with
        semaphoreIdCounter := s.semaphoreIdCounter + 1 }
  /-- A semaphore nobody waits for is deleted. -/
  | semDrop {H s sem st} : s.semaphoreTable sem = some st → Waiters H s sem st [] →
      Act K H s H (s.setSem sem none)
  /-- A message queue is created, changed or deleted. -/
  | msgQueue {H s q m k} : s.nextQueue ≤ k → (m.isSome → q < k) →
      (m = none → ∀ hd, hd.queue? = some q → s.queue hd = []) →
      Act K H s H { s.setQueue q m with nextQueue := k }
  /-- `parent_block` is written. -/
  | parentBlock {H s b} : b = false ∨ K.mute → Act K H s H { s with parentBlock := b }
  /-- What scheduling does not look at changes. -/
  | other {H s t} : s.SameSched t → Act K H s H t

/-- A sequence of actions from `s₀`, nothing being in hand there. -/
inductive Chain (K : Kind) (s₀ : Kernel) : Set Ptr → Kernel → Prop where
  | refl : Inv ∅ s₀ → Chain K s₀ ∅ s₀
  | step {H H' s t} : Chain K s₀ H s → Act K H s H' t → Chain K s₀ H' t

section

variable {K L : Kind} {H H' : Set Ptr} {s s₀ t : Kernel} {p q : Ptr} {r : Process}

theorem Kernel.inserted_perm (hd : QueueHead) :
    (s.inserted p r hd).Perm (p :: s.queue hd) := insertWhile_perm

theorem Inv.block {sem : Int} {st st' : Semaphore} {ns ns' : List NodePtr} {ps ps' : List Ptr}
    {N : NodePtr → Option Node} (h : Inv (insert p H) s) (hH : p ∉ H) (hp : s.heap p = some r)
    (hd : r.state.dead = false) (hsem : s.semaphoreTable sem = some st)
    (hi : s.pidProcessHashTable idleId ≠ some p) (hw : Waiters (insert p H) s sem st ps)
    (hb : Blocked s st ns ps)
    (hb' : Blocked { s with node := N, nextNode := s.nextNode + 1 } st' ns' ps')
    (hperm : ps'.Perm (p :: ps)) (hN : ∀ n < s.nextNode, n ∉ ns → N n = s.node n)
    (hroom : ps.length + 1 ≤ (-st'.count).toNat) :
    Inv H ((s.setBlocked sem st' N (s.nextNode + 1)).markBlocked p sem) := by
  obtain ⟨hn, hst⟩ := h.unlinked hp (by simp)
  have hoth : ∀ q, q ≠ p → (q ∈ H ↔ q ∈ insert p H) := fun q hq => by simp [hq]
  have hctx := h.context_of_undead hp hst hd
  have core := h.toCore.update (J := H) hp
    (y := { r with semaphoreId := sem, state := .blockedSemaphore, stamp := s.insertions })
    (F := s.queue) (n := s.insertions + 1) rfl h.nodup (h.mem_queue (r := r) hp) hoth
    (fun hc => absurd hc hH) (fun _ => by simp [Process.Fits, hst, hn])
    (fun _ hf => by rw [show _ = _ from hctx] at hf; cases hf)
    (fun hd q hl => h.queues p r hd q hp hl) (fun hc => absurd hc hi)
  have heap : ((s.setBlocked sem st' N (s.nextNode + 1)).markBlocked p sem).heap =
      Function.update s.heap p
        (some { r with semaphoreId := sem, state := .blockedSemaphore, stamp := s.insertions }) := by
    simp [Kernel.markBlocked, Kernel.setBlocked, Kernel.mapProc, hp]
  refine ⟨core.congr heap rfl rfl rfl rfl rfl rfl rfl le_rfl, ?_⟩
  have waits : ∀ q sem', WaitsFor H ((s.setBlocked sem st' N (s.nextNode + 1)).markBlocked p sem) q sem' ↔
      (q = p ∧ sem' = sem) ∨ WaitsFor (insert p H) s q sem' := by
    intro q sem'
    unfold WaitsFor
    rw [heap]
    by_cases hq : q = p
    · subst hq
      simp only [hH, not_false_eq_true, Function.update_self, Option.some.injEq, exists_eq_left', hst,
        true_and, Set.mem_insert_iff, not_true_eq_false, false_and, or_false]
      exact eq_comm
    · simp [hq]
  refine h.sems.replace (i := sem) (v := some st') (l := ns) rfl (Nat.le_succ _) le_rfl hN
    ?_ ?_ ?_ (fun hc => by cases hc)
  · intro n hn
    obtain ⟨q, hq, hqn⟩ := hb.mem_procs hn
    exact ⟨q, hqn, (hw.mem q).1 hq⟩
  · intro q sem' hne
    rw [waits]
    simp [hne]
  · rintro _ ⟨⟩
    refine ⟨⟨ps', ⟨ns', hb'.chain, hb'.tail, hb'.procs, hb'.bound⟩, ?_, fun q => ?_, ?_⟩,
      h.sems.ids sem st hsem⟩
    · rw [hperm.nodup_iff, List.nodup_cons]
      refine ⟨fun hc => ?_, hw.nodup⟩
      exact ((hw.mem p).1 hc).1 (by simp)
    · rw [waits, hperm.mem_iff, List.mem_cons, hw.mem]
      simp
    · rw [hperm.length_eq]
      exact hroom

theorem Inv.unblock {sem : Int} {st st' : Semaphore} {ns ns' : List NodePtr} {l₁ l₂ : List Ptr}
    {N : NodePtr → Option Node} (h : Inv H s) (hsem : s.semaphoreTable sem = some st)
    (hw : Waiters H s sem st (l₁ ++ p :: l₂)) (hb : Blocked s st ns (l₁ ++ p :: l₂))
    (hb' : Blocked { s with node := N } st' ns' (l₁ ++ l₂))
    (hN : ∀ n < s.nextNode, n ∉ ns → N n = s.node n)
    (hroom : (l₁ ++ l₂).length ≤ (-st'.count).toNat) :
    Inv (insert p H) (s.setBlocked sem st' N s.nextNode) := by
  obtain ⟨hpH, r, hp, hst, hstate, hsid⟩ := (hw.mem p).1 (by simp)
  have hoth : ∀ q, q ≠ p → (q ∈ insert p H ↔ q ∈ H) := fun q hq => by simp [hq]
  have hn : r.nextPrev = none := by
    have := h.fits p r hp hpH
    simpa [Process.Fits, hst, hstate] using this
  have core := h.toCore.update (J := insert p H) hp (y := r) (F := s.queue) (n := s.insertions)
    rfl h.nodup (h.mem_queue hp) hoth (fun _ => ⟨hn, hst⟩) (fun hc => absurd (by simp) hc)
    (h.contexts p r hp) (fun hd q hl hq => h.queues p r hd q hp hl hq) (h.idle_at hp)
  rw [← hp, Function.update_eq_self] at core
  refine ⟨core.congr rfl rfl rfl rfl rfl rfl rfl rfl le_rfl, ?_⟩
  have waits : ∀ q sem', WaitsFor (insert p H) (s.setBlocked sem st' N s.nextNode) q sem' ↔
      q ≠ p ∧ WaitsFor H s q sem' := by
    intro q sem'
    unfold WaitsFor
    by_cases hq : q = p <;> simp [hq, Kernel.setBlocked]
  have hnd := List.nodup_append.1 hw.nodup
  refine h.sems.replace (i := sem) (v := some st') (l := ns) rfl le_rfl le_rfl hN ?_ ?_ ?_
    (fun hc => by cases hc)
  · intro n hn
    obtain ⟨q, hq, hqn⟩ := hb.mem_procs hn
    exact ⟨q, hqn, (hw.mem q).1 hq⟩
  · intro q sem' hne
    rw [waits]
    refine ⟨fun hq => hq.2, fun hq => ⟨?_, hq⟩⟩
    rintro rfl
    exact hne (hq.sem_eq ((hw.mem q).1 (by simp)))
  · rintro _ ⟨⟩
    refine ⟨⟨l₁ ++ l₂, ⟨ns', hb'.chain, hb'.tail, hb'.procs, hb'.bound⟩, ?_, fun q => ?_, hroom⟩,
      h.sems.ids sem st hsem⟩
    · exact (List.nodup_middle.1 hw.nodup).of_cons
    · rw [waits, ← hw.mem]
      have := (List.nodup_cons.1 (List.nodup_middle.1 hw.nodup)).1
      constructor
      · intro hq
        refine ⟨?_, by simp only [List.mem_append, List.mem_cons] at hq ⊢; tauto⟩
        rintro rfl
        exact this hq
      · rintro ⟨hne, hq⟩
        simp only [List.mem_append, List.mem_cons] at hq ⊢
        tauto

/-- A semaphore's count changes, or it comes or goes with nobody waiting. -/
theorem Inv.setSem {sem : Int} {st' : Option Semaphore} {k : Int} (h : Inv H s)
    (hcounter : s.semaphoreIdCounter ≤ k)
    (hsome : ∀ st, st' = some st → (∃ ps, Waiters H s sem st ps) ∧ sem ≤ k)
    (hnone : st' = none → ∀ p, ¬ WaitsFor H s p sem) :
    Inv H { s.setSem sem st' with semaphoreIdCounter := k } := by
  refine ⟨h.toCore.congr rfl rfl rfl rfl rfl rfl rfl rfl le_rfl, ?_⟩
  refine h.sems.replace (i := sem) (v := st') (l := []) rfl le_rfl hcounter (fun _ _ _ => rfl)
    (by simp) (fun _ _ _ => Iff.rfl) ?_ hnone
  intro st hst
  obtain ⟨⟨ps, hw⟩, hle⟩ := hsome st hst
  obtain ⟨ns, hb⟩ := hw.list
  exact ⟨⟨ps, ⟨ns, hb.chain, hb.tail, hb.procs, hb.bound⟩, hw.nodup, hw.mem, hw.room⟩, hle⟩

/-- Every action keeps the invariant. -/
theorem Act.inv (a : Act K H s H' t) (h : Inv H s) : Inv H' t := by
  cases a with
  | hold hp hst hn hs => exact h.hold hp hst hn hs
  | release _ hp hf hs _ => exact h.release hp hf hs
  | write hp same _ _ _ _ hctx hi _ => exact h.write hp same hctx hi
  | set hH hp pid _ link started _ _ _ hctx hi _ => exact h.set hH hp pid link started hctx hi
  | link hH hp hf hq _ _ => exact h.link hH hp (Kernel.inserted_perm _) hf hq
  | unlink hp hl => exact h.unlink hp hl
  | @reprio _ _ p r v hp _ _ _ =>
    exact h.write hp ⟨rfl, rfl, rfl, rfl, rfl, rfl⟩ (h.contexts p r hp) (fun hi => (h.idle_at hp hi).2.2)
  | run _ _ _ old => exact h.run old
  | @free _ _ p r hp hn hd _ _ =>
    refine h.free hp hn (fun hc => by rw [hc] at hd; cases hd) (fun hi => ?_)
    rcases (h.idle_at hp hi).2.1 with hc | hc <;> rw [hc] at hd <;> cases hd
  | alloc _ _ hst hn hused hit hnew hsub hnot => exact h.alloc hst hn hused hit hnew hsub hnot
  | birth _ hp hold hnew pid _ link hctx _ _ => exact h.birth hp hold hnew pid link hctx
  | block hH hp hd hsem hi hw hb hb' hN hc _ =>
    exact h.block hH hp hd hsem hi hw hb hb' insertWhile_perm hN hc.room
  | unblock hsem hw hb hb' hN hc => exact h.unblock hsem hw hb hb' hN hc.room
  | @count _ _ sem st c hsem hc =>
    refine h.setSem (k := s.semaphoreIdCounter) le_rfl ?_ (fun hc => by cases hc)
    rintro _ ⟨⟩
    obtain ⟨ps, hw⟩ := h.sems.lists sem st hsem
    obtain ⟨ns, hb⟩ := hw.list
    exact ⟨⟨ps, ⟨ns, hb.chain, hb.tail, hb.procs, hb.bound⟩, hw.nodup, hw.mem, (hc ps hw).room⟩,
      h.sems.ids sem st hsem⟩
  | semNew hc =>
    refine h.setSem (by omega) ?_ (fun hc => by cases hc)
    rintro _ ⟨⟩
    refine ⟨⟨[], ⟨[], rfl, rfl, rfl, by simp⟩, List.nodup_nil, fun p => ?_, by simp⟩, le_rfl⟩
    -- nobody waits for a semaphore that does not exist yet
    simp only [List.not_mem_nil, false_iff]
    intro hp
    obtain ⟨st, hst⟩ := Option.isSome_iff_exists.1 (h.sems.waiting p _ hp)
    have := h.sems.ids _ st hst
    omega
  | semDrop hsem hw =>
    refine h.setSem (k := s.semaphoreIdCounter) le_rfl (fun _ hc => by cases hc) (fun _ p hp => ?_)
    simpa using (hw.mem p).2 hp
  | msgQueue hnext hm hdel => exact h.setQueue hnext hm hdel
  | parentBlock =>
    refine ⟨h.toCore.congr rfl rfl rfl rfl rfl rfl rfl rfl le_rfl, ?_⟩
    exact h.sems.congr rfl rfl le_rfl le_rfl fun _ _ => Iff.rfl
  | other same =>
    refine ⟨h.toCore.congr same.heap same.nextPtr same.table same.running same.pids same.iterator
      same.queue same.msgQueue same.nextQueue, ?_⟩
    refine h.sems.congr same.semaphoreTable same.node same.nextNode.ge same.semaphoreIdCounter.ge
      (fun p sem => ?_)
    unfold WaitsFor
    rw [same.heap]

theorem Chain.inv (c : Chain K s₀ H s) : Inv H s := by
  induction c with
  | refl h => exact h
  | step _ a ih => exact a.inv ih

theorem Chain.trans {u : Kernel} (c : Chain K s₀ ∅ s) (d : Chain K s H u) : Chain K s₀ H u := by
  induction d with
  | refl _ => exact c
  | step _ a ih => exact ih.step a

/-- A property that every action keeps holds along a chain. -/
theorem Chain.induct {P : Set Ptr → Kernel → Prop} (c : Chain K s₀ H s) (h₀ : P ∅ s₀)
    (act : ∀ H s H' t, Inv H s → P H s → Act K H s H' t → P H' t) : P H s := by
  induction c with
  | refl h => exact h₀
  | step c a ih => exact act _ _ _ _ c.inv ih a

theorem CountStep.mono (hKL : K.Le L) {sem : Int} {st st' : Semaphore} {n n' : Nat}
    (h : CountStep K sem st st' n n') : CountStep L sem st st' n n' :=
  ⟨h.room, h.exact.imp (hKL.flush sem) id⟩

theorem Kind.Writes.mono (hKL : K.Le L) {r r' : Process} (h : K.Writes r r') : L.Writes r r' :=
  h.imp (And.imp hKL.family id) id

theorem Kind.Sets.mono (hKL : K.Le L) {r r' : Process} (h : K.Sets p r r') : L.Sets p r r' :=
  ⟨h.goesOn.imp (hKL.acts p) (Or.imp id fun h => ⟨h.1, h.2.1, hKL.kills p h.2.2⟩),
    fun hs => (h.reads hs).imp id (hKL.reads p)⟩

theorem Act.mono (hKL : K.Le L) (a : Act K H s H' t) : Act L H s H' t := by
  cases a with
  | hold hp hst hn hs => exact .hold hp hst hn hs
  | release hH hp hf hs hq => exact .release hH hp hf hs (fun h => hKL.strand (hq h))
  | write hp same hpr hs hw ht hctx hi ha =>
    exact .write hp same hpr hs hw (ht.mono hKL) hctx hi (ha.imp id (hKL.acts _))
  | set hH hp pid hpr link started hd ht hk hctx hi ha =>
    exact .set hH hp pid hpr link started hd (ht.mono hKL) (hk.imp hKL.family id) hctx hi (ha.mono hKL)
  | link hH hp hf hq hs hl =>
    exact .link hH hp hf hq (fun h => (hs h).imp id (hKL.stale _)) (fun h => (hl h).imp hKL.resched id)
  | unlink hp hl => exact .unlink hp hl
  | reprio hp h1 h2 h3 =>
    exact .reprio hp (h1.imp id (Or.imp hKL.reorder id)) (h2.imp id (Or.imp hKL.reorderSem id))
      (h3.imp id (Or.imp hKL.resched id))
  | run hl hH hp old => exact .run (hKL.resched hl) hH hp old
  | free hp hn hd hk hne => exact .free hp hn hd (hk.imp id hKL.family) hne
  | alloc ht hsp hst hn hused hit hnew hsub hnot =>
    exact .alloc (hKL.family ht) (hKL.spawn hsp) hst hn hused hit hnew hsub hnot
  | birth ht hp hold hnew pid hpr link hctx hio hpar =>
    exact .birth (hKL.family ht) hp hold hnew pid hpr link hctx hio hpar
  | block hH hp hd hsem hi hw hb hb' hN hc ha =>
    exact .block hH hp hd hsem hi hw hb hb' hN (hc.mono hKL) (hKL.acts _ ha)
  | unblock hsem hw hb hb' hN hc => exact .unblock hsem hw hb hb' hN (hc.mono hKL)
  | count hsem hc => exact .count hsem (fun ps hw => (hc ps hw).mono hKL)
  | semNew hc => exact .semNew hc
  | semDrop hsem hw => exact .semDrop hsem hw
  | msgQueue hnext hm hdel => exact .msgQueue hnext hm hdel
  | parentBlock h => exact .parentBlock (h.imp id hKL.mute)
  | other same => exact .other same

theorem Chain.mono (hKL : K.Le L) (c : Chain K s₀ H s) : Chain L s₀ H s := by
  induction c with
  | refl h => exact .refl h
  | step _ a ih => exact ih.step (a.mono hKL)

end

end Xinul
