import Xinul.Proofs.Scheduling
import Xinul.Proofs.Frame
import Xinul.Proofs.Rousing

/-!
# The semaphore functions

What `semaphore_api.c` does to the blocked list of a semaphore, as a list of
processes: `wait` inserts, `unblock_process_sem` takes the first, and
`remove_proc_queue` takes the first or the last for `kill`.
-/

namespace Xinul

open Prog Waiting Linked

theorem CountStep.congr {K : Kind} {sem : Int} {st st' w : Semaphore} {n n' : Nat}
    (h : CountStep K sem st st' n n') (hc : w.count = st'.count) : CountStep K sem st w n n' :=
  ⟨by rw [hc]; exact h.room, by rw [hc]; exact h.exact⟩

/-- The processes met on the blocked list of a semaphore are the ones that wait. -/
theorem Inv.waiters {H : Set Ptr} {s : Kernel} {sem : Int} {st : Semaphore} {ns : List NodePtr}
    {ps : List Ptr} (h : Inv H s) (hsem : s.semaphoreTable sem = some st) (hb : Blocked s st ns ps) :
    Waiters H s sem st ps := by
  obtain ⟨ps', hw⟩ := h.sems.lists sem st hsem
  obtain ⟨ns', hb'⟩ := hw.list
  obtain ⟨_, rfl⟩ := hb.unique hb'
  exact hw

/-! ## In the middle of a kernel function -/

/-- The process at `c` called the kernel function and still runs; the function has
the processes in `H` in hand. -/
structure Mid (K : Kind) (s₀ : Kernel) (H : Set Ptr) (s : Kernel) (c : Ptr) (r : Process) : Prop where
  chain : Chain K s₀ H s
  running : Running s c r
  mine : c ∉ H
  wakes : K.Wakes s
  acts : K.acts c

section mid

variable {K : Kind} {H : Set Ptr} {s s₀ t : Kernel} {c p : Ptr} {r x : Process} {hd : QueueHead}

theorem Kind.Wakes.mapProc {f : Process → Process} (hw : K.Wakes s)
    (hf : ∀ r, s.heap p = some r → (f r).nextPrev = r.nextPrev ∧ (f r).wakeTime = r.wakeTime) :
    K.Wakes (s.mapProc p f) := by
  intro q x hx hn ho
  by_cases hq : q = p
  · subst hq
    rw [mapProc_heap, Function.update_self, Option.map_eq_some_iff] at hx
    obtain ⟨y, hy, rfl⟩ := hx
    obtain ⟨h1, h2⟩ := hf y hy
    refine hw q y hy (h1.symm.trans hn) ?_
    simpa [Process.Overdue, Process.deadline, h2] using ho
  · exact hw q x (by simpa [hq] using hx) hn ho

theorem Kind.Wakes.link {l : List Ptr} (hw : K.Wakes s) (hd' : hd ≠ .asleep) :
    K.Wakes (s.link p hd l) := by
  intro q x hx hn ho
  by_cases hq : q = p
  · subst hq
    rw [link_heap, Function.update_self, Option.map_eq_some_iff] at hx
    obtain ⟨y, hy, rfl⟩ := hx
    exact absurd (Option.some.inj hn) hd'
  · exact hw q x (by simpa [hq] using hx) hn ho

theorem Kind.Wakes.unlink (hw : K.Wakes s) : K.Wakes (s.unlink p hd) := by
  intro q x hx hn ho
  by_cases hq : q = p
  · subst hq
    rw [unlink_heap, Function.update_self, Option.map_eq_some_iff] at hx
    obtain ⟨y, hy, rfl⟩ := hx
    cases hn
  · exact hw q x (by simpa [hq] using hx) hn ho

theorem Mid.inv (m : Mid K s₀ H s c r) : Inv H s := m.chain.inv

theorem Mid.unlinked (m : Mid K s₀ H s c r) : r.nextPrev = none :=
  m.running.unlinked m.inv.toCore m.mine

theorem Mid.mono {L : Kind} (hKL : K.Le L) (m : Mid K s₀ H s c r) : Mid L s₀ H s c r :=
  ⟨m.chain.mono hKL, m.running, m.mine,
    fun p x hp hn ho => hKL.stale p (m.wakes p x hp hn ho), hKL.acts c m.acts⟩

theorem Mid.wp_scheduleAnswer (m : Mid K s₀ ∅ s c r) (hl : K.resched) (v : Int) (w : List Int) :
    wp (scheduleAnswer v w) (fun _ t => Done K s₀ t) K.Allows s :=
  scheduleAnswer_done m.chain hl m.running.caller (by rw [m.unlinked]; exact fun h => by cases h) m.wakes m.acts v w

theorem Mid.wp_schedule (m : Mid K s₀ ∅ s c r) (hl : K.resched) {k : Context} (hk : Saves K s c r k) :
    wp (schedule k) (fun _ t => Done K s₀ t) K.Allows s :=
  schedule_done m.chain hl m.running.caller (by rw [m.unlinked]; exact fun h => by cases h) m.wakes hk

theorem Mid.wp_answer (m : Mid K.quiet s₀ ∅ s c r) (hl : K.resched) (v : Int) (w : List Int) :
    wp (answer v w) (fun _ t => Done K s₀ t) K.Allows s :=
  answer_done m.chain hl m.running m.acts v w

/-- The caller is not touched by an action on other records. -/
theorem Mid.step {H' : Set Ptr} (m : Mid K s₀ H s c r) (a : Act K H s H' t)
    (heap : t.heap c = s.heap c)
    (table : t.pidProcessHashTable s.currentRunningProcessPid = s.pidProcessHashTable s.currentRunningProcessPid)
    (running : t.currentRunningProcessPid = s.currentRunningProcessPid)
    (started : t.startedUserProcess = s.startedUserProcess) (mine : c ∉ H') (wakes : K.Wakes t) :
    Mid K s₀ H' t c r where
  chain := m.chain.step a
  running := by
    obtain ⟨h1, h2, h3, h4, h5⟩ := m.running
    exact ⟨by rw [running, table, h1], by rw [heap, h2], h3, h4, by rw [started, h5]⟩
  mine := mine
  wakes := wakes
  acts := m.acts

/-- What scheduling does not look at changes. -/
theorem Mid.other (m : Mid K s₀ H s c r) (same : s.SameSched t)
    (started : t.startedUserProcess = s.startedUserProcess) (counter : t.counter = s.counter) :
    Mid K s₀ H t c r := by
  refine m.step (.other same) (by rw [same.heap]) (by rw [same.table]) same.running started m.mine ?_
  intro p x hp hn ho
  rw [same.heap] at hp
  rw [counter] at ho
  exact m.wakes p x hp hn ho

theorem Mid.setParentBlock {b : Bool} (m : Mid K s₀ H s c r) (hb : b = false ∨ K.mute) :
    Mid K s₀ H { s with parentBlock := b } c r :=
  m.step (.parentBlock hb) rfl rfl rfl rfl m.mine m.wakes

theorem Mid.ne_of_linked (m : Mid K s₀ H s c r) (hp : s.heap p = some x) (hl : x.nextPrev = some hd) :
    c ≠ p := by
  rintro rfl
  rw [m.running.heap] at hp
  cases hp
  rw [m.unlinked] at hl
  cases hl

theorem Mid.unlink (m : Mid K s₀ H s c r) (hp : s.heap p = some x) (hl : x.nextPrev = some hd) :
    Mid K s₀ (insert p H) (s.unlink p hd) c r := by
  have hcp := m.ne_of_linked hp hl
  exact m.step (.unlink hp hl) (by simp [hcp]) rfl rfl rfl (by simp [hcp, m.mine]) m.wakes.unlink

/-- A process in hand that has not ended is written. -/
theorem Mid.set {f : Process → Process} (m : Mid K s₀ H s c r) (hH : p ∈ H) (hp : s.heap p = some x)
    (hd : x.state.dead = false) (pid : (f x).pid = x.pid) (prio : (f x).prio = x.prio)
    (link : (f x).nextPrev = x.nextPrev) (started : (f x).started = x.started)
    (tree : x.SameTree (f x)) (context : (f x).context = x.context)
    (hi : (f x).state = .actif ∨ (f x).state = .activatable) : Mid K s₀ H (s.mapProc p f) c r := by
  have hcp : c ≠ p := fun h => m.mine (h ▸ hH)
  obtain ⟨hn, hst⟩ := m.inv.unlinked hp hH
  refine m.step (.set hH hp pid prio link started ?_ (.inr tree) (.inr ?_) ?_ ?_ ⟨.inr (.inl ⟨context, .inr ?_⟩), ?_⟩) (by simp [hcp])
    rfl rfl rfl m.mine ?_
  · exact fun h => tree.dead.trans h
  · intro h
    have := tree.dead.trans hd
    rw [h] at this
    cases this
  · intro h
    rw [context, m.inv.context_of_undead hp hst hd] at h
    cases h
  · intro hid
    rw [context]
    exact ⟨hi, (m.inv.idle_at hp hid).2.2⟩
  · rcases hi with h | h <;> rw [h] <;> rfl
  · intro hio
    rcases hi with h | h <;> rw [h] at hio <;> cases hio
  · intro q y hy hyn ho
    by_cases hq : q = p
    · subst hq
      simp only [mapProc_heap, Function.update_self, hp, Option.map_some, Option.some.injEq] at hy
      subst hy
      rw [link, hn] at hyn
      cases hyn
    · exact m.wakes q y (by simpa [hq] using hy) hyn ho

theorem Mid.setActivatable (m : Mid K s₀ H s c r) (hH : p ∈ H) (hp : s.heap p = some x)
    (hd : x.state.dead = false) :
    Mid K s₀ H (s.mapProc p fun r => { r with state := .activatable }) c r :=
  m.set hH hp hd rfl rfl rfl rfl ⟨rfl, rfl, rfl, rfl, hd.symm, .inl rfl⟩ rfl
    (.inr rfl)

/-- Fields of no concern to the lists or the family are written in another record. -/
theorem Mid.write {f : Process → Process} (m : Mid K s₀ H s c r) (hp : s.heap p = some x) (hcp : c ≠ p)
    (place : x.SamePlace (f x)) (prio : (f x).prio = x.prio) (stamp : (f x).stamp = x.stamp)
    (wake : (f x).wakeTime = x.wakeTime) (tree : K.Writes x (f x))
    (context : (f x).context = x.context) : Mid K s₀ H (s.mapProc p f) c r := by
  refine m.step (.write hp place prio stamp wake tree ?_ ?_ (.inl context)) (by simp [hcp]) rfl rfl rfl m.mine
    (m.wakes.mapProc fun y hy => ?_)
  · rw [context]
    exact m.inv.contexts p x hp
  · rw [context]
    exact fun hi => (m.inv.idle_at hp hi).2.2
  · rw [hp] at hy
    cases hy
    exact ⟨place.link, wake⟩

/-- The same for the record of the running process. -/
theorem Mid.writeSelf {f : Process → Process} (m : Mid K s₀ H s c r) (place : r.SamePlace (f r))
    (prio : (f r).prio = r.prio) (stamp : (f r).stamp = r.stamp) (wake : (f r).wakeTime = r.wakeTime)
    (tree : K.Writes r (f r)) (context : (f r).context = r.context) :
    Mid K s₀ H (s.mapProc c f) c (f r) where
  chain := by
    refine m.chain.step (.write m.running.heap place prio stamp wake tree ?_ ?_ (.inl context))
    · rw [context]
      exact m.inv.contexts c r m.running.heap
    · rw [context]
      exact fun hi => (m.inv.idle_at m.running.heap hi).2.2
  running := ⟨m.running.table, by simp [m.running.heap], place.started.trans m.running.started,
    place.state.trans m.running.state, m.running.user⟩
  mine := m.mine
  wakes := m.wakes.mapProc fun y hy => by
    rw [m.running.heap] at hy
    cases hy
    exact ⟨place.link, wake⟩
  acts := m.acts

/-- A process in hand is chained into the activatable queue. -/
theorem Mid.enqueue (m : Mid K s₀ (insert p H) s c r) (hH : p ∉ H) (hp : s.heap p = some x)
    (hf : ({ x with nextPrev := some .activatable, stamp := s.insertions } : Process).Fits
      s.currentRunningProcessPid)
    (hs : x.state = .activatable ∨ K.stale p) (hl : K.resched ∨ x.prio ≤ r.prio) :
    Mid K s₀ H (s.link p .activatable (s.inserted p x .activatable)) c r := by
  have hcp : c ≠ p := fun h => m.mine (by simp [h])
  refine m.step (.link hH hp hf (fun q hq => by cases hq) (fun _ => hs) (fun _ => hl.imp id ?_))
    (by simp [hcp]) rfl rfl rfl (fun h => m.mine (by simp [h])) (m.wakes.link (by decide))
  intro hle d rd hd hrd
  rw [m.running.table] at hd
  cases hd
  rw [m.running.heap] at hrd
  cases hrd
  exact hle

/-- `p->state = ACTIVATABLE`, with what is written at once, and `queue_add`, for a
process in hand. -/
theorem Mid.wp_activate {f : Process → Process} {Q : Unit → Kernel → Prop} {E : Fault → Prop}
    (m : Mid K s₀ (insert p H) s c r) (hH : p ∉ H) (hp : s.heap p = some x)
    (hd : x.state.dead = false) (hl : K.resched ∨ x.prio ≤ r.prio) (state : (f x).state = .activatable)
    (pid : (f x).pid = x.pid) (prio : (f x).prio = x.prio) (link : (f x).nextPrev = x.nextPrev)
    (started : (f x).started = x.started) (tree : x.SameTree (f x)) (context : (f x).context = x.context)
    (hQ : ∀ t, Mid K s₀ H t c r →
      t = (s.mapProc p f).link p .activatable ((s.mapProc p f).inserted p (f x) .activatable) → Q () t) :
    wp (modifyProc p f) (fun _ u => wp (queueAdd p .activatable Process.prioField) Q E u) E s := by
  have m1 := m.set (f := f) (by simp) hp hd pid prio link started tree context (.inr state)
  have hp1 : (s.mapProc p f).heap p = some (f x) := by simp [hp]
  obtain ⟨hn, hst⟩ := m.inv.unlinked hp (by simp)
  rw [wp_modifyProc hp]
  exact wp_queueAdd m1.inv.toCore hp1 (link.trans hn) rfl
    (hQ _ (m1.enqueue hH hp1 (by simp [Process.Fits, started.trans hst, state]) (.inl state)
      (prio ▸ hl)) rfl)

/-- The running process is written and chained into a list. -/
theorem Mid.blockSelf {d : QueueHead} {f : Process → Process} (m : Mid K s₀ ∅ s c r)
    (hu : s.pidProcessHashTable idleId ≠ some c) (pid : (f r).pid = r.pid) (prio : (f r).prio = r.prio)
    (link : (f r).nextPrev = r.nextPrev) (started : (f r).started = r.started)
    (tree : r.SameTree (f r)) (context : (f r).context = r.context)
    (hfits : ∀ n, ({ f r with nextPrev := some d, stamp := n } : Process).Fits s.currentRunningProcessPid)
    (hq : ∀ q, d.queue? = some q → (s.msgQueue q).isSome) (hact : d ≠ .activatable)
    (hio : (f r).state = .blockedIo → K.reads c) :
    Core (insert c ∅) (s.mapProc c f) ∧
      Chain K s₀ ∅ ((s.mapProc c f).link c d ((s.mapProc c f).inserted c (f r) d)) := by
  have hn := m.unlinked
  have hund : r.state.dead = false := by rw [m.running.state]; rfl
  have ch1 := m.chain.step (.hold m.running.heap m.running.started hn (by simp [m.running.state]))
  have ch2 := ch1.step (.set (f := f) (by simp) m.running.heap pid prio link started
    (fun h => tree.dead.trans h) (.inr tree) (.inr fun h => by
      have := tree.dead.trans hund
      rw [h] at this
      cases this) (fun h => by
      rw [context, m.inv.context_of_undead m.running.heap m.running.started hund] at h
      cases h) (fun hi => absurd hi hu) ⟨.inl m.acts, fun h => .inr (hio h)⟩)
  have hrec : (s.mapProc c f).heap c = some (f r) := by simp [m.running.heap]
  exact ⟨ch2.inv.toCore,
    ch2.step (.link (by simp) hrec (hfits _) hq (fun h => absurd h hact) (fun h => absurd h hact))⟩

/-- The running process blocks: it is written, chained into a list, and `scheduler`
is called. -/
theorem Mid.wp_blockSelf {d : QueueHead} {f : Process → Process} {g : Process → Int} {k : Context}
    (m : Mid K s₀ ∅ s c r) (hl : K.resched) (hu : s.pidProcessHashTable idleId ≠ some c)
    (pid : (f r).pid = r.pid) (prio : (f r).prio = r.prio)
    (link : (f r).nextPrev = r.nextPrev) (started : (f r).started = r.started)
    (tree : r.SameTree (f r)) (context : (f r).context = r.context) (hg : g = d.field)
    (hfits : ∀ n, ({ f r with nextPrev := some d, stamp := n } : Process).Fits s.currentRunningProcessPid)
    (hq : ∀ q, d.queue? = some q → (s.msgQueue q).isSome) (hact : d ≠ .activatable) (hdead : d ≠ .dead)
    (hsleep : d = .asleep → (f r).Overdue s.counter → K.stale c) (hptr : k.pointers = [])
    (hfin : k.final = false) (hio : (f r).state = .blockedIo → K.reads c) :
    wp (modifyProc c f) (fun _ u => wp (queueAdd c d g) (fun _ u =>
      wp (schedule k) (fun _ t => Done K s₀ t) K.Allows u) K.Allows u) K.Allows s := by
  obtain ⟨hcore, ch⟩ := m.blockSelf hu pid prio link started tree context hfits hq hact hio
  have hrec : (s.mapProc c f).heap c = some (f r) := by simp [m.running.heap]
  rw [wp_modifyProc m.running.heap]
  refine wp_queueAdd hcore hrec (link.trans m.unlinked) hg ?_
  refine schedule_done (r := { f r with nextPrev := some d, stamp := s.insertions }) ch hl
    ⟨m.running.table, ?_, started.trans m.running.started, m.running.user⟩ (by simpa using hdead) ?_
    ⟨.inr hptr, (by intro h; rw [hfin] at h; cases h), fun hi => absurd hi hu, m.acts⟩
  · simp [m.running.heap, Kernel.mapProc]
  · intro q y hy hyn ho
    by_cases hqc : q = c
    · subst hqc
      simp only [link_heap, Function.update_self, hrec, Option.map_some, Option.some.injEq] at hy
      subst hy
      exact hsleep (Option.some.inj hyn) ho
    · exact m.wakes q y (by simpa [hqc] using hy) hyn ho

end mid

/-! ## Blocked lists -/

section blocked

variable {s : Kernel} {sem : Int} {st w : Semaphore} {E : Fault → Prop} {p : Ptr}

theorem wp_derefSem {Q : Semaphore → Kernel → Prop} (h : s.semaphoreTable sem = some st) :
    wp (derefSem sem) Q E s ↔ Q st s := by
  simp [derefSem, h]

theorem wp_modifySem {Q : Unit → Kernel → Prop} {f : Semaphore → Semaphore}
    (h : s.semaphoreTable sem = some st) :
    wp (modifySem sem f) Q E s ↔ Q () (s.setSem sem (some (f st))) := by
  simp [modifySem, wp_derefSem h]

@[simp] theorem wp_getSemaphoreStruct {Q : Option Semaphore → Kernel → Prop} :
    wp (getSemaphoreStruct sem) Q E s ↔ Q (s.semaphoreTable sem) s := Iff.rfl

theorem wp_setHeader {Q : Unit → Kernel → Prop} {hd tl : Option NodePtr}
    (h : s.semaphoreTable sem = some st) :
    wp (setHeader sem hd tl) Q E s ↔
      Q () (s.setSem sem (some { st with listHeaderProcess := some ⟨hd, tl⟩ })) :=
  wp_modifySem h

theorem wp_derefNode {Q : Node → Kernel → Prop} {n : NodePtr} {nd : Node} (h : s.node n = some nd) :
    wp (derefNode n) Q E s ↔ Q nd s := by
  simp [derefNode, h]

theorem wp_setNextBlockStruct {Q : Unit → Kernel → Prop} {n : NodePtr} {nd : Node}
    {next : Option NodePtr} (h : s.node n = some nd) :
    wp (setNextBlockStruct n next) Q E s ↔ Q () (s.setNode n { nd with nextBlockStruct := next }) := by
  simp [setNextBlockStruct, wp_derefNode h]

@[simp] theorem setSem_heap {v : Option Semaphore} : (s.setSem sem v).heap = s.heap := rfl
@[simp] theorem setSem_table {v : Option Semaphore} :
    (s.setSem sem v).pidProcessHashTable = s.pidProcessHashTable := rfl
@[simp] theorem setSem_running {v : Option Semaphore} :
    (s.setSem sem v).currentRunningProcessPid = s.currentRunningProcessPid := rfl
@[simp] theorem setSem_node {v : Option Semaphore} : (s.setSem sem v).node = s.node := rfl
@[simp] theorem setSem_queue {v : Option Semaphore} : (s.setSem sem v).queue = s.queue := rfl
@[simp] theorem setSem_started {v : Option Semaphore} :
    (s.setSem sem v).startedUserProcess = s.startedUserProcess := rfl

@[simp] theorem setSem_semaphoreTable_self {v : Option Semaphore} :
    (s.setSem sem v).semaphoreTable sem = v := by
  simp [Kernel.setSem]

@[simp] theorem setSem_setSem {v w : Option Semaphore} : (s.setSem sem v).setSem sem w = s.setSem sem w := by
  simp [Kernel.setSem]

theorem setSem_same (h : s.semaphoreTable sem = some st) : s.setSem sem (some st) = s := by
  rw [← h, Kernel.setSem, Function.update_eq_self]

/-- The header of a semaphore with a first node. -/
theorem Semaphore.header_of_head {n : NodePtr} (h : st.head = some n) :
    st.listHeaderProcess = some ⟨some n, st.tail⟩ := by
  rcases hh : st.listHeaderProcess with _ | ⟨hd, tl⟩
  · simp [Semaphore.head, hh] at h
  · simp only [Semaphore.head, hh, Option.bind_some] at h
    simp [Semaphore.tail, hh, h]

theorem Blocked.head_eq {ns : List NodePtr} {ps : List Ptr} (h : Blocked s st ns ps) :
    st.head = ns.head? := h.chain.head

theorem Blocked.length_eq {ns : List NodePtr} {ps : List Ptr} (h : Blocked s st ns ps) :
    ns.length = ps.length := by
  simpa using congrArg List.length h.procs

/-- The nodes of a list are distinct, and each was given out. -/
theorem Blocked.length_le {ns : List NodePtr} {ps : List Ptr} (h : Blocked s st ns ps) : ns.length ≤ s.nextNode := by
  have hsub : ns ⊆ List.range s.nextNode := fun n hn => List.mem_range.2 (h.bound n hn)
  simpa using (List.subperm_of_subset h.chain.nodup hsub).length_le

theorem Blocked.exists_node {ns : List NodePtr} {ps : List Ptr} {n : NodePtr} (h : Blocked s st ns ps) (hn : n ∈ ns) :
    ∃ nd, s.node n = some nd ∧ nd.blockedProcess ∈ ps := by
  obtain ⟨q, hq, hqn⟩ := h.mem_procs hn
  obtain ⟨nd, hnd, rfl⟩ := Option.map_eq_some_iff.1 hqn
  exact ⟨nd, hnd, hq⟩

/-- The first node of a list with a first process. -/
theorem Blocked.cons {ns : List NodePtr} {l : List Ptr} (h : Blocked s st ns (p :: l)) :
    ∃ n ns' nd, ns = n :: ns' ∧ st.head = some n ∧ s.node n = some nd ∧ nd.blockedProcess = p ∧
      Seg s.nextBlock nd.nextBlockStruct ns' none ∧ ns'.map s.blockedAt = l.map some := by
  cases ns with
  | nil => simpa using h.length_eq
  | cons n ns' =>
    obtain ⟨hhead, hseg⟩ := h.chain
    have hp := h.procs
    simp only [List.map_cons, List.cons.injEq] at hp
    obtain ⟨hn, hrest⟩ := hp
    obtain ⟨nd, hnd, hpp⟩ := Option.map_eq_some_iff.1 hn
    refine ⟨n, ns', nd, rfl, hhead, hnd, hpp, ?_, hrest⟩
    simpa [Kernel.nextBlock, hnd] using hseg

/-- The header after the first node was taken off the list. -/
def Semaphore.dropHead (st : Semaphore) (nd : Node) : Semaphore :=
  if st.head = st.tail then { st with listHeaderProcess := some ⟨none, none⟩ }
  else { st with listHeaderProcess := some ⟨nd.nextBlockStruct, st.tail⟩ }

@[simp] theorem Semaphore.dropHead_count (nd : Node) : (st.dropHead nd).count = st.count := by
  unfold Semaphore.dropHead
  split <;> rfl

/-- The list without its first node. -/
theorem Blocked.tailList {n : NodePtr} {ns : List NodePtr} {l : List Ptr} {nd : Node}
    (h : Blocked s st (n :: ns) (p :: l)) (hnd : s.node n = some nd)
    (hheader : w.listHeaderProcess = st.listHeaderProcess) : Blocked s (w.dropHead nd) ns l := by
  have hhead' : w.head = st.head := by simp [Semaphore.head, hheader]
  have htail' : w.tail = st.tail := by simp [Semaphore.tail, hheader]
  have hseg : Seg s.nextBlock nd.nextBlockStruct ns none := by
    simpa [Kernel.nextBlock, hnd] using h.chain.2
  have hprocs : ns.map s.blockedAt = l.map some := by
    have := h.procs
    simp only [List.map_cons, List.cons.injEq] at this
    exact this.2
  have htail := h.tail
  unfold Semaphore.dropHead
  rw [hhead', htail', h.chain.1, htail]
  cases ns with
  | nil => exact ⟨by simp [Semaphore.head], by simp [Semaphore.tail], hprocs, by simp⟩
  | cons m ns =>
    rw [if_neg]
    · refine ⟨by simpa [Semaphore.head] using hseg, by simp [Semaphore.tail], hprocs, fun k hk => ?_⟩
      exact h.bound k (by simp [hk])
    · -- the last node is another one
      intro hc
      have hnd := h.chain.nodup
      rw [List.getLast?_cons_cons] at hc
      have : n ∈ m :: ns := List.mem_of_getLast? hc.symm
      exact (List.nodup_cons.1 hnd).1 this

end blocked

/-! ## Waking the first waiter -/

section unblock

variable {K : Kind} {s s₀ : Kernel} {c p : Ptr} {r x : Process} {sem v : Int}
  {st w : Semaphore} {ps l : List Ptr}

/-- `unblock_process_sem` from a state in which only the count of the semaphore was
changed: with nobody waiting it returns 1, else the first waiter is woken. -/
theorem Mid.wp_unblockProcessSem {Q : Int → Kernel → Prop} (m : Mid K s₀ ∅ s c r) (hl : K.resched)
    (hsem : s.semaphoreTable sem = some st) (hw : Waiters ∅ s sem st ps)
    (hheader : w.listHeaderProcess = st.listHeaderProcess)
    (hcount : ∀ p l, ps = p :: l → CountStep K sem st w (l.length + 1) l.length)
    (hnil : ps = [] → Q 1 (s.setSem sem (some w)))
    (hcons : ∀ p l t st₂, ps = p :: l → Mid K s₀ ∅ t c r → t.semaphoreTable sem = some st₂ →
      st₂.count = w.count → Waiters ∅ t sem st₂ l → t.nextNode = s.nextNode →
      t.parentBlock = s.parentBlock → Wrote s t sem (rousing [p] v) → Q 0 t) :
    wp (unblockProcessSem sem v) Q K.Allows (s.setSem sem (some w)) := by
  obtain ⟨ns, hb⟩ := hw.list
  simp only [unblockProcessSem, wp_bind]
  rw [wp_derefSem setSem_semaphoreTable_self]
  cases ps with
  | nil =>
    obtain rfl : ns = [] := List.eq_nil_of_length_eq_zero (by simpa using hb.length_eq)
    have hh : st.head = none := hb.chain
    rcases hl' : w.listHeaderProcess with _ | ⟨hd, tl⟩
    · exact hnil rfl
    · rw [hheader] at hl'
      simp only [Semaphore.head, hl', Option.bind_some] at hh
      subst hh
      exact hnil rfl
  | cons p l =>
    obtain ⟨n, ns, nd, rfl, hhead, hnd, rfl, hseg, hprocs⟩ := hb.cons
    have hhead' : w.head = some n := by rw [← hhead]; simp [Semaphore.head, hheader]
    have hb2 := hb.tailList hnd hheader
    obtain ⟨_, x, hx, hst, hstate, hsid⟩ := (hw.mem nd.blockedProcess).1 (by simp)
    have hcp : c ≠ nd.blockedProcess := by
      intro hc
      rw [← hc, m.running.heap] at hx
      cases hx
      rw [m.running.state] at hstate
      cases hstate
    have a : Act K ∅ s (insert nd.blockedProcess ∅) (s.setSem sem (some (w.dropHead nd))) :=
      .unblock (a := []) (N := s.node) hsem hw hb ⟨hb2.chain, hb2.tail, hb2.procs, hb2.bound⟩
        (fun _ _ _ => rfl) ((hcount _ _ rfl).congr (by simp))
    have m1 : Mid K s₀ (insert nd.blockedProcess ∅) (s.setSem sem (some (w.dropHead nd))) c r :=
      m.step a rfl rfl rfl rfl (by simp [hcp]) m.wakes
    -- both ways of writing the header have this effect
    have rest : ∀ t, t = s.setSem sem (some (w.dropHead nd)) →
        wp (modifyProc nd.blockedProcess fun r => { r with state := .activatable }) (fun _ u =>
          wp (queueAdd nd.blockedProcess .activatable Process.prioField) (fun _ u =>
            wp (modifyProc nd.blockedProcess fun r => { r with semSignal := v })
              (fun _ u => wp (pure 0) Q K.Allows u) K.Allows u) K.Allows u) K.Allows t := by
      rintro t rfl
      refine m1.wp_activate (by simp) (by simpa using hx) (by simp [hstate, ProcessState.dead])
        (.inl hl) rfl rfl rfl rfl rfl ⟨rfl, rfl, rfl, rfl, by simp [hstate, ProcessState.dead], .inl rfl⟩ rfl ?_
      rintro u m2 rfl
      have hrec : (((s.setSem sem (some (w.dropHead nd))).mapProc nd.blockedProcess
          fun r => { r with state := .activatable }).link nd.blockedProcess .activatable
          (((s.setSem sem (some (w.dropHead nd))).mapProc nd.blockedProcess
            fun r => { r with state := .activatable }).inserted nd.blockedProcess
            { x with state := .activatable } .activatable)).heap nd.blockedProcess =
          some { x with state := .activatable, nextPrev := some .activatable, stamp := s.insertions } := by
        simp [hx]
        rfl
      rw [wp_modifyProc hrec, wp_pure]
      have m3 := m2.write (f := fun r => { r with semSignal := v }) hrec hcp ⟨rfl, rfl, rfl, rfl, rfl, rfl⟩
        rfl rfl rfl (.inr ⟨rfl, rfl, rfl, rfl, rfl, .inl rfl⟩) rfl
      refine hcons _ _ _ (w.dropHead nd) rfl m3 (by simp) (by simp) ?_ rfl rfl ?_
      · exact m3.inv.waiters (by simp) ⟨hb2.chain, hb2.tail, hb2.procs, hb2.bound⟩
      · refine .of_nodes rfl rfl (fun i hi => ?_) rfl fun q y hy => ?_
        · simp [Kernel.setSem, hi]
        · by_cases hq : q = nd.blockedProcess
          · subst hq
            obtain rfl : _ = y := by simpa [hx] using hy
            exact ⟨x, hx, by simp [rousing, Process.call]⟩
          · exact ⟨y, by simpa [hq] using hy, by simp [rousing, hq]⟩
    rw [Semaphore.header_of_head hhead', wp_bind, wp_derefNode (s := s.setSem sem _) hnd]
    by_cases hc : some n = w.tail
    · simp only [if_pos hc, wp_bind]
      rw [wp_setHeader setSem_semaphoreTable_self, setSem_setSem]
      exact rest _ (by simp [Semaphore.dropHead, hhead', hc])
    · simp only [if_neg hc, wp_bind]
      rw [wp_setHeader setSem_semaphoreTable_self, setSem_setSem]
      exact rest _ (by simp [Semaphore.dropHead, hhead', hc])

theorem Waiters.length_lt {H : Set Ptr} (hw : Waiters H s sem st ps) : ps.length ≤ s.nextNode := by
  obtain ⟨ns, hb⟩ := hw.list
  rw [← hb.length_eq]
  exact hb.length_le

/-- `while(unblock_process_sem(...) != 1);` wakes everybody. -/
theorem Mid.wp_unblockAll {Q : Unit → Kernel → Prop} {n : Nat} (m : Mid K s₀ ∅ s c r) (hl : K.resched)
    (hf : K.flush sem) (hsem : s.semaphoreTable sem = some st) (hw : Waiters ∅ s sem st ps)
    (hn : ps.length < n)
    (hQ : ∀ t st₂, Mid K s₀ ∅ t c r → t.semaphoreTable sem = some st₂ → Waiters ∅ t sem st₂ [] →
      Wrote s t sem (rousing ps v) → Q () t) :
    wp (unblockAll sem v n) Q K.Allows s := by
  induction n generalizing s st ps with
  | zero => exact absurd hn (Nat.not_lt_zero _)
  | succ n ih =>
    rw [unblockAll, wp_bind]
    have := m.wp_unblockProcessSem (v := v) (w := st)
      (Q := fun a t => wp (if a ≠ 1 then unblockAll sem v n else pure ()) Q K.Allows t)
      hl hsem hw rfl ?_ ?_ ?_
    · rwa [setSem_same hsem] at this
    · rintro p l rfl
      refine ⟨?_, .inl hf⟩
      have := hw.room
      simp only [List.length_cons] at this
      omega
    · rintro rfl
      rw [setSem_same hsem]
      simpa using hQ s st m hsem hw (rousing_nil ▸ .refl)
    · rintro p l t st₂ rfl m' hsem' - hw' - - hsig
      rw [if_pos (by decide)]
      refine ih m' hsem' hw' ?_ fun u st₃ mu hu hwu hsig' => hQ u st₃ mu hu hwu (hsig.rouse hsig')
      simp only [List.length_cons] at hn
      omega

/-- `signal`, up to its `scheduler`. -/
theorem Mid.wp_signalStep {Q : Int → Kernel → Prop} (m : Mid K s₀ ∅ s c r) (hl : K.resched)
    (hnone : s.semaphoreTable sem = none → Q (-1) s)
    (hmax : ∀ st, s.semaphoreTable sem = some st → st.count = maxCount → Q (-2) s)
    (hok : ∀ st t st₂, s.semaphoreTable sem = some st → st.count ≠ maxCount → Mid K s₀ ∅ t c r →
      t.semaphoreTable sem = some st₂ → st₂.count = st.count + 1 → t.parentBlock = s.parentBlock →
      (∃ ws l, Waiters ∅ s sem st (ws ++ l) ∧ Waiters ∅ t sem st₂ l ∧ Wrote s t sem (rousing ws signalCall)) →
      Q 0 t) :
    wp (signalStep sem) Q K.Allows s := by
  rw [signalStep, wp_bind, wp_getSemaphoreStruct]
  cases hsem : s.semaphoreTable sem with
  | none => exact hnone hsem
  | some st =>
    obtain ⟨ps, hw⟩ := m.inv.sems.lists sem st hsem
    have hroom := hw.room
    by_cases hc : st.count = maxCount
    · simpa [hc] using hmax st hsem hc
    · have countUp : ps = [] → Mid K s₀ ∅ (s.setSem sem (some { st with count := st.count + 1 })) c r := by
        rintro rfl
        refine m.step (.count hsem fun ps hw' => ?_) rfl rfl rfl rfl (by simp) m.wakes
        obtain rfl := hw.unique hw'
        exact ⟨by simp, .inr fun h => by simp at h ⊢; omega⟩
      -- nobody is woken
      have still : ps = [] → ∃ ws l, Waiters ∅ s sem st (ws ++ l) ∧
          Waiters ∅ (s.setSem sem (some { st with count := st.count + 1 })) sem { st with count := st.count + 1 } l ∧
          Wrote s (s.setSem sem (some { st with count := st.count + 1 })) sem (rousing ws signalCall) := by
        intro hnil
        obtain ⟨ns, hb⟩ := hw.list
        refine ⟨[], ps, hw, ?_, ?_⟩
        · exact (countUp hnil).inv.waiters setSem_semaphoreTable_self ⟨hb.chain, hb.tail, hb.procs, hb.bound⟩
        · exact rousing_nil ▸ .of_nodes rfl rfl (fun i hi => by simp [Kernel.setSem, hi]) rfl fun p y hy => ⟨y, hy, rfl⟩
      simp only [if_neg hc, wp_bind, wp_modifySem hsem]
      by_cases hle : st.count + 1 ≤ 0
      · simp only [if_pos hle, wp_bind, wp_pure]
        refine m.wp_unblockProcessSem (w := { st with count := st.count + 1 }) hl hsem hw rfl ?_ ?_ ?_
        · rintro p l rfl
          simp only [List.length_cons] at hroom
          exact ⟨by simp; omega, .inr fun h => by simp; omega⟩
        · exact fun hnil => hok st _ _ hsem hc (countUp hnil) setSem_semaphoreTable_self rfl rfl (still hnil)
        · rintro p l t st₂ rfl m' hsem' hcount hw' _ hpb hsig
          exact hok st t st₂ hsem hc m' hsem' hcount hpb ⟨[p], l, hw, hw', hsig⟩
      · have hnil : ps = [] := List.eq_nil_of_length_eq_zero (by omega)
        simp only [if_neg hle, wp_pure]
        exact hok st _ _ hsem hc (countUp hnil) setSem_semaphoreTable_self rfl rfl (still hnil)

end unblock

/-! ## System calls that wake -/

section calls

variable {K : Kind} {s s₀ : Kernel} {c p : Ptr} {r x : Process} {sem : Int} {st : Semaphore}

theorem Mid.resched (m : Mid K.quiet s₀ ∅ s c r) (hl : K.resched) : Mid K s₀ ∅ s c r :=
  m.mono (Kind.quiet_le hl)

theorem scount_done (m : Mid K.quiet s₀ ∅ s c r) (hl : K.resched) :
    wp (scount sem) (fun _ t => Done K s₀ t) K.Allows s := by
  rw [scount, wp_bind, wp_getSemaphoreStruct]
  cases s.semaphoreTable sem with
  | none => exact m.wp_answer hl _ _
  | some st => exact m.wp_answer hl _ _

theorem screate_done (m : Mid K.quiet s₀ ∅ s c r) (hl : K.resched) (count : Int) (semOk : Bool)
    (h16 : toInt16 count = count) :
    wp (screate count semOk) (fun _ t => Done K s₀ t) K.Allows s := by
  unfold screate
  by_cases hneg : count < 0
  · rw [if_pos hneg]
    exact m.wp_answer hl _ _
  · rw [if_neg hneg, wp_bind, wp_get]
    by_cases hmax : s.currentlyRunningSemaphores = nbMaxSems
    · rw [if_pos hmax]
      exact m.wp_answer hl _ _
    · rw [if_neg hmax]
      by_cases hok : semOk = false
      · rw [if_pos hok]
        exact m.wp_answer hl _ _
      rw [if_neg hok, wp_bind, wp_get]
      by_cases hov : s.semaphoreIdCounter = 2 ^ 31 - 1
      · simp only [if_pos hov, wp_bind, wp_throw]
        trivial
      · simp only [if_neg hov, wp_bind, wp_modify]
        have m1 := m.step (.semNew (c := count) (by omega)) rfl rfl rfl rfl (by simp) m.wakes
        have m2 := (m1.setParentBlock (b := false) (.inl rfl)).other
          (t := { s.setSem (s.semaphoreIdCounter + 1) (some ⟨toInt16 count, none⟩) with
          parentBlock := false
          semaphoreIdCounter := s.semaphoreIdCounter + 1
          currentlyRunningSemaphores := s.currentlyRunningSemaphores + 1 })
          (by rw [h16]; constructor <;> rfl) rfl rfl
        exact m2.wp_answer hl _ _

theorem signal_done (m : Mid K.quiet s₀ ∅ s c r) (hl : K.resched) (hpb : K.rash ∨ s.parentBlock = false) :
    wp (signal sem) (fun _ t => Done K s₀ t) K.Allows s := by
  rw [signal, wp_bind]
  refine (m.resched hl).wp_signalStep hl (fun _ => ?_) (fun st _ _ => ?_) ?_
  · exact m.wp_answer hl _ _
  · exact m.wp_answer hl _ _
  · intro st t st₂ _ _ m' _ _ hb _
    simp only [ne_eq, not_true_eq_false, if_false, wp_bind, wp_get]
    by_cases hp : t.parentBlock = false
    · rw [if_pos hp]
      exact m'.wp_scheduleAnswer hl _ _
    · rw [if_neg hp]
      rcases hpb with hrash | hpb
      · exact (m'.mono (Kind.le_quiet hrash)).wp_answer hl _ _
      · exact absurd (hb.trans hpb) hp

theorem rest_semaphoreTable {t : Kernel} (h : t.rest = s.rest) : t.semaphoreTable = s.semaphoreTable := by
  simp only [Kernel.rest, Prod.mk.injEq] at h
  exact h.1.1

theorem rest_parentBlock {t : Kernel} (h : t.rest = s.rest) : t.parentBlock = s.parentBlock := by
  simp only [Kernel.rest, Prod.mk.injEq] at h
  exact h.1.2.2.2.2

/-- `sdelete` wakes everybody and forgets the semaphore. -/
theorem sdelete_done (m : Mid K.quiet s₀ ∅ s c r) (hl : K.resched) (hf : K.flush sem) :
    wp (sdelete sem) (fun _ t => Done K s₀ t ∧ t.semaphoreTable sem = none) K.Allows s := by
  rw [sdelete, wp_bind, wp_getSemaphoreStruct]
  cases hsem : s.semaphoreTable sem with
  | none =>
    refine wp_mono (wp_and (m.wp_answer hl _ _) (keeps_saveContext _ s)) (fun _ t _ h => ?_)
      (fun _ _ h => h)
    exact ⟨h.1, by rw [rest_semaphoreTable h.2, hsem]⟩
  | some st =>
    obtain ⟨ps, hw⟩ := m.inv.sems.lists sem st hsem
    simp only [wp_bind, wp_get]
    refine (m.resched hl).wp_unblockAll hl hf hsem hw (Nat.lt_succ_of_le hw.length_lt) ?_
    intro t st₂ m' hsem' hw' _
    rw [wp_modify]
    have m1 := m'.step (.semDrop hsem' hw') rfl rfl rfl rfl (by simp) m'.wakes
    have m2 := m1.other (t := { t.setSem sem none with
      currentlyRunningSemaphores := t.currentlyRunningSemaphores - 1 }) (by constructor <;> rfl) rfl rfl
    refine wp_mono (wp_and (m2.wp_scheduleAnswer hl _ _) (keeps_schedule _ _)) (fun _ u _ h => ?_)
      (fun _ _ h => h)
    exact ⟨h.1, by rw [rest_semaphoreTable h.2]; exact setSem_semaphoreTable_self⟩

/-- `sreset` wakes everybody and sets the count. -/
theorem sreset_done (m : Mid K.quiet s₀ ∅ s c r) (hl : K.resched) (hf : K.flush sem) (count : Int) :
    wp (sreset sem count) (fun _ t => Done K s₀ t ∧ (0 ≤ count → ∀ st, t.semaphoreTable sem = some st →
      st.count = toInt16 count ∧ st.head = none)) K.Allows s := by
  rw [sreset, wp_bind, wp_getSemaphoreStruct]
  cases hsem : s.semaphoreTable sem with
  | none =>
    refine wp_mono (wp_and (m.wp_answer hl _ _) (keeps_saveContext _ s)) (fun _ t _ h => ?_)
      (fun _ _ h => h)
    refine ⟨h.1, fun _ st hst => ?_⟩
    rw [rest_semaphoreTable h.2, hsem] at hst
    cases hst
  | some st =>
    by_cases hneg : count < 0
    · simp only [if_pos hneg]
      exact wp_mono (m.wp_answer hl _ _) (fun _ t _ h => ⟨h, fun hc => absurd hneg (by omega)⟩)
        (fun _ _ h => h)
    obtain ⟨ps, hw⟩ := m.inv.sems.lists sem st hsem
    simp only [if_neg hneg, wp_bind, wp_get]
    refine (m.resched hl).wp_unblockAll hl hf hsem hw (Nat.lt_succ_of_le hw.length_lt) ?_
    intro t st₂ m' hsem' hw' _
    rw [wp_modifySem hsem']
    have m1 := m'.step (.count (c := toInt16 count) hsem' fun ps' hw'' => by
      obtain rfl := hw'.unique hw''
      exact ⟨by simp, .inl hf⟩) rfl rfl rfl rfl (by simp) m'.wakes
    refine wp_mono (wp_and (m1.wp_scheduleAnswer hl _ _) (keeps_schedule _ _)) (fun _ u _ h => ?_)
      (fun _ _ h => h)
    refine ⟨h.1, fun _ st₃ hst₃ => ?_⟩
    rw [rest_semaphoreTable h.2, setSem_semaphoreTable_self] at hst₃
    cases hst₃
    obtain ⟨ns, hb⟩ := hw'.list
    obtain rfl : ns = [] := List.eq_nil_of_length_eq_zero (by simpa using hb.length_eq)
    exact ⟨rfl, hb.chain⟩

theorem tryWait_done (m : Mid K.quiet s₀ ∅ s c r) (hl : K.resched) :
    wp (tryWait sem) (fun _ t => Done K s₀ t) K.Allows s := by
  rw [tryWait, wp_bind, wp_getSemaphoreStruct]
  cases hsem : s.semaphoreTable sem with
  | none => exact m.wp_answer hl _ _
  | some st =>
    by_cases hpos : st.count > 0
    · simp only [if_pos hpos, wp_bind]
      rw [wp_modifySem hsem]
      have m1 := (m.resched hl).step (.count (c := st.count - 1) hsem fun ps hw => by
        have := hw.room
        exact ⟨by simp; omega, .inr fun h => by simp; omega⟩) rfl rfl rfl rfl (by simp) m.wakes
      exact m1.wp_scheduleAnswer hl _ _
    · simp only [if_neg hpos]
      exact m.wp_answer hl _ _

/-- The loop of `signaln`, from a count that has room for all of it. -/
theorem Mid.wp_signalnLoop {Q : Int → Kernel → Prop} {n : Nat} (m : Mid K s₀ ∅ s c r) (hl : K.resched)
    (hsem : s.semaphoreTable sem = some st) (hn : st.count + n ≤ maxCount)
    (hQ : ∀ t st₂, Mid K s₀ ∅ t c r → t.semaphoreTable sem = some st₂ → st₂.count = st.count + n →
      (∃ ws l, Waiters ∅ s sem st (ws ++ l) ∧ Waiters ∅ t sem st₂ l ∧ Wrote s t sem (rousing ws signalCall)) →
      Q 0 t) : wp (signalnLoop sem n) Q K.Allows s := by
  induction n generalizing s st with
  | zero =>
    obtain ⟨ps, hw⟩ := m.inv.sems.lists sem st hsem
    exact hQ s st m hsem (by simp) ⟨[], ps, hw, hw, rousing_nil ▸ .refl⟩
  | succ n ih =>
    rw [signalnLoop, wp_bind]
    refine m.wp_signalStep hl (fun hc => ?_) (fun st' hst' hc => ?_) ?_
    · rw [hsem] at hc
      cases hc
    · rw [hsem] at hst'
      cases hst'
      push_cast at hn
      omega
    · intro st' t st₂ hst' _ m' hsem' hcount _ hroused
      rw [hsem] at hst'
      cases hst'
      obtain ⟨ws, l, hw, hw', hsig⟩ := hroused
      push_cast at hn
      rw [if_neg (by decide)]
      refine ih m' hsem' (by omega) fun u st₃ mu hu hcu hroused => hQ u st₃ mu hu (by push_cast; omega) ?_
      obtain ⟨ws', l', hl, hl', hsig'⟩ := hroused
      obtain rfl := hw'.unique hl
      exact ⟨ws ++ ws', l', by rwa [List.append_assoc], hl', hsig.rouse hsig'⟩

theorem signaln_done (m : Mid K.quiet s₀ ∅ s c r) (hl : K.resched) (hm : K.mute) (count : Int) :
    wp (signaln sem count) (fun _ t => Done K s₀ t ∧ (s.parentBlock = false → t.parentBlock = false))
      K.Allows s := by
  have fails : ∀ v, wp (answer v []) (fun _ t => Done K s₀ t ∧ (s.parentBlock = false → t.parentBlock = false))
      K.Allows s := by
    intro v
    refine wp_mono (wp_and (m.wp_answer hl v []) (keeps_saveContext _ s)) (fun _ t _ h => ⟨h.1, fun hb => ?_⟩)
      (fun _ _ h => h)
    rw [rest_parentBlock h.2, hb]
  rw [signaln, wp_bind, wp_getSemaphoreStruct]
  cases hsem : s.semaphoreTable sem with
  | none => exact fails _
  | some st =>
    by_cases hneg : count < 0
    · simp only [if_pos hneg]
      exact fails _
    by_cases hmax : st.count + count > maxCount
    · simp only [if_neg hneg, if_pos hmax]
      exact fails _
    simp only [if_neg hneg, if_neg hmax, wp_bind, wp_modify]
    refine ((m.resched hl).setParentBlock (b := true) (.inr hm)).wp_signalnLoop hl hsem (by omega) ?_
    intro t _ m' _ _ _
    have m2 := m'.setParentBlock (b := false) (.inl rfl)
    simp only [ne_eq, not_true_eq_false, if_false, wp_bind, wp_modify]
    refine wp_mono (wp_and (m2.wp_scheduleAnswer hl _ _) (keeps_schedule _ _)) (fun _ u _ h => ⟨h.1, fun _ => ?_⟩)
      (fun _ _ h => h)
    rw [rest_parentBlock h.2]

end calls

end Xinul
