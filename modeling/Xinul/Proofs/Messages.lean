import Xinul.Proofs.Semaphores

/-!
# The message queue functions

Each function of `msgqueue.c` ends in `Done`, a `preceive` whose store faults in what the
handler of the trap leaves. Only the first branch of `preceive` puts a process in the
activatable queue under its old state.
-/

namespace Xinul

open Prog Waiting

/-- What is chained in a list of a message queue waits for it, and knows the list. -/
theorem Process.Fits.onQueue {x : Process} {running : Int} {d : QueueHead} {q : QueuePtr}
    (h : x.Fits running) (hl : x.nextPrev = some d) (hq : d.queue? = some q) :
    x.started = true ∧ x.state = .blockedQueue ∧ x.message.blockedHead = some d := by
  cases hb : x.started with
  | false => simp [Process.Fits, hb, hl] at h
  | true =>
    cases hs : x.state <;> simp only [Process.Fits, hb, hs, hl, Bool.true_eq_false, if_false, false_and,
      Option.some.injEq, reduceCtorEq, or_false] at h
    case blockedQueue =>
      obtain ⟨h', -, hm, rfl | rfl⟩ := h
      · exact ⟨rfl, rfl, hm⟩
      · cases hq
    case asleep => rcases h with rfl | rfl <;> cases hq
    all_goals subst h; cases hq

/-- The message queue `valid_fid` finds. -/
def Kernel.queueOf (s : Kernel) (fid : Int) : Option QueuePtr :=
  if fid < 0 ∨ fid ≥ nbQueues then none else s.allQueues fid.toNat

/-- The producer the first branch of `preceive` wakes. -/
def Kernel.producerMet (s : Kernel) (fid : Int) : Option Ptr := do
  let q ← s.queueOf fid
  let m ← s.msgQueue q
  if m.isEmpty then (s.queue (.blockedProd q)).getLast? else none

/-- What `preceive` has done when its store faults: a message has left the ring, or a
producer its list. -/
inductive Kernel.Faulted (s : Kernel) (fid : Int) : Kernel → Prop where
  | lost {q m} : s.queueOf fid = some q → s.msgQueue q = some m → m.isEmpty = false →
      s.Faulted fid (s.setQueue q (some m.popOldestMsg))
  | met {q m p x l} : s.queueOf fid = some q → s.msgQueue q = some m → m.isEmpty = true →
      s.queue (.blockedProd q) = l ++ [p] → s.heap p = some x → x.nextPrev = some (.blockedProd q) →
      s.Faulted fid (((s.unlink p (.blockedProd q)).mapProc p fun r =>
        { r with message := { r.message with status := .sent } }).setQueue q (some (m.accept x.message.value)))

/-- Whether the store of a `preceive` faults. -/
def Kernel.storeFaults (s : Kernel) (fid : Int) (message : UserPtr) : Bool :=
  message = .unmapped && match s.queueOf fid with
    | some q => match s.msgQueue q with
      | some m => !m.isEmpty || !(s.queue (.blockedProd q)).isEmpty
      | none => false
    | none => false

section primitives

variable {s : Kernel} {E : Fault → Prop} {q : QueuePtr}

@[simp] theorem wp_validFid {Q : Option QueuePtr → Kernel → Prop} {fid : Int} :
    wp (validFid fid) Q E s ↔ Q (s.queueOf fid) s := by
  unfold validFid Kernel.queueOf
  by_cases h : fid < 0 ∨ fid ≥ nbQueues
  · simp only [if_pos h, wp_pure]
  · simp only [if_neg h, wp_bind, wp_get, wp_pure]

theorem run_validFid (fid : Int) : validFid fid s = .ok (s.queueOf fid, s) := by
  have h : wp (validFid fid) (fun o t => o = s.queueOf fid ∧ t = s) (fun _ => False) s := wp_validFid.2 ⟨rfl, rfl⟩
  obtain ⟨o, t, hrun, rfl, rfl⟩ := wp_returns h
  exact hrun

theorem run_derefQueue {m : MsgQueue} (h : s.msgQueue q = some m) : derefQueue q s = .ok (m, s) := by
  rw [derefQueue, run_bind rfl, h]
  rfl

theorem run_deref {p : Ptr} {x : Process} (h : s.heap p = some x) : deref p s = .ok (x, s) := by
  rw [deref, run_bind rfl, h]
  rfl

theorem run_modifyProc {p : Ptr} {x : Process} {f : Process → Process} (h : s.heap p = some x) :
    modifyProc p f s = .ok ((), s.mapProc p f) := by
  rw [modifyProc, run_bind (run_deref h)]
  rfl

theorem wp_derefQueue {Q : MsgQueue → Kernel → Prop} (hE : E .badQueue)
    (h : ∀ v, s.msgQueue q = some v → Q v s) : wp (derefQueue q) Q E s := by
  simp only [derefQueue, wp_bind, wp_get]
  cases hq : s.msgQueue q with
  | some v => exact h v hq
  | none => exact hE

end primitives

/-! ## The store of `preceive` -/

section store

variable {H : Set Ptr} {s : Kernel} {fid : Int} {message : UserPtr}

theorem afterStore_of_mapped {f g k : KernelM Unit} (h : message ≠ .unmapped) : afterStore f message k = afterStore g message k := by
  rw [afterStore, afterStore, if_neg h, if_neg h]

theorem preceiveWith_of_mapped (f g : KernelM Unit) (h : message ≠ .unmapped) : preceiveWith f fid message = preceiveWith g fid message := by
  unfold preceiveWith
  simp only [afterStore_of_mapped (f := f) (g := g) h]

theorem run_queueOut {l : List Ptr} {p : Ptr} {hd : QueueHead} (hi : Core H s) (hl : s.queue hd = l ++ [p]) :
    queueOut hd s = .ok (some p, s.unlink p hd) := by
  have h : wp (queueOut hd) (fun o t => o = some p ∧ t = s.unlink p hd) (fun _ => False) s := by
    refine wp_queueOut hi (fun hnil => by simp [hnil] at hl) fun l' p' r hl' _ _ _ => ?_
    obtain ⟨-, rfl⟩ : l = l' ∧ p = p' := by simpa using List.append_inj' (hl.symm.trans hl') rfl
    exact ⟨rfl, rfl⟩
  obtain ⟨o, t, hrun, rfl, rfl⟩ := wp_returns h
  exact hrun

/-- A `preceive` whose store faults takes its message first, and then does what the handler does. -/
theorem preceiveWith_faults (hi : Core H s) (h : s.storeFaults fid message = true) :
    ∃ u, s.Faulted fid u ∧ ∀ fault, preceiveWith fault fid message s = fault u := by
  simp only [Kernel.storeFaults, Bool.and_eq_true, decide_eq_true_eq] at h
  obtain ⟨rfl, h⟩ := h
  have store : ∀ fault k : KernelM Unit, afterStore fault .unmapped k = fault := fun _ _ => if_pos rfl
  cases hfid : s.queueOf fid with
  | none => simp [hfid] at h
  | some q =>
    cases hm : s.msgQueue q with
    | none => simp [hfid, hm] at h
    | some m =>
      simp only [hfid, hm, Bool.or_eq_true, Bool.not_eq_true'] at h
      by_cases hprod : m.isEmpty = true ∧ (s.queue (.blockedProd q)).isEmpty = false
      · obtain ⟨l, p, hl⟩ : ∃ l p, s.queue (.blockedProd q) = l ++ [p] := by
          rcases List.eq_nil_or_concat (s.queue (.blockedProd q)) with hnil | ⟨l, p, hl⟩
          · simp [hnil] at hprod
          · exact ⟨l, p, by simpa using hl⟩
        obtain ⟨x, hp, hn, -⟩ := hi.live_of_mem (p := p) (d := .blockedProd q) (by simp [hl])
        refine ⟨_, .met hfid hm hprod.1 hl hp hn, fun fault => ?_⟩
        rw [preceiveWith, run_bind (run_validFid fid), hfid]
        dsimp only
        rw [run_bind (run_derefQueue hm), run_bind rfl, if_pos hprod, run_bind (run_queueOut hi hl)]
        have hp1 : (s.unlink p (.blockedProd q)).heap p = some { x with nextPrev := none } := by simp [hp]
        have hp2 : ((s.unlink p (.blockedProd q)).mapProc p fun r => { r with message := { r.message with status := .sent } }).heap p =
            some { x with nextPrev := none, message := { x.message with status := .sent } } := by simp [hp]
        dsimp only
        rw [run_bind (run_modifyProc hp1), run_bind (run_deref hp2)]
        dsimp only
        rw [run_bind rfl, store]
      · have he : m.isEmpty = false := by
          cases hb : m.isEmpty with
          | false => rfl
          | true => simp [hb] at h hprod; exact absurd h (by simpa using hprod)
        refine ⟨_, .lost hfid hm he, fun fault => ?_⟩
        rw [preceiveWith, run_bind (run_validFid fid), hfid]
        dsimp only
        rw [run_bind (run_derefQueue hm), run_bind rfl, if_neg hprod, run_bind rfl, if_neg (by simp [he]), run_bind rfl]
        split <;> rw [run_bind rfl, store]

/-- A `preceive` whose store does not fault has nothing to do with the handler. -/
theorem preceiveWith_stores (f g : KernelM Unit) (h : s.storeFaults fid message = false) :
    preceiveWith f fid message s = preceiveWith g fid message s := by
  by_cases hmap : message = .unmapped
  · subst hmap
    simp only [Kernel.storeFaults, decide_true, Bool.true_and] at h
    rw [preceiveWith, preceiveWith, run_bind (run_validFid fid), run_bind (run_validFid fid)]
    cases hfid : s.queueOf fid with
    | none => rfl
    | some q =>
      dsimp only
      cases hm : s.msgQueue q with
      | none =>
        have hbad : derefQueue q s = .error .badQueue := by
          rw [derefQueue, run_bind rfl, hm]
          rfl
        rw [run_bind_error hbad, run_bind_error hbad]
      | some m =>
        simp only [hfid, hm, Bool.or_eq_false_iff, Bool.not_eq_false'] at h
        rw [run_bind (run_derefQueue hm), run_bind (run_derefQueue hm), run_bind rfl, run_bind rfl,
          if_neg (by simp [h.2]), if_neg (by simp [h.2]), run_bind rfl, run_bind rfl, if_pos ⟨h.1, h.2⟩, if_pos ⟨h.1, h.2⟩]
  · rw [preceiveWith_of_mapped f g hmap]

/-- The records when the store of `preceive` faults are those it was called with, but for the
producer taken off its list. -/
theorem Kernel.Faulted.heap {u : Kernel} (h : s.Faulted fid u) : u.heap = s.heap ∨
    ∃ p x q, s.heap p = some x ∧ x.nextPrev = some (.blockedProd q) ∧ u.heap = Function.update s.heap p
      (some { x with nextPrev := none, message := { x.message with status := .sent } }) := by
  cases h with
  | lost => exact .inl rfl
  | met _ _ _ _ hp hn => exact .inr ⟨_, _, _, hp, hn, by simp [Kernel.setQueue, Kernel.unlink, Kernel.mapProc, hp]⟩

theorem Kernel.Faulted.table {u : Kernel} (h : s.Faulted fid u) : u.pidProcessHashTable = s.pidProcessHashTable := by
  cases h <;> rfl

theorem Kernel.Faulted.queue {u : Kernel} (h : s.Faulted fid u) : ∃ q, s.queueOf fid = some q := by
  cases h with
  | lost hfid => exact ⟨_, hfid⟩
  | met hfid => exact ⟨_, hfid⟩

theorem Kernel.unmapped_of_storeFaults (h : s.storeFaults fid message = true) : message = .unmapped := by
  rw [Kernel.storeFaults, Bool.and_eq_true] at h
  simpa using h.1

theorem Kernel.Faulted.storeFaults {u : Kernel} (h : s.Faulted fid u) (hm : message = .unmapped) :
    s.storeFaults fid message = true := by
  subst hm
  cases h with
  | lost hfid hv he => simp [Kernel.storeFaults, hfid, hv, he]
  | met hfid hv he hl => simp [Kernel.storeFaults, hfid, hv, he, hl]

section resume

variable {c : Ptr} {r : Process}

theorem Running.run_derefOpt (hr : Running s c r) :
    derefOpt (s.pidProcessHashTable s.currentRunningProcessPid) s = .ok (r, s) := by
  rw [hr.table]
  exact run_deref hr.heap

/-- A `preceive` that goes on and whose store faults does what the handler does. -/
theorem Running.preceiveResume_faults {fault : KernelM Unit} (hr : Running s c r)
    (h : message = .unmapped ∧ r.message.status = .received) : preceiveResumeWith fault message s = fault s := by
  obtain ⟨rfl, hst⟩ := h
  rw [preceiveResumeWith, run_bind rfl, run_bind hr.run_derefOpt, if_neg (not_not.2 hst), afterStore, if_pos rfl]

theorem Running.preceiveResume_stores (f g : KernelM Unit) (hr : Running s c r)
    (h : ¬ (message = .unmapped ∧ r.message.status = .received)) :
    preceiveResumeWith f message s = preceiveResumeWith g message s := by
  rw [preceiveResumeWith, preceiveResumeWith, run_bind rfl, run_bind hr.run_derefOpt, run_bind rfl,
    run_bind hr.run_derefOpt]
  by_cases hst : r.message.status = .received
  · rw [if_neg (not_not.2 hst), if_neg (not_not.2 hst), afterStore_of_mapped fun hm => h ⟨hm, hst⟩]
  · rw [if_pos hst, if_pos hst]

end resume

end store

section mid

variable {K : Kind} {H : Set Ptr} {s s₀ : Kernel} {c p : Ptr} {r x : Process} {q : QueuePtr} {d : QueueHead}

theorem Mid.setQueue {v w : MsgQueue} (m : Mid K s₀ H s c r) (hq : s.msgQueue q = some v) :
    Mid K s₀ H (s.setQueue q (some w)) c r :=
  m.step (.msgQueue (k := s.nextQueue) le_rfl (fun _ => m.inv.queueIds q (by simp [hq]))
    (fun h => by cases h)) rfl rfl rfl rfl m.mine m.wakes

/-- What is known of a process that leaves a list of a message queue. -/
theorem Mid.unlinkQueue (m : Mid K s₀ ∅ s c r) (hp : s.heap p = some x) (hl : x.nextPrev = some d)
    (hq : d.queue? = some q) : x.state.dead = false ∧ x.state = .blockedQueue ∧ x.started = true ∧
      x.message.blockedHead = some d ∧ Mid K s₀ (insert p ∅) (s.unlink p d) c r ∧
      (s.unlink p d).heap p = some { x with nextPrev := none } := by
  obtain ⟨hst, hs, hm⟩ := (m.inv.fits p x hp (by simp)).onQueue hl hq
  exact ⟨by rw [hs]; rfl, hs, hst, hm, m.unlink hp hl, by simp [hp]⟩

/-- `free_blocked_queue` wakes everybody in the list. -/
theorem Mid.wp_freeBlocked {Q : Unit → Kernel → Prop} (m : Mid K s₀ ∅ s c r) (hl : K.resched)
    (hq : d.queue? = some q) (hQ : ∀ t, Mid K s₀ ∅ t c r → t.queue d = [] →
      (∀ d', d' ≠ d → d' ≠ .activatable → t.queue d' = s.queue d') → t.msgQueue = s.msgQueue → Q () t) :
    wp (freeBlocked d) Q K.Allows s := by
  have hda : d ≠ .activatable := by
    rintro rfl
    cases hq
  have loop : ∀ n u, Mid K s₀ ∅ u c r → (u.queue d).length < n →
      (∀ d', d' ≠ d → d' ≠ .activatable → u.queue d' = s.queue d') → u.msgQueue = s.msgQueue →
      wp (freeBlockedQueue d n) Q K.Allows u := by
    intro n
    induction n with
    | zero => exact fun u _ hn _ _ => absurd hn (Nat.not_lt_zero _)
    | succ n ih =>
      intro u mu hn hother hmsg
      rw [freeBlockedQueue, wp_bind]
      refine wp_queueOut mu.inv.toCore (fun hnil => hQ u mu hnil hother hmsg) ?_
      intro l p x hlist hp hlink _
      obtain ⟨hdead, -, -, -, m1, hp1⟩ := mu.unlinkQueue hp hlink hq
      simp only [wp_bind]
      refine m1.wp_activate (by simp) hp1 hdead (.inl hl) rfl rfl rfl rfl rfl
        ⟨rfl, rfl, rfl, rfl, hdead.symm, .inl rfl⟩ rfl ?_
      rintro t m2 rfl
      refine ih _ m2 ?_ (fun d' h1 h2 => ?_) hmsg
      · simp only [link_queue, mapProc_queue, unlink_queue]
        rw [Function.update_of_ne hda, Function.update_self, List.length_erase_of_mem (by simp [hlist])]
        rw [hlist] at hn ⊢
        simp only [List.length_append, List.length_cons, List.length_nil] at hn ⊢
        omega
      · simp only [link_queue, mapProc_queue, unlink_queue]
        rw [Function.update_of_ne h2, Function.update_of_ne h1, hother d' h1 h2]
  rw [freeBlocked, wp_bind, wp_get]
  exact loop _ s m (Nat.lt_succ_self _) (fun _ _ _ => rfl) rfl

theorem Kernel.producerMet_eq {fid : Int} {v : MsgQueue} {l : List Ptr} (hfid : s.queueOf fid = some q)
    (hv : s.msgQueue q = some v) (he : v.isEmpty = true) (hl : s.queue (.blockedProd q) = l ++ [p]) :
    s.producerMet fid = some p := by
  simp [Kernel.producerMet, hfid, hv, he, hl]

/-- When its store faults, `preceive` has left the producer it met in no list. -/
theorem Mid.faulted {fid : Int} {u : Kernel} (m : Mid K s₀ ∅ s c r) (hstrand : ∀ p, s.producerMet fid = some p → K.strand)
    (hu : s.Faulted fid u) : Mid K s₀ ∅ u c r := by
  cases hu with
  | lost _ hv _ => exact m.setQueue hv
  | @met q v p x l hfid hv he hl hp hn =>
    obtain ⟨-, hstate, hst, hhead, m1, hp1⟩ := m.unlinkQueue (q := q) hp hn rfl
    have m2 := m1.write (f := fun r => { r with message := { r.message with status := .sent } }) hp1 (m.ne_of_linked hp hn)
      ⟨rfl, rfl, rfl, rfl, rfl, rfl⟩ rfl rfl rfl (.inr ⟨rfl, rfl, rfl, rfl, rfl, .inl rfl⟩) rfl
    have hp2 : ((s.unlink p (.blockedProd q)).mapProc p
        fun r => { r with message := { r.message with status := .sent } }).heap p =
        some { x with nextPrev := none, message := { x.message with status := .sent } } := by simp [hp]
    have m3 := m2.setQueue (q := q) (v := v) (w := v.accept x.message.value) hv
    refine m3.step (.release (by simp) hp2 ?_ (by simp [hstate]) fun _ => hstrand p ?_) rfl rfl rfl rfl (by simp) m3.wakes
    · simp [Process.Fits, hst, hstate, hhead, QueueHead.queue?]
    · exact Kernel.producerMet_eq hfid hv he hl

end mid

/-! ## The system calls -/

section calls

variable {K : Kind} {s s₀ : Kernel} {c : Ptr} {r : Process} {fid : Int}

theorem pcount_done (m : Mid K.quiet s₀ ∅ s c r) (hl : K.resched) (count : Bool) :
    wp (pcount fid count) (fun _ t => Done K s₀ t) K.Allows s := by
  rw [pcount, wp_bind, wp_validFid]
  cases s.queueOf fid with
  | none => exact m.wp_answer hl _ _
  | some q =>
    by_cases hc : count = false
    · simp only [if_pos hc]
      exact m.wp_answer hl _ _
    simp only [if_neg hc, wp_bind]
    refine wp_derefQueue trivial fun v hv => ?_
    rw [wp_queueEmpty]
    by_cases he : (s.queue (.blockedCons q)).isEmpty = false
    · simp only [if_pos he, wp_bind, wp_get]
      exact m.wp_answer hl _ _
    · simp only [if_neg he, wp_bind, wp_get]
      exact m.wp_answer hl _ _

theorem preset_done (m : Mid K.quiet s₀ ∅ s c r) (hl : K.resched) :
    wp (preset fid) (fun _ t => Done K s₀ t) K.Allows s := by
  rw [preset, wp_bind, wp_validFid]
  cases s.queueOf fid with
  | none => exact m.wp_answer hl _ _
  | some q =>
    simp only [wp_bind]
    refine wp_derefQueue trivial fun v hv => ?_
    rw [wp_modify]
    refine ((m.resched hl).setQueue hv).wp_freeBlocked (q := q) hl rfl fun t m1 _ _ _ => ?_
    exact m1.wp_freeBlocked (q := q) hl rfl fun u m2 _ _ _ => m2.wp_scheduleAnswer hl _ _

theorem pdelete_done (m : Mid K.quiet s₀ ∅ s c r) (hl : K.resched) :
    wp (pdelete fid) (fun _ t => Done K s₀ t) K.Allows s := by
  rw [pdelete, wp_bind, wp_validFid]
  cases s.queueOf fid with
  | none => exact m.wp_answer hl _ _
  | some q =>
    simp only [wp_bind]
    refine wp_derefQueue trivial fun v hv => ?_
    refine (m.resched hl).wp_freeBlocked (q := q) hl rfl fun t m1 hcons _ _ => ?_
    refine m1.wp_freeBlocked (q := q) hl rfl fun u m2 hprod hother _ => ?_
    rw [wp_modify]
    have hcons' : u.queue (.blockedCons q) = [] := by
      rw [hother _ (by simp) (by simp), hcons]
    have m3 := m2.step (.msgQueue (q := q) (m := none) (k := u.nextQueue) le_rfl (fun h => by cases h)
      (fun _ d hd => ?_)) rfl rfl rfl rfl (by simp) m2.wakes
    · have m4 := m3.other (t := { u.setQueue q none with
        allQueues := Function.update u.allQueues fid.toNat none }) (by constructor <;> rfl)
        rfl rfl
      exact m4.wp_scheduleAnswer hl _ _
    · cases d with
      | blockedCons k => cases hd; exact hcons'
      | blockedProd k => cases hd; exact hprod
      | _ => cases hd

theorem pcreate_done (m : Mid K.quiet s₀ ∅ s c r) (hl : K.resched) (count : Int) (queueOk arrOk : Bool) :
    wp (pcreate count queueOk arrOk) (fun _ t => Done K s₀ t) K.Allows s := by
  unfold pcreate
  by_cases hneg : count < 0
  · rw [if_pos hneg]
    exact m.wp_answer hl _ _
  rw [if_neg hneg, wp_bind, wp_get]
  cases getFirstFreeIndex s with
  | none => exact m.wp_answer hl _ _
  | some index =>
    by_cases hok : queueOk = false
    · simp only [if_pos hok]
      exact m.wp_answer hl _ _
    simp only [if_neg hok, wp_bind, wp_get, wp_modify]
    by_cases harr : 4 * count.toNat ≥ secmallocLimit ∨ arrOk = false
    · simp only [if_pos harr]
      have m1 := m.other (t := { s with
        allQueues := Function.update s.allQueues index (some s.nextQueue)
        nextQueue := s.nextQueue + 1 }) (by constructor <;> first | rfl | exact Nat.le_succ _) rfl rfl
      exact m1.wp_answer hl _ _
    · simp only [if_neg harr, wp_bind, wp_modify]
      have m1 := m.step (.msgQueue (q := s.nextQueue) (m := some ⟨fun _ => 0, count.toNat, 0, 0, [], []⟩)
        (k := s.nextQueue + 1) (Nat.le_succ _) (fun _ => Nat.lt_succ_self _) (fun h => by cases h))
        rfl rfl rfl rfl (by simp) m.wakes
      -- the lists of a queue that did not exist are empty
      have hempty : ∀ d : QueueHead, d.queue? = some s.nextQueue → s.queue d = [] := by
        intro d hd
        refine List.eq_nil_iff_forall_not_mem.2 fun p hp => ?_
        obtain ⟨x, hx, hn, _⟩ := m.inv.live_of_mem hp
        exact absurd (m.inv.queueIds _ (m.inv.queues p x d _ hx hn hd)) (lt_irrefl _)
      have hcons : Function.update s.queue (.blockedCons s.nextQueue) [] = s.queue :=
        Function.update_eq_self_iff.2 (hempty _ rfl).symm
      have hprod : Function.update s.queue (.blockedProd s.nextQueue) [] = s.queue :=
        Function.update_eq_self_iff.2 (hempty _ rfl).symm
      rw [hcons, hprod]
      have m2 := m1.other (t := { s.setQueue s.nextQueue (some ⟨fun _ => 0, count.toNat, 0, 0, [], []⟩) with
        allQueues := Function.update s.allQueues index (some s.nextQueue)
        nextQueue := s.nextQueue + 1 }) (by constructor <;> rfl) rfl rfl
      exact m2.wp_answer hl _ _

theorem psend_done (m : Mid K.quiet s₀ ∅ s c r) (hl : K.resched)
    (hu : s.pidProcessHashTable idleId ≠ some c) (message : Int) :
    wp (psend fid message) (fun _ t => Done K s₀ t) K.Allows s := by
  rw [psend, wp_bind, wp_validFid]
  cases s.queueOf fid with
  | none => exact m.wp_answer hl _ _
  | some q =>
    simp only [wp_bind]
    refine wp_derefQueue trivial fun v hv => ?_
    rw [wp_queueEmpty]
    by_cases hcons : v.isEmpty = true ∧ (s.queue (.blockedCons q)).isEmpty = false
    · -- a consumer waits
      simp only [if_pos hcons, wp_bind]
      refine wp_queueOut m.inv.toCore (fun hnil => by simp [hnil] at hcons) ?_
      intro l p x hlist hp hlink _
      obtain ⟨hdead, -, -, -, m1, hp1⟩ := (m.resched hl).unlinkQueue (q := q) hp hlink rfl
      simp only [wp_bind]
      refine m1.wp_activate (by simp) hp1 hdead (.inl hl) rfl rfl rfl rfl rfl
        ⟨rfl, rfl, rfl, rfl, hdead.symm, .inl rfl⟩ rfl ?_
      rintro t m2 ht
      have hp2 : t.heap p = some { x with
          nextPrev := some .activatable, stamp := s.insertions, state := .activatable } := by
        simp [ht, Kernel.unlink, Kernel.mapProc, hp]
      have hv2 : t.msgQueue q = some v := by rw [ht]; exact hv
      have hcp : c ≠ p := m2.ne_of_linked hp2 rfl
      rw [wp_modifyProc hp2]
      have m3 := m2.write (f := fun r =>
        { r with message := { r.message with value := message, status := .received } }) hp2 hcp
        ⟨rfl, rfl, rfl, rfl, rfl, rfl⟩ rfl rfl rfl (.inr ⟨rfl, rfl, rfl, rfl, rfl, .inl rfl⟩) rfl
      rw [wp_modify]
      exact (m3.setQueue hv2).wp_scheduleAnswer hl _ _
    · simp only [if_neg hcons]
      by_cases hfull : v.isFull = true
      · simp only [if_pos hfull, wp_bind, wp_getCurrentProcess, m.running.table]
        refine (m.resched hl).wp_blockSelf (d := .blockedProd q) hl hu rfl rfl rfl rfl
          ⟨rfl, rfl, rfl, rfl, by rw [m.running.state]; rfl, .inl rfl⟩ rfl rfl
          (fun n => ?_) ?_ (by simp) (by simp) (by simp) rfl rfl fun h => by cases h
        · simp [Process.Fits, m.running.started, QueueHead.queue?]
        · rintro k ⟨⟩
          simp [hv]
      · simp only [if_neg hfull, wp_bind, wp_modify]
        exact (m.setQueue hv).wp_answer hl _ _

/-- The producer woken by `preceive` is switched to if it outranks everybody. -/
def Kernel.Hasty (s : Kernel) (p : Ptr) (x r : Process) : Prop :=
  s.heap p = some x ∧ (∀ q ∈ s.queue .activatable, ∀ y, s.heap q = some y → y.prio < x.prio) ∧
    r.prio ≤ x.prio ∧ s.NoneDue

/-- Such a producer is the first in line once it is woken. -/
theorem Kernel.Hasty.foremost {p : Ptr} {x y : Process} {t u : Kernel} (h : s.Hasty p x r)
    (hi : Inv ∅ s) (hn : x.nextPrev ≠ some .activatable) (hy : u.heap p = some y) (prio : y.prio = x.prio)
    (link : y.nextPrev = some .activatable) (others : ∀ q, q ≠ p → u.heap q = s.heap q)
    (queue : u.queue .activatable = insertWhile (fun c => t.value Process.prioField c < x.prio) p
      (s.queue .activatable))
    (values : ∀ q, q ≠ p → t.heap q = s.heap q) (counter : u.counter = s.counter) :
    Foremost u p y := by
  have hne : ∀ q ∈ s.queue .activatable, q ≠ p := by
    rintro q hq rfl
    obtain ⟨z, hz, hzn, _⟩ := hi.live_of_mem hq
    rw [h.1] at hz
    cases hz
    exact hn hzn
  refine ⟨hy, fun q hq hqp z hz => ?_, fun q z hz hzn ho => ?_, .inl ?_⟩
  · rw [queue, mem_insertWhile] at hq
    rw [others q hqp] at hz
    rw [prio]
    exact h.2.1 q (hq.resolve_left hqp) z hz
  · by_cases hqp : q = p
    · subst hqp
      rw [hy] at hz
      cases hz
      rw [link] at hzn
      cases hzn
    · rw [others q hqp] at hz
      rw [counter] at ho
      exact absurd ho (h.2.2.2 q z hz hzn)
  · rw [queue, insertWhile_of_forall, List.getLast?_concat]
    intro q hq
    obtain ⟨z, hz, _⟩ := hi.live_of_mem hq
    have := h.2.1 q hq z hz
    simpa [Kernel.value, values q (hne q hq), hz, Process.prioField] using this

/-- The producer whose message was taken is chained under its old state. -/
theorem handOver_done {Q : Unit → Kernel → Prop} {q : QueuePtr} {v : MsgQueue} {p : Ptr} {x : Process} {w : List Int}
    (m : Mid K.quiet s₀ ∅ s c r) (hl : K.resched) (hv : s.msgQueue q = some v) (hp : s.heap p = some x)
    (hlink : x.nextPrev = some (.blockedProd q)) (hstale : K.stale p)
    (hdone : ∀ t, Done K s₀ t → (s.Hasty p x r → t.currentRunningProcessPid = x.pid) → Q () t) :
    wp (queueAdd p .activatable Process.prioField >>= fun _ =>
        modify (·.setQueue q (some (v.handOver x.message.value))) >>= fun _ => scheduleAnswer succes w) Q K.Allows
      (((s.unlink p (.blockedProd q)).mapProc p fun r => { r with message := { r.message with status := .sent } }).setQueue q
        (some (v.accept x.message.value))) := by
  obtain ⟨hdead, hstate, hst, hhead, m1, hp1⟩ := (m.resched hl).unlinkQueue (q := q) hp hlink rfl
  have hcp : c ≠ p := m.ne_of_linked hp hlink
  -- the producer keeps the state `blockedQueue`
  have m2 := m1.write (f := fun r => { r with message := { r.message with status := .sent } }) hp1 hcp
    ⟨rfl, rfl, rfl, rfl, rfl, rfl⟩ rfl rfl rfl (.inr ⟨rfl, rfl, rfl, rfl, rfl, .inl rfl⟩) rfl
  have hp2 : ((s.unlink p (.blockedProd q)).mapProc p
      fun r => { r with message := { r.message with status := .sent } }).heap p =
      some { x with nextPrev := none, message := { x.message with status := .sent } } := by simp [hp]
  have m3 := m2.setQueue (q := q) (v := v) (w := v.accept x.message.value) hv
  rw [wp_bind]
  refine wp_queueAdd m3.inv.toCore hp2 rfl rfl ?_
  have m4 := m3.enqueue (by simp) hp2 (by simp [Process.Fits, hst, hstate, hhead, QueueHead.queue?]) (.inr hstale) (.inl hl)
  have m5 := m4.setQueue (q := q) (v := v.accept x.message.value) (w := v.handOver x.message.value)
    (by simp [Kernel.setQueue])
  rw [wp_bind, wp_modify]
  by_cases hhasty : s.Hasty p x r
  · refine wp_mono (wp_and (m5.wp_scheduleAnswer hl _ _) (schedule_runs (w := p)
      (x := { x with nextPrev := some .activatable, stamp := s.insertions,
                     message := { x.message with status := .sent } })
      m5.inv m5.running.caller (by rw [m5.unlinked]; exact fun h => by cases h) ?_ hcp (.inr hhasty.2.2.1) (.user _ trivial)))
      (fun _ t _ ht => hdone t ht.1 fun _ => ht.2) (fun _ _ h => h)
    refine hhasty.foremost (t := (s.unlink p (.blockedProd q)).mapProc p
      fun r => { r with message := { r.message with status := .sent } }) m.inv
      (by simp [hlink]) ?_ rfl rfl (fun k hk => ?_) ?_ (fun k hk => ?_) rfl
    · simp [Kernel.setQueue, Kernel.link, Kernel.unlink, Kernel.mapProc, hp]
    · simp [Kernel.setQueue, hk]
    · simp only [Kernel.setQueue, link_queue, Function.update_self, Kernel.inserted, mapProc_queue,
        unlink_queue]
      rw [Function.update_of_ne (by simp)]
      rfl
    · simp [hk]
  · exact wp_mono (m5.wp_scheduleAnswer hl _ _) (fun _ t _ ht => hdone t ht fun h => absurd h hhasty) (fun _ _ h => h)

theorem preceiveWith_done {fault : KernelM Unit} {Q : Unit → Kernel → Prop} {message : UserPtr}
    (m : Mid K.quiet s₀ ∅ s c r) (hl : K.resched) (hu : s.pidProcessHashTable idleId ≠ some c)
    (hs : message ≠ .unmapped → ∀ p, s.producerMet fid = some p → K.stale p)
    (hdone : ∀ t, Done K s₀ t → (message ≠ .unmapped → ∀ p x, s.producerMet fid = some p →
      s.Hasty p x r → t.currentRunningProcessPid = x.pid) → Q () t)
    (hfault : message = .unmapped → ∀ u, s.Faulted fid u → wp fault Q K.Allows u) :
    wp (preceiveWith fault fid message) Q K.Allows s := by
  -- without a producer to meet nobody is to run
  have nobody : ∀ {k : KernelM Unit} {u : Kernel}, s.producerMet fid = none →
      wp k (fun _ t => Done K s₀ t) K.Allows u → wp k Q K.Allows u := by
    intro k u hnone hk
    refine wp_mono hk (fun _ t _ ht => hdone t ht fun _ p x hp => ?_) (fun _ _ h => h)
    rw [hnone] at hp
    cases hp
  rw [preceiveWith, wp_bind, wp_validFid]
  cases hfid : s.queueOf fid with
  | none => exact nobody (by simp [Kernel.producerMet, hfid]) (m.wp_answer hl _ _)
  | some q =>
    simp only [wp_bind]
    refine wp_derefQueue trivial fun v hv => ?_
    rw [wp_queueEmpty]
    by_cases hprod : v.isEmpty = true ∧ (s.queue (.blockedProd q)).isEmpty = false
    · simp only [if_pos hprod, wp_bind]
      refine wp_queueOut m.inv.toCore (fun hnil => by simp [hnil] at hprod) ?_
      intro l p x hlist hp hlink _
      have hmet := Kernel.producerMet_eq hfid hv hprod.1 hlist
      have hmid := Kernel.Faulted.met hfid hv hprod.1 hlist hp hlink
      have hp1 : (s.unlink p (.blockedProd q)).heap p = some { x with nextPrev := none } := by simp [hp]
      have hp2 : ((s.unlink p (.blockedProd q)).mapProc p
          fun r => { r with message := { r.message with status := .sent } }).heap p =
          some { x with nextPrev := none, message := { x.message with status := .sent } } := by simp [hp]
      simp only [wp_bind]
      rw [wp_modifyProc hp1, wp_deref hp2, wp_modify, afterStore, wp_ite]
      refine ⟨fun hm => hfault hm _ hmid, fun hm => ?_⟩
      refine handOver_done (x := x) m hl hv hp hlink (hs hm p hmet) fun t ht hrun => hdone t ht fun _ p' x' hp' hx' => ?_
      obtain rfl : p = p' := Option.some.inj (hmet.symm.trans hp')
      obtain rfl : x = x' := Option.some.inj (hp.symm.trans hx'.1)
      exact hrun hx'
    · rw [if_neg hprod]
      have hnone : s.producerMet fid = none := by
        simp only [Kernel.producerMet, hfid, hv, Option.bind_eq_bind, Option.bind_some]
        by_cases he : v.isEmpty = true
        · have hnil : s.queue (.blockedProd q) = [] := by simpa [he] using hprod
          simp [hnil]
        · simp [he]
      rw [wp_bind, wp_queueEmpty]
      by_cases hempty : v.isEmpty = true ∧ (s.queue (.blockedProd q)).isEmpty = true
      · rw [if_pos hempty]
        refine nobody hnone ?_
        simp only [wp_bind, wp_getCurrentProcess, m.running.table]
        refine (m.resched hl).wp_blockSelf (d := .blockedCons q) hl hu rfl rfl rfl rfl
          ⟨rfl, rfl, rfl, rfl, by rw [m.running.state]; rfl, .inl rfl⟩ rfl rfl
          (fun n => ?_) ?_ (by simp) (by simp) (by simp) rfl rfl fun h => by cases h
        · simp [Process.Fits, m.running.started, QueueHead.queue?]
        · rintro k ⟨⟩
          simp [hv]
      have hsome : v.isEmpty = false := by
        cases he : v.isEmpty with
        | false => rfl
        | true => cases hb : (s.queue (.blockedProd q)).isEmpty <;> simp [he, hb] at hprod hempty
      have m1 := (m.resched hl).setQueue (q := q) (v := v) (w := v.popOldestMsg) hv
      have fault : ∀ {k : KernelM Unit}, (message ≠ .unmapped → wp k Q K.Allows (s.setQueue q (some v.popOldestMsg))) →
          wp (afterStore fault message k) Q K.Allows (s.setQueue q (some v.popOldestMsg)) := by
        intro k hk
        rw [afterStore, wp_ite]
        exact ⟨fun hm => hfault hm _ (.lost hfid hv hsome), hk⟩
      have hv1 : (s.setQueue q (some v.popOldestMsg)).msgQueue q = some v.popOldestMsg := by simp [Kernel.setQueue]
      rw [if_neg hempty, wp_bind, wp_queueEmpty]
      by_cases hfull : v.isFull = true ∧ (s.queue (.blockedProd q)).isEmpty = false
      · rw [if_pos hfull, wp_bind, wp_modify]
        refine fault fun _ => ?_
        rw [wp_bind]
        refine wp_queueOut m1.inv.toCore (fun hnil => by simp [show s.queue (.blockedProd q) = [] from hnil] at hfull) ?_
        intro l p x hlist hp hlink _
        obtain ⟨hdead, -, -, -, m2, hp2⟩ := m1.unlinkQueue (q := q) hp hlink rfl
        simp only [wp_bind]
        rw [wp_deref hp2, wp_modify]
        have m3 := m2.setQueue (q := q) (v := v.popOldestMsg)
          (w := (v.popOldestMsg.deliver v.oldestMsg).addMessage x.message.value) hv1
        refine m3.wp_activate (by simp) hp2 hdead (.inl hl) rfl rfl rfl rfl rfl
          ⟨rfl, rfl, rfl, rfl, hdead.symm, .inl rfl⟩ rfl ?_
        exact fun t m4 _ => nobody hnone (m4.wp_scheduleAnswer hl _ _)
      · rw [if_neg hfull, wp_bind, wp_modify]
        refine fault fun _ => ?_
        rw [wp_bind, wp_modify]
        exact nobody hnone (((m.setQueue hv).setQueue hv1).wp_answer hl _ _)

theorem psendResume_done (m : Mid K.quiet s₀ ∅ s c r) (hl : K.resched) :
    wp psendResume (fun _ t => Done K s₀ t) K.Allows s := by
  simp only [psendResume, wp_bind, wp_getCurrentProcess, m.running.table]
  rw [wp_derefOpt m.running.heap, wp_ite]
  exact ⟨fun _ => m.wp_answer hl _ _, fun _ => m.wp_answer hl _ _⟩

theorem preceiveResumeWith_done {fault : KernelM Unit} {Q : Unit → Kernel → Prop} {message : UserPtr}
    (m : Mid K.quiet s₀ ∅ s c r) (hl : K.resched) (hdone : ∀ t, Done K s₀ t → Q () t)
    (hfault : message = .unmapped → r.message.status = .received → wp fault Q K.Allows s) :
    wp (preceiveResumeWith fault message) Q K.Allows s := by
  have answered : ∀ v w, wp (answer v w) Q K.Allows s := fun v w =>
    wp_mono (m.wp_answer hl v w) (fun _ t _ ht => hdone t ht) (fun _ _ h => h)
  simp only [preceiveResumeWith, wp_bind, wp_getCurrentProcess, m.running.table]
  rw [wp_derefOpt m.running.heap, wp_ite, afterStore, wp_ite]
  exact ⟨fun _ => answered _ _, fun hs => ⟨fun hm => hfault hm (by simpa using hs), fun _ => answered _ _⟩⟩

end calls

end Xinul
