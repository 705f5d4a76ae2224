import Xinul.Proofs.Along
import Xinul.Proofs.ApartCalls
import Xinul.Proofs.Messages

/-!
# What the message calls do to the messages

`Mail s t A Q L g` describes a step exactly as far as the messages go: the queues
become `Q`, their lists `L`, and the record at `p` is what it was changed by `g p`.
The calls of `msgqueue.c` are described so whatever state they start in.
-/

namespace Xinul

open Prog Waiting

/-- The messages of `t` are those of `s` with the ids `A`, the queues `Q`, the lists
`L`, and the records changed by `g`. -/
structure Mail (s t : Kernel) (A : Nat → Option QueuePtr) (Q : QueuePtr → Option MsgQueue) (L : QueueHead → List Ptr)
    (g : Ptr → Process → Process) : Prop where
  next : s.nextQueue ≤ t.nextQueue
  ids : t.allQueues = A
  queues : t.msgQueue = Q
  lists : ∀ hd, hd.queue? ≠ none → t.queue hd = L hd
  records : ∀ p y, t.heap p = some y → y.Parked True False → ∃ x, s.heap p = some x ∧ (g p x).Since True False y

/-- The process at `c` goes on in `k`. -/
def GoesOn (t : Kernel) (c : Ptr) (k : Context) : Prop := ∀ y, t.heap c = some y → y.context = k

/-- The process at `c` is in no call of `psend` or `preceive`. -/
def Quits (t : Kernel) (c : Ptr) : Prop := ∀ y, t.heap c = some y → y.started = true → y.context.mail = false

section

variable {M W : Prop} {s t u : Kernel} {c p : Ptr} {k : Context} {hd : QueueHead} {q : QueuePtr} {m : MsgQueue} {fid : Int}
  {A : Nat → Option QueuePtr} {Q : QueuePtr → Option MsgQueue} {L : QueueHead → List Ptr} {g : Ptr → Process → Process}

/-! ## Rules that ask for nothing -/

theorem wp_queueWalk_any {R : List Ptr → Kernel → Prop} {f : Process → Int} {v : Int} {l : List Ptr}
    (h : ∀ l', l'.Perm (p :: l) → R l' s) : wp (queueWalk f p v l) R (fun _ => True) s := by
  induction l generalizing R with
  | nil => exact h _ (List.Perm.refl _)
  | cons d l ih =>
    rw [queueWalk, wp_bind]
    refine wp_deref_any trivial fun r _ => ?_
    rw [wp_ite]
    refine ⟨fun _ => ?_, fun _ => h _ (List.Perm.refl _)⟩
    rw [wp_bind]
    exact ih fun l' hl => h _ ((hl.cons d).trans (List.Perm.swap _ _ _))

theorem wp_queueAdd_any {R : Unit → Kernel → Prop} {f : Process → Int}
    (h : ∀ l, l.Perm (p :: s.queue hd) → R () (s.link p hd l)) : wp (queueAdd p hd f) R (fun _ => True) s := by
  rw [queueAdd, wp_bind]
  refine wp_deref_any trivial fun r _ => ?_
  dsimp only
  rw [wp_ite]
  refine ⟨fun _ => trivial, fun _ => ?_⟩
  rw [wp_bind, wp_get, wp_bind]
  exact wp_queueWalk_any fun l hl => h l hl

theorem wp_queueOut_any {R : Option Ptr → Kernel → Prop} (hnone : s.queue hd = [] → R none s)
    (hsome : ∀ l p x, s.queue hd = l ++ [p] → s.heap p = some x → R (some p) (s.unlink p hd)) :
    wp (queueOut hd) R (fun _ => True) s := by
  rw [queueOut, wp_bind, wp_get]
  cases hlast : (s.queue hd).getLast? with
  | none => exact hnone (List.getLast?_eq_none_iff.1 hlast)
  | some p =>
    obtain ⟨l, hl⟩ := List.getLast?_eq_some_iff.1 hlast
    dsimp only
    rw [wp_bind]
    refine wp_deref_any trivial fun x hx => ?_
    exact hsome l p x hl hx

/-- The process goes on in `k`, and `scheduler` leaves everything else alone. -/
theorem wp_schedule_mail {R : Unit → Kernel → Prop} (hc : s.pidProcessHashTable s.currentRunningProcessPid = some c)
    (h : ∀ t, Apart M W (s.mapProc c fun r => { r with context := k }) t → GoesOn t c k → R () t) :
    wp (schedule k) R (fun _ => True) s := by
  rw [schedule, wp_bind]
  simp only [saveContext, wp_bind, wp_getCurrentProcess, hc]
  refine wp_modifyProc_any trivial fun r hr => ?_
  refine wp_mono (wp_and (Respects.run apart_scheduler _) (along_scheduler .sameContext _)) (fun _ t _ ht => h t ht.1 fun y hy => ?_)
    (fun _ _ h => h)
  obtain ⟨x, hx, hxy⟩ := ht.2 c y hy
  simp only [mapProc_heap, hr, Function.update_self, Option.map_some, Option.some.injEq] at hx
  rw [← hxy, ← hx]

theorem answer_goesOn {v : Int} {w : List Int} (hc : s.pidProcessHashTable s.currentRunningProcessPid = some c) :
    wp (answer v w) (fun _ t => GoesOn t c (.user (some ⟨v, w⟩))) (fun _ => True) s := by
  simp only [answer, saveContext, wp_bind, wp_getCurrentProcess, hc]
  refine wp_modifyProc_any trivial fun r hr y hy => ?_
  simp only [mapProc_heap, hr, Function.update_self, Option.map_some, Option.some.injEq] at hy
  rw [← hy]

theorem wp_answer_mail {R : Unit → Kernel → Prop} {v : Int} {w : List Int}
    (hc : s.pidProcessHashTable s.currentRunningProcessPid = some c)
    (h : ∀ t, Apart M W s t → GoesOn t c (.user (some ⟨v, w⟩)) → R () t) :
    wp (answer v w) R (fun _ => True) s :=
  wp_mono (wp_and (Respects.run (apart_answer v w) s) (answer_goesOn hc)) (fun _ t _ ht => h t ht.1 ht.2) (fun _ _ h => h)

theorem wp_scheduleAnswer_mail {R : Unit → Kernel → Prop} {v : Int} {w : List Int}
    (hc : s.pidProcessHashTable s.currentRunningProcessPid = some c)
    (h : ∀ t, Apart M W s t → GoesOn t c (.user (some ⟨v, w⟩)) → R () t) :
    wp (scheduleAnswer v w) R (fun _ => True) s := by
  refine wp_schedule_mail hc fun t ht hgo => h t (trans_of (Apart M W) ?_ ht) hgo
  exact .mapProc (.context (fun _ => rfl) fun _ h => by cases h) fun _ => ⟨rfl, by simp, rfl⟩

/-! ## How the messages change -/

/-- The records in `l` are told that their queue is gone. -/
def flushing (l : List Ptr) (p : Ptr) (x : Process) : Process :=
  if p ∈ l then { x with message := { x.message with status := .error }, state := .activatable } else x

theorem flushing_congr {l : List Ptr} {y z : Process} (h : y.call = z.call) : (flushing l p y).call = (flushing l p z).call := by
  unfold flushing
  split
  · simp only [Process.call, Prod.mk.injEq] at h ⊢
    obtain ⟨started, -, context, message, signal, sem, wake⟩ := h
    exact ⟨started, trivial, context, by rw [message], signal, sem, wake⟩
  · exact h

/-- A record that is told twice is told once. -/
theorem flushing_flushing {l l' k : List Ptr} {x : Process} (hk : p ∈ k ↔ p ∈ l ∨ p ∈ l') :
    flushing l' p (flushing l p x) = flushing k p x := by
  by_cases hl : p ∈ l
  · by_cases hl' : p ∈ l' <;> simp [flushing, hk, hl, hl']
  · by_cases hl' : p ∈ l' <;> simp [flushing, hk, hl, hl']

/-- The lists with those of `q` emptied. -/
def emptied (L : QueueHead → List Ptr) (q : QueuePtr) : QueueHead → List Ptr :=
  Function.update (Function.update L (.blockedCons q) []) (.blockedProd q) []

theorem emptied_of_ne {L : QueueHead → List Ptr} {k : QueuePtr} (hd' : hd.queue? = some k) (hk : k ≠ q) :
    emptied L q hd = L hd := by
  rw [emptied, Function.update_of_ne, Function.update_of_ne]
  all_goals
    rintro rfl
    exact hk (Option.some.inj hd').symm

theorem Mail.of_apart (h : Apart True False s t) : Mail s t s.allQueues s.msgQueue s.queue fun _ x => x where
  next := (h.queues trivial).2.2.symm.le
  ids := (h.queues trivial).1
  queues := (h.queues trivial).2.1
  lists := h.lists trivial
  records := h.records

/-- From `u` on nothing changed. -/
theorem Mail.apart (h : Mail s u A Q L g) (h' : Apart True False u t) : Mail s t A Q L g where
  next := h.next.trans (h'.queues trivial).2.2.symm.le
  ids := (h'.queues trivial).1.trans h.ids
  queues := (h'.queues trivial).2.1.trans h.queues
  lists hd hq := (h'.lists trivial hd hq).trans (h.lists hd hq)
  records p y hy hp := by
    obtain ⟨z, hz, hzy⟩ := h'.records p y hy hp
    obtain ⟨x, hx, hxz⟩ := h.records p z hz (hzy.parked hp)
    exact ⟨x, hx, hxz.trans hzy⟩

theorem Mail.of_call (next : s.nextQueue ≤ t.nextQueue) (ids : t.allQueues = A) (queues : t.msgQueue = Q)
    (lists : ∀ hd, hd.queue? ≠ none → t.queue hd = L hd)
    (heap : ∀ p y, t.heap p = some y → ∃ x, s.heap p = some x ∧ y.call = (g p x).call) : Mail s t A Q L g where
  next := next
  ids := ids
  queues := queues
  lists := lists
  records p y hy hp := by
    obtain ⟨x, hx, hcall⟩ := heap p y hy
    exact ⟨x, hx, .of_call hcall hp.1⟩

/-! ## `psend` -/

/-- The process blocks in the list of `hd` and goes on in `k`, with the message `v` if
it is a producer. -/
def Process.parks (hd : QueueHead) (v : Option Int) (k : Context) (x : Process) : Process :=
  { x with
    message := { x.message with value := v.getD x.message.value, blockedHead := some hd }
    state := .blockedQueue
    context := k }

/-- The process is woken with the status `st`, and with a message if it is a consumer. -/
def Process.wakes (st : MessageStatus) (v : Option Int) (x : Process) : Process :=
  { x with
    message := { x.message with value := v.getD x.message.value, status := st }
    state := .activatable }

/-- What `psend` of `v` by the process at `c` on the queue `q` does. -/
inductive SendStep (s t : Kernel) (c : Ptr) (q : QueuePtr) (m : MsgQueue) (v : Int) : Prop where
  /-- The message is handed to a blocked consumer. -/
  | handed {l b} : m.isEmpty = true → s.queue (.blockedCons q) = l ++ [b] →
      Mail s t s.allQueues (Function.update s.msgQueue q (some (m.handOver v)))
        (Function.update s.queue (.blockedCons q) ((l ++ [b]).erase b)) (writing b (·.wakes .received (some v))) →
      GoesOn t c (.user (some ⟨0, []⟩)) → SendStep s t c q m v
  /-- The producer is blocked. -/
  | blocked {l} : ¬ (m.isEmpty = true ∧ s.queue (.blockedCons q) ≠ []) → m.isFull = true →
      l.Perm (c :: s.queue (.blockedProd q)) →
      Mail s t s.allQueues s.msgQueue (Function.update s.queue (.blockedProd q) l)
        (writing c (·.parks (.blockedProd q) (some v) .psend)) →
      GoesOn t c .psend → SendStep s t c q m v
  /-- The message is stored in the ring. -/
  | stored : ¬ (m.isEmpty = true ∧ s.queue (.blockedCons q) ≠ []) → m.isFull = false →
      Mail s t s.allQueues (Function.update s.msgQueue q (some (m.addMessage v))) s.queue (fun _ x => x) →
      GoesOn t c (.user (some ⟨0, []⟩)) → SendStep s t c q m v

theorem psend_mail (hc : s.pidProcessHashTable s.currentRunningProcessPid = some c) (v : Int) :
    wp (psend fid v) (fun _ t => (s.queueOf fid = none → Apart True False s t ∧ GoesOn t c (.user (some ⟨-1, []⟩))) ∧
      ∀ q, s.queueOf fid = some q → ∃ m, s.msgQueue q = some m ∧ SendStep s t c q m v) (fun _ => True) s := by
  rw [psend, wp_bind, wp_validFid]
  cases hq : s.queueOf fid with
  | none => exact wp_answer_mail hc fun t h hgo => ⟨fun _ => ⟨h, hgo⟩, fun _ h => by cases h⟩
  | some q =>
    simp only [reduceCtorEq, false_imp_iff, true_and, Option.some.injEq, forall_eq', wp_bind]
    refine wp_derefQueue trivial fun m hm => ?_
    rw [wp_queueEmpty]
    have hcond : (m.isEmpty = true ∧ (s.queue (.blockedCons q)).isEmpty = false) ↔
        m.isEmpty = true ∧ s.queue (.blockedCons q) ≠ [] := by simp
    rw [wp_ite, wp_ite, hcond]
    refine ⟨fun he => ?_, fun he => ⟨fun hf => ?_, fun hf => ?_⟩⟩
    · rw [wp_bind]
      refine wp_queueOut_any (fun hnil => absurd hnil he.2) fun l b x hl hb => ?_
      simp only [wp_bind]
      refine wp_modifyProc_any trivial fun _ _ => wp_queueAdd_any fun l' _ => ?_
      refine wp_modifyProc_any trivial fun _ _ => ?_
      rw [wp_modify]
      refine wp_scheduleAnswer_mail (by exact hc) fun t h hgo => ⟨m, hm, .handed he.1 hl (Mail.apart ?_ h) hgo⟩
      refine .of_call le_rfl rfl rfl (fun hd hhd => ?_) (heap_writing hb (fun p hp => ?_) ?_)
      · have hne : hd ≠ .activatable := by
          rintro rfl
          exact hhd rfl
        simp [Kernel.setQueue, hne, hl]
      · simp [Kernel.setQueue, hp]
      · simp [Kernel.setQueue, hb, Process.call, Process.wakes]
    · rw [wp_bind, wp_getCurrentProcess, hc]
      simp only [wp_bind]
      refine wp_modifyProc_any trivial fun x hx => wp_queueAdd_any fun l hl => ?_
      refine wp_schedule_mail (by exact hc) fun t h hgo => ⟨m, hm, .blocked he hf hl (Mail.apart ?_ h) hgo⟩
      refine .of_call le_rfl rfl rfl (fun hd hhd => rfl) (heap_writing hx (fun p hp => ?_) ?_)
      · simp [hp]
      · simp [hx, Process.call, Process.parks]
    · simp only [wp_bind, wp_modify]
      refine wp_answer_mail (by exact hc) fun t h hgo => ⟨m, hm, .stored he (by simpa using hf) (Mail.apart ?_ h) hgo⟩
      exact .of_call le_rfl rfl rfl (fun hd hhd => rfl) fun p y hy => ⟨y, hy, rfl⟩

/-! ## `preceive` -/

/-- What `preceive` by the process at `c` on the queue `q` does. -/
inductive ReceiveStep (s t : Kernel) (c : Ptr) (q : QueuePtr) (m : MsgQueue) (message : UserPtr) : Prop where
  /-- A blocked producer hands its message over, its state staying as it was. -/
  | met {l b x} : message ≠ .unmapped → m.isEmpty = true → s.queue (.blockedProd q) = l ++ [b] → s.heap b = some x →
      Mail s t s.allQueues (Function.update s.msgQueue q (some (m.handOver x.message.value)))
        (Function.update s.queue (.blockedProd q) ((l ++ [b]).erase b))
        (writing b fun x => { x with message := { x.message with status := .sent } }) →
      GoesOn t c (.user (some ⟨0, storeMessage message x.message.value⟩)) → ReceiveStep s t c q m message
  /-- The consumer is blocked. -/
  | blocked {l} : m.isEmpty = true → s.queue (.blockedProd q) = [] → l.Perm (c :: s.queue (.blockedCons q)) →
      Mail s t s.allQueues s.msgQueue (Function.update s.queue (.blockedCons q) l)
        (writing c (·.parks (.blockedCons q) none (.preceive message))) →
      GoesOn t c (.preceive message) → ReceiveStep s t c q m message
  /-- The oldest message is taken, and that of a blocked producer is stored. -/
  | refilled {l b x} : message ≠ .unmapped → m.isEmpty = false → m.isFull = true →
      s.queue (.blockedProd q) = l ++ [b] → s.heap b = some x →
      Mail s t s.allQueues
        (Function.update s.msgQueue q (some ((m.popOldestMsg.deliver m.oldestMsg).addMessage x.message.value)))
        (Function.update s.queue (.blockedProd q) ((l ++ [b]).erase b)) (writing b (·.wakes .sent none)) →
      GoesOn t c (.user (some ⟨0, storeMessage message m.oldestMsg⟩)) → ReceiveStep s t c q m message
  /-- The oldest message is taken. -/
  | popped : message ≠ .unmapped → m.isEmpty = false → ¬ (m.isFull = true ∧ s.queue (.blockedProd q) ≠ []) →
      Mail s t s.allQueues (Function.update s.msgQueue q (some (m.popOldestMsg.deliver m.oldestMsg))) s.queue
        (fun _ x => x) →
      GoesOn t c (.user (some ⟨0, storeMessage message m.oldestMsg⟩)) → ReceiveStep s t c q m message
  /-- The store faults, and the message that left the ring is handed to nobody. -/
  | lost : message = .unmapped → m.isEmpty = false →
      Mail s t s.allQueues (Function.update s.msgQueue q (some m.popOldestMsg)) s.queue (fun _ x => x) →
      Quits t c → ReceiveStep s t c q m message
  /-- The store faults, and the producer that left its list is chained nowhere. -/
  | stranded {l b x} : message = .unmapped → m.isEmpty = true → s.queue (.blockedProd q) = l ++ [b] → s.heap b = some x →
      Mail s t s.allQueues (Function.update s.msgQueue q (some (m.accept x.message.value)))
        (Function.update s.queue (.blockedProd q) ((l ++ [b]).erase b))
        (writing b fun x => { x with message := { x.message with status := .sent } }) →
      Quits t c → ReceiveStep s t c q m message

/-- A `preceive` that does not get to the store, or whose store does not fault. -/
theorem preceiveWith_mail (hc : s.pidProcessHashTable s.currentRunningProcessPid = some c) (f : Fault) (message : UserPtr) :
    wp (preceiveWith (throw f) fid message) (fun _ t =>
      (s.queueOf fid = none → Apart True False s t ∧ GoesOn t c (.user (some ⟨-1, []⟩))) ∧
      ∀ q, s.queueOf fid = some q → ∃ m, s.msgQueue q = some m ∧ ReceiveStep s t c q m message) (fun _ => True) s := by
  rw [preceiveWith, wp_bind, wp_validFid]
  cases hq : s.queueOf fid with
  | none => exact wp_answer_mail hc fun t h hgo => ⟨fun _ => ⟨h, hgo⟩, fun _ h => by cases h⟩
  | some q =>
    simp only [reduceCtorEq, false_imp_iff, true_and, Option.some.injEq, forall_eq', wp_bind]
    refine wp_derefQueue trivial fun m hm => ?_
    rw [wp_queueEmpty, wp_ite]
    refine ⟨fun hmet => ?_, fun hnot => ?_⟩
    · rw [wp_bind]
      refine wp_queueOut_any (fun hnil => by simp [hnil] at hmet) fun l b x hl hb => ?_
      simp only [wp_bind]
      refine wp_modifyProc_any trivial fun _ _ => wp_deref_any trivial fun z hz => ?_
      obtain rfl : { x with nextPrev := none, message := { x.message with status := .sent } } = z := by simpa [hb] using hz
      rw [wp_modify, afterStore, wp_ite]
      refine ⟨fun _ => trivial, fun hmap => ?_⟩
      rw [wp_bind]
      refine wp_queueAdd_any fun l' _ => ?_
      rw [wp_bind, wp_modify]
      refine wp_scheduleAnswer_mail (by exact hc) fun t h hgo => ⟨m, hm, .met hmap hmet.1 hl hb (Mail.apart ?_ h) hgo⟩
      refine .of_call le_rfl rfl (Function.update_idem ..) (fun hd hhd => ?_) (heap_writing hb (fun p hp => ?_) ?_)
      · have hne : hd ≠ .activatable := by
          rintro rfl
          exact hhd rfl
        simp [Kernel.setQueue, hne, hl]
      · simp [Kernel.setQueue, hp]
      · simp [Kernel.setQueue, hb, Process.call]
    rw [wp_bind, wp_queueEmpty, wp_ite]
    refine ⟨fun hempty => ?_, fun hfull => ?_⟩
    · rw [wp_bind, wp_getCurrentProcess, hc]
      simp only [wp_bind]
      refine wp_modifyProc_any trivial fun x hx => wp_queueAdd_any fun l hl => ?_
      refine wp_schedule_mail (by exact hc) fun t h hgo =>
        ⟨m, hm, .blocked hempty.1 (by simpa using hempty.2) hl (Mail.apart ?_ h) hgo⟩
      refine .of_call le_rfl rfl rfl (fun hd hhd => rfl) (heap_writing hx (fun p hp => ?_) ?_)
      · simp [hp]
      · simp [hx, Process.call, Process.parks]
    have he : m.isEmpty = false := by
      cases he : m.isEmpty with
      | false => rfl
      | true => simp_all
    rw [wp_bind, wp_queueEmpty, wp_ite]
    refine ⟨fun hprod => ?_, fun hprod => ?_⟩
    · rw [wp_bind, wp_modify, afterStore, wp_ite]
      refine ⟨fun _ => trivial, fun hmap => ?_⟩
      rw [wp_bind]
      have hne : s.queue (.blockedProd q) ≠ [] := by simpa using hprod.2
      refine wp_queueOut_any (fun hnil => absurd hnil hne) fun l b x hl hb => ?_
      replace hl : s.queue (.blockedProd q) = l ++ [b] := hl
      replace hb : s.heap b = some x := hb
      simp only [wp_bind]
      refine wp_deref_any trivial fun z hz => ?_
      obtain rfl : { x with nextPrev := none } = z := by simpa [Kernel.setQueue, hb] using hz
      rw [wp_modify]
      refine wp_modifyProc_any trivial fun _ _ => wp_queueAdd_any fun l' _ => ?_
      refine wp_scheduleAnswer_mail (by exact hc) fun t h hgo =>
        ⟨m, hm, .refilled hmap he hprod.1 hl hb (Mail.apart ?_ h) hgo⟩
      refine .of_call le_rfl rfl (Function.update_idem ..) (fun hd hhd => ?_) (heap_writing hb (fun p hp => ?_) ?_)
      · have hne : hd ≠ .activatable := by
          rintro rfl
          exact hhd rfl
        simp [Kernel.setQueue, hne, hl]
      · simp [Kernel.setQueue, hp]
      · simp [Kernel.setQueue, hb, Process.call, Process.wakes]
    · rw [wp_bind, wp_modify, afterStore, wp_ite]
      refine ⟨fun _ => trivial, fun hmap => ?_⟩
      rw [wp_bind, wp_modify]
      refine wp_answer_mail (by exact hc) fun t h hgo =>
        ⟨m, hm, .popped hmap he (fun hn => hprod ⟨hn.1, by simpa using hn.2⟩) (Mail.apart ?_ h) hgo⟩
      exact .of_call le_rfl rfl (Function.update_idem ..) (fun hd hhd => rfl) fun p y hy => ⟨y, hy, rfl⟩

/-- A `preceive` whose store faults; the handler does nothing to the messages. -/
theorem Kernel.Faulted.receives (hu : s.Faulted fid u) (hq : s.queueOf fid = some q) (ha : Apart True False u t)
    (hquits : Quits t c) : ∃ m, s.msgQueue q = some m ∧ ReceiveStep s t c q m .unmapped := by
  cases hu with
  | @lost k m hk hm he =>
    obtain rfl : q = k := Option.some.inj (hq.symm.trans hk)
    refine ⟨m, hm, .lost rfl he (Mail.apart ?_ ha) hquits⟩
    exact .of_call le_rfl rfl rfl (fun hd hhd => rfl) fun p y hy => ⟨y, hy, rfl⟩
  | @met k m b x l hk hm he hl hb =>
    obtain rfl : q = k := Option.some.inj (hq.symm.trans hk)
    refine ⟨m, hm, .stranded rfl he hl hb (Mail.apart ?_ ha) hquits⟩
    refine .of_call le_rfl rfl rfl (fun hd hhd => ?_) (heap_writing hb (fun p hp => ?_) ?_)
    · simp [Kernel.setQueue, hl]
    · simp [Kernel.setQueue, hp]
    · simp [Kernel.setQueue, hb, Process.call]

/-! ## `preset`, `pdelete` and `pcreate` -/

/-- `free_blocked_queue` tells everybody in the list. -/
theorem wp_freeBlocked_any {R : Unit → Kernel → Prop} (hhd : hd.queue? ≠ none)
    (h : ∀ t, t.pidProcessHashTable = s.pidProcessHashTable → t.currentRunningProcessPid = s.currentRunningProcessPid →
      t.nextQueue = s.nextQueue → t.allQueues = s.allQueues → t.msgQueue = s.msgQueue →
      (∀ d, d ≠ .activatable → t.queue d = Function.update s.queue hd [] d) →
      (∀ p y, t.heap p = some y → ∃ x, s.heap p = some x ∧ y.call = (flushing (s.queue hd) p x).call) → R () t) :
    wp (freeBlocked hd) R (fun _ => True) s := by
  have hne : hd ≠ .activatable := by
    rintro rfl
    exact hhd rfl
  have loop : ∀ n u (l : List Ptr), u.pidProcessHashTable = s.pidProcessHashTable →
      u.currentRunningProcessPid = s.currentRunningProcessPid → u.nextQueue = s.nextQueue →
      u.allQueues = s.allQueues → u.msgQueue = s.msgQueue →
      (∀ d, d ≠ hd → d ≠ .activatable → u.queue d = s.queue d) →
      (∀ p, p ∈ s.queue hd ↔ p ∈ l ∨ p ∈ u.queue hd) →
      (∀ p y, u.heap p = some y → ∃ x, s.heap p = some x ∧ y.call = (flushing l p x).call) →
      wp (freeBlockedQueue hd n) R (fun _ => True) u := by
    intro n
    induction n with
    | zero => exact fun _ _ _ _ _ _ _ _ _ _ => trivial
    | succ n ih =>
      intro u l h1 h2 h3 h4 h5 hlists hmem hheap
      rw [freeBlockedQueue, wp_bind]
      refine wp_queueOut_any (fun hnil => ?_) fun l₀ b x hl hb => ?_
      · refine h u h1 h2 h3 h4 h5 (fun d hd' => ?_) fun p y hy => ?_
        · by_cases hdd : d = hd
          · subst hdd
            rw [hnil, Function.update_self]
          · rw [Function.update_of_ne hdd, hlists d hdd hd']
        · obtain ⟨x, hx, hcall⟩ := hheap p y hy
          refine ⟨x, hx, ?_⟩
          rw [hcall, flushing, flushing]
          simp [hmem, hnil]
      · simp only [wp_bind]
        refine wp_modifyProc_any trivial fun _ _ => wp_queueAdd_any fun l' _ => ?_
        refine ih _ (b :: l) h1 h2 h3 h4 h5 (fun d hd1 hd2 => ?_) (fun p => ?_) fun p y hy => ?_
        · simp [hd1, hd2, hlists d hd1 hd2]
        · simp only [link_queue, mapProc_queue, unlink_queue]
          rw [Function.update_of_ne hne, Function.update_self, hmem p, hl]
          by_cases hp : p = b
          · simp [hp]
          · rw [List.mem_erase_of_ne hp]
            simp [hp]
        · by_cases hp : p = b
          · subst hp
            obtain ⟨z, hz, hcall⟩ := hheap p x hb
            refine ⟨z, hz, ?_⟩
            obtain rfl : _ = y := by simpa [hb] using hy
            have htold : (flushing [p] p x).call = (flushing (p :: l) p z).call :=
              (flushing_congr hcall).trans (congrArg Process.call (flushing_flushing (by simp)))
            rw [flushing, if_pos (List.mem_singleton_self p)] at htold
            exact htold
          · obtain ⟨z, hz, hcall⟩ := hheap p y (by simpa [hp] using hy)
            exact ⟨z, hz, by simpa [flushing, hp] using hcall⟩
  rw [freeBlocked, wp_bind, wp_get]
  exact loop _ s [] rfl rfl rfl rfl rfl (fun _ _ _ => rfl) (by simp) fun p y hy => ⟨y, hy, by simp [flushing]⟩

/-- The two lists of `q` are flushed, then `k` runs. -/
theorem wp_freeBoth_any {R : Unit → Kernel → Prop} {k : KernelM Unit}
    (h : ∀ t, t.pidProcessHashTable = s.pidProcessHashTable → t.currentRunningProcessPid = s.currentRunningProcessPid →
      Mail s t s.allQueues s.msgQueue (emptied s.queue q)
        (flushing (s.queue (.blockedCons q) ++ s.queue (.blockedProd q))) → wp k R (fun _ => True) t) :
    wp (do freeBlocked (.blockedCons q); freeBlocked (.blockedProd q); k) R (fun _ => True) s := by
  rw [wp_bind]
  refine wp_freeBlocked_any (fun h => by cases h) fun u u1 u2 u3 u4 u5 hlist hheap => ?_
  rw [wp_bind]
  refine wp_freeBlocked_any (fun h => by cases h) fun t t1 t2 t3 t4 t5 hlist' hheap' => ?_
  refine h t (t1.trans u1) (t2.trans u2) (.of_call (t3.trans u3).symm.le (t4.trans u4) (t5.trans u5)
    (fun d hd => ?_) fun p y hy => ?_)
  · have hne : d ≠ .activatable := by
      rintro rfl
      exact hd rfl
    rw [hlist' d hne, emptied]
    by_cases hp : d = .blockedProd q
    · rw [hp, Function.update_self, Function.update_self]
    · rw [Function.update_of_ne hp, Function.update_of_ne hp, hlist d hne]
  · obtain ⟨z, hz, hcall'⟩ := hheap' p y hy
    obtain ⟨x, hx, hcall⟩ := hheap p z hz
    refine ⟨x, hx, ?_⟩
    rw [hlist (.blockedProd q) (fun h => by cases h), Function.update_of_ne (by simp)] at hcall'
    calc y.call = (flushing (s.queue (.blockedProd q)) p z).call := hcall'
      _ = (flushing (s.queue (.blockedProd q)) p (flushing (s.queue (.blockedCons q)) p x)).call := flushing_congr hcall
      _ = _ := congrArg Process.call (flushing_flushing List.mem_append)

theorem preset_mail (hc : s.pidProcessHashTable s.currentRunningProcessPid = some c) :
    wp (preset fid) (fun _ t => (s.queueOf fid = none → Apart True False s t) ∧
      ∀ q, s.queueOf fid = some q → ∃ m, s.msgQueue q = some m ∧
        Mail s t s.allQueues (Function.update s.msgQueue q (some m.reset)) (emptied s.queue q)
          (flushing (s.queue (.blockedCons q) ++ s.queue (.blockedProd q)))) (fun _ => True) s := by
  rw [preset, wp_bind, wp_validFid]
  cases hq : s.queueOf fid with
  | none => exact wp_answer_mail hc fun t h _ => ⟨fun _ => h, fun _ h => by cases h⟩
  | some q =>
    simp only [reduceCtorEq, false_imp_iff, true_and, Option.some.injEq, forall_eq']
    rw [wp_bind]
    refine wp_derefQueue trivial fun m hm => ?_
    rw [wp_bind, wp_modify]
    refine wp_freeBoth_any fun t t1 t2 ht => ?_
    refine wp_scheduleAnswer_mail (c := c) ?_ fun u h _ => ⟨m, hm, Mail.apart ?_ h⟩
    · rw [t1, t2]
      exact hc
    · exact ⟨ht.next, ht.ids, ht.queues, ht.lists, ht.records⟩

theorem pdelete_mail (hc : s.pidProcessHashTable s.currentRunningProcessPid = some c) :
    wp (pdelete fid) (fun _ t => (s.queueOf fid = none → Apart True False s t) ∧
      ∀ q, s.queueOf fid = some q → Mail s t (Function.update s.allQueues fid.toNat none)
        (Function.update s.msgQueue q none) (emptied s.queue q)
        (flushing (s.queue (.blockedCons q) ++ s.queue (.blockedProd q)))) (fun _ => True) s := by
  rw [pdelete, wp_bind, wp_validFid]
  cases hq : s.queueOf fid with
  | none => exact wp_answer_mail hc fun t h _ => ⟨fun _ => h, fun _ h => by cases h⟩
  | some q =>
    simp only [reduceCtorEq, false_imp_iff, true_and, Option.some.injEq, forall_eq']
    rw [wp_bind]
    refine wp_derefQueue trivial fun m hm => ?_
    refine wp_freeBoth_any fun t t1 t2 ht => ?_
    rw [wp_bind, wp_modify]
    refine wp_scheduleAnswer_mail (c := c) ?_ fun u h _ => Mail.apart ?_ h
    · show t.pidProcessHashTable t.currentRunningProcessPid = some c
      rw [t1, t2]
      exact hc
    · refine ⟨ht.next, ?_, ?_, ht.lists, ht.records⟩
      · simp [ht.ids]
      · simp [Kernel.setQueue, ht.queues]

/-- What `pcreate` does: nothing, or a slot for a queue that could not be filled
in, or a new queue. -/
inductive CreateStep (s t : Kernel) : Prop where
  | failed : Apart True False s t → CreateStep s t
  | unfilled {i} : s.allQueues i = none → s.nextQueue < t.nextQueue →
      Mail s t (Function.update s.allQueues i (some s.nextQueue)) s.msgQueue s.queue (fun _ x => x) → CreateStep s t
  | created {i n} : s.allQueues i = none → s.nextQueue < t.nextQueue →
      Mail s t (Function.update s.allQueues i (some s.nextQueue))
        (Function.update s.msgQueue s.nextQueue (some ⟨fun _ => 0, n, 0, 0, [], []⟩))
        (emptied s.queue s.nextQueue) (fun _ x => x) → CreateStep s t

theorem pcreate_mail (hc : s.pidProcessHashTable s.currentRunningProcessPid = some c) (count : Int)
    (queueOk arrOk : Bool) : wp (pcreate count queueOk arrOk) (fun _ t => CreateStep s t) (fun _ => True) s := by
  have failed : ∀ v, wp (answer v []) (fun _ t => CreateStep s t) (fun _ => True) s := fun v =>
    wp_answer_mail hc fun t h _ => .failed h
  rw [pcreate, wp_ite]
  refine ⟨fun _ => failed _, fun _ => ?_⟩
  rw [wp_bind, wp_get]
  cases hfree : getFirstFreeIndex s with
  | none => exact failed _
  | some index =>
    have hnone : s.allQueues index = none := by
      have := List.find?_some hfree
      simpa using this
    dsimp only
    rw [wp_ite]
    refine ⟨fun _ => failed _, fun _ => ?_⟩
    rw [wp_bind, wp_get, wp_bind, wp_modify, wp_ite]
    refine ⟨fun _ => ?_, fun _ => ?_⟩
    · refine wp_answer_mail (by exact hc) fun t h _ => .unfilled hnone ?_ (Mail.apart ?_ h)
      · rw [(h.queues trivial).2.2]
        exact Nat.lt_succ_self _
      · exact .of_call (Nat.le_succ _) rfl rfl (fun _ _ => rfl) fun p y hy => ⟨y, hy, rfl⟩
    · rw [wp_bind, wp_modify]
      refine wp_answer_mail (by exact hc) fun t h _ => .created (n := count.toNat) hnone ?_ (Mail.apart ?_ h)
      · rw [(h.queues trivial).2.2]
        exact Nat.lt_succ_self _
      · exact .of_call (Nat.le_succ _) rfl rfl (fun _ _ => rfl) fun p y hy => ⟨y, hy, rfl⟩

/-! ## The calls that return later -/

theorem psendResume_mail {r : Process} (hc : s.pidProcessHashTable s.currentRunningProcessPid = some c)
    (hr : s.heap c = some r) : wp psendResume (fun _ t =>
      GoesOn t c (.user (some ⟨if r.message.status = .sent then 0 else -1, []⟩))) (fun _ => True) s := by
  simp only [psendResume, wp_bind, wp_getCurrentProcess, hc]
  rw [wp_derefOpt hr, wp_ite]
  refine ⟨fun hst => ?_, fun hst => ?_⟩
  · rw [if_neg hst]
    exact answer_goesOn hc
  · rw [if_pos (not_not.1 hst)]
    exact answer_goesOn hc

/-- A `preceive` that goes on and whose store does not fault. -/
theorem preceiveResumeWith_mail {r : Process} (hc : s.pidProcessHashTable s.currentRunningProcessPid = some c)
    (hr : s.heap c = some r) (f : Fault) (message : UserPtr) : wp (preceiveResumeWith (throw f) message) (fun _ t =>
      GoesOn t c (.user (some (if r.message.status = .received then ⟨0, storeMessage message r.message.value⟩
        else ⟨-1, []⟩)))) (fun _ => True) s := by
  simp only [preceiveResumeWith, wp_bind, wp_getCurrentProcess, hc]
  rw [wp_derefOpt hr, wp_ite]
  refine ⟨fun hst => ?_, fun hst => ?_⟩
  · rw [if_neg hst]
    exact answer_goesOn hc
  · rw [if_pos (not_not.1 hst), afterStore, wp_ite]
    exact ⟨fun _ => trivial, fun _ => answer_goesOn hc⟩

end

end Xinul
