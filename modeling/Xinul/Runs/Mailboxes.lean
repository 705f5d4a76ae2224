import Xinul.Proofs.Fifo
import Xinul.Proofs.MailSteps

/-!
# The message queues in every run

`Boxes` is the invariant the branches of `psend` and `preceive` rely on together: a
ring with room has no blocked producer, a ring with a message no blocked consumer,
and a process that is blocked on a queue with a ring is in the list it says. The two
lists of a queue without a ring follow no such rule.
-/

namespace Xinul

open Prog Machine

/-- The process at `p` says it is blocked in the list of `hd`. -/
structure BlockedIn (s : Kernel) (p : Ptr) (x : Process) (hd : QueueHead) : Prop where
  record : s.heap p = some x
  started : x.started = true
  state : x.state = .blockedQueue
  head : x.message.blockedHead = some hd

/-- The ring and the two lists of a queue agree. -/
structure Box (m : MsgQueue) (cons prod : List Ptr) : Prop where
  bounded : m.Bounded
  consumers : 0 < m.size → cons ≠ [] → m.numberOfMsgs = 0
  producers : 0 < m.size → prod ≠ [] → m.numberOfMsgs = m.size

/-- The invariant of the message queues. -/
structure Boxes (s : Kernel) : Prop where
  box : ∀ q m, s.msgQueue q = some m → Box m (s.queue (.blockedCons q)) (s.queue (.blockedProd q))
  settled : ∀ p x hd q m, BlockedIn s p x hd → hd.queue? = some q → s.msgQueue q = some m → 0 < m.size →
    p ∈ s.queue hd
  past : ∀ p x hd q, BlockedIn s p x hd → hd.queue? = some q → q < s.nextQueue

/-- A process blocked on a semaphore is killed at most at an end of its list, and the store
of a `preceive` does not fault when the ring is full and a producer is blocked on it: the
message of the producer would not get into the ring. -/
structure Refills (s : Kernel) (e : Event) : Prop where
  ends : KillsAtEnd s e
  preceive : ∀ fid q m, e = .syscall (.preceive fid .unmapped) → s.queueOf (toInt32 fid) = some q →
    s.msgQueue q = some m → m.isEmpty = false → m.isFull = true → s.queue (.blockedProd q) = []

section

variable {s t : Kernel} {e : Event} {p c : Ptr} {q : QueuePtr} {m : MsgQueue} {r : Process}
  {A : Nat → Option QueuePtr} {Q : QueuePtr → Option MsgQueue} {L : QueueHead → List Ptr} {g : Ptr → Process → Process}

theorem Refills.of_none (h : e.target s = none) (h' : ∀ fid, e ≠ .syscall (.preceive fid .unmapped)) : Refills s e :=
  ⟨.of_none h, fun fid _ _ he => absurd he (h' fid)⟩

/-- Only a process that was blocked can be blocked when the records stay as they were. -/
theorem Mail.blockedIn {y : Process} {hd : QueueHead} (h : Mail s t A Q L g) (hb : BlockedIn t p y hd) :
    ∃ x, s.heap p = some x ∧ (g p x).started = true ∧ (g p x).state = .blockedQueue ∧
      (g p x).message.blockedHead = some hd := by
  obtain ⟨x, hx, hxy⟩ := h.records p y hb.record ⟨hb.started, .inl ⟨trivial, .inl hb.state⟩⟩
  refine ⟨x, hx, hxy.started, hxy.queued trivial hb.state, ?_⟩
  rw [← hxy.message trivial]
  exact hb.head

theorem Boxes.mail (hm : Mail s t A Q L g)
    (box : ∀ q m, Q q = some m → Box m (L (.blockedCons q)) (L (.blockedProd q)))
    (settled : ∀ p x y hd q, BlockedIn t p y hd → s.heap p = some x → (g p x).started = true →
      (g p x).state = .blockedQueue → (g p x).message.blockedHead = some hd → hd.queue? = some q →
      q < t.nextQueue ∧ ∀ m, Q q = some m → 0 < m.size → p ∈ L hd) : Boxes t where
  box q m hq := by
    rw [hm.queues] at hq
    rw [hm.lists _ (by simp [QueueHead.queue?]), hm.lists _ (by simp [QueueHead.queue?])]
    exact box q m hq
  settled p y hd q m hb hhd hq hsize := by
    obtain ⟨x, hx, hst, hstate, hhead⟩ := hm.blockedIn hb
    rw [hm.queues] at hq
    rw [hm.lists hd (by simp [hhd])]
    exact (settled p x y hd q hb hx hst hstate hhead hhd).2 m hq hsize
  past p y hd q hb hhd := by
    obtain ⟨x, hx, hst, hstate, hhead⟩ := hm.blockedIn hb
    exact (settled p x y hd q hb hx hst hstate hhead hhd).1

/-- Nothing happened to the messages. -/
theorem Boxes.apart (h : Boxes s) (ha : Apart True False s t) : Boxes t := by
  have hm := Mail.of_apart ha
  refine Boxes.mail hm h.box fun p x y hd q hb hx hst hstate hhead hhd => ?_
  exact ⟨(h.past p x hd q ⟨hx, hst, hstate, hhead⟩ hhd).trans_le hm.next,
    fun m hq hsize => h.settled p x hd q m ⟨hx, hst, hstate, hhead⟩ hhd hq hsize⟩

/-- The ring of one queue and one of its lists change. -/
theorem Boxes.update {m' : MsgQueue} {hd₀ : QueueHead} {l : List Ptr} (h : Boxes s) (hq : s.msgQueue q = some m)
    (hlt : q < s.nextQueue)
    (hm : Mail s t A (Function.update s.msgQueue q (some m')) (Function.update s.queue hd₀ l) g)
    (hd₀q : hd₀.queue? = some q) (hsize : m'.size = m.size)
    (box : Box m' (Function.update s.queue hd₀ l (.blockedCons q)) (Function.update s.queue hd₀ l (.blockedProd q)))
    (settled : ∀ p x y hd, BlockedIn t p y hd → s.heap p = some x → (g p x).started = true →
      (g p x).state = .blockedQueue → (g p x).message.blockedHead = some hd →
      hd.queue? = some q ∧ (0 < m.size → p ∈ Function.update s.queue hd₀ l hd) ∨
        BlockedIn s p x hd ∧ (p ∈ s.queue hd → p ∈ Function.update s.queue hd₀ l hd)) : Boxes t := by
  refine Boxes.mail hm (fun k w hk => ?_) fun p x y hd k hb hx hst hstate hhead hhd => ?_
  · by_cases hkq : k = q
    · subst hkq
      rw [Function.update_self] at hk
      cases hk
      exact box
    · rw [Function.update_of_ne hkq] at hk
      have hne : ∀ {d : QueueHead}, d.queue? = some k → d ≠ hd₀ := by
        rintro d hd rfl
        exact hkq (Option.some.inj (hd.symm.trans hd₀q))
      rw [Function.update_of_ne (hne rfl), Function.update_of_ne (hne rfl)]
      exact h.box k w hk
  · rcases settled p x y hd hb hx hst hstate hhead with ⟨hdq, hmem⟩ | ⟨hold, hmem⟩
    · rw [hdq] at hhd
      cases hhd
      refine ⟨hlt.trans_le hm.next, fun w hw hpos => hmem ?_⟩
      rw [Function.update_self] at hw
      cases hw
      rwa [hsize] at hpos
    · refine ⟨(h.past p x hd k hold hhd).trans_le hm.next, fun w hw hpos => hmem ?_⟩
      by_cases hkq : k = q
      · subst hkq
        rw [Function.update_self] at hw
        cases hw
        exact h.settled p x hd k m hold hhd hq (hsize ▸ hpos)
      · rw [Function.update_of_ne hkq] at hw
        exact h.settled p x hd k w hold hhd hw hpos

/-- A process that is not written is blocked as it was. -/
theorem settled_writing {b : Ptr} {f : Process → Process} {hd₀ : QueueHead} {l : List Ptr}
    (hl : ∀ p, p ≠ b → p ∈ s.queue hd₀ → p ∈ l)
    (hb : ∀ x y hd, BlockedIn t b y hd → s.heap b = some x → (f x).state = .blockedQueue →
      (f x).message.blockedHead = some hd → hd.queue? = some q ∧ (0 < m.size → b ∈ Function.update s.queue hd₀ l hd)) :
    ∀ p x y hd, BlockedIn t p y hd → s.heap p = some x → (writing b f p x).started = true →
      (writing b f p x).state = .blockedQueue → (writing b f p x).message.blockedHead = some hd →
      hd.queue? = some q ∧ (0 < m.size → p ∈ Function.update s.queue hd₀ l hd) ∨
        BlockedIn s p x hd ∧ (p ∈ s.queue hd → p ∈ Function.update s.queue hd₀ l hd) := by
  intro p x y hd hy hx hst hstate hhead
  by_cases hp : p = b
  · subst hp
    rw [writing, if_pos rfl] at hstate hhead
    exact .inl (hb x y hd hy hx hstate hhead)
  · rw [writing, if_neg hp] at hst hstate hhead
    refine .inr ⟨⟨hx, hst, hstate, hhead⟩, fun hmem => ?_⟩
    by_cases hdd : hd = hd₀
    · subst hdd
      rw [Function.update_self]
      exact hl p hp hmem
    · rwa [Function.update_of_ne hdd]

theorem Boxes.send {v : Int} (h : Boxes s) (hlt : q < s.nextQueue) (hq : s.msgQueue q = some m)
    (hst : SendStep s t c q m v) : Boxes t := by
  have hbox := h.box q m hq
  cases hst with
  | @handed l b hempty hl hm hgo =>
    refine h.update hq hlt hm rfl rfl ⟨hbox.bounded.history _ _, fun _ _ => ?_, fun hpos hne => ?_⟩ ?_
    · simpa [MsgQueue.isEmpty, MsgQueue.handOver, MsgQueue.accept, MsgQueue.deliver] using hempty
    · exact hbox.producers hpos (by simpa using hne)
    · refine settled_writing (m := m) (fun p hp hmem => ?_) fun x y hd _ _ hstate _ => ?_
      · rw [hl] at hmem
        rwa [List.mem_erase_of_ne hp]
      · cases hstate
  | @blocked l hnot hfull hl hm hgo =>
    have hm' : Mail s t s.allQueues (Function.update s.msgQueue q (some m))
        (Function.update s.queue (.blockedProd q) l) (writing c (·.parks (.blockedProd q) (some v) .psend)) := by
      rwa [Function.update_eq_self_iff.2 hq.symm]
    refine h.update hq hlt hm' rfl rfl ⟨hbox.bounded, fun hpos hne => ?_, fun _ _ => ?_⟩ ?_
    · exact hbox.consumers hpos (by simpa using hne)
    · simpa [MsgQueue.isFull] using hfull
    · refine settled_writing (m := m) (fun p _ hmem => hl.mem_iff.2 (by simp [hmem])) fun x y hd _ _ _ hhead => ?_
      cases hhead
      exact ⟨rfl, fun _ => by simp [hl.mem_iff]⟩
  | stored hnot hfull hm hgo =>
    have hroom : m.numberOfMsgs < m.size := by
      have h1 := hbox.bounded.room
      have h2 : m.numberOfMsgs ≠ m.size := by simpa [MsgQueue.isFull] using hfull
      omega
    have hm' : Mail s t s.allQueues (Function.update s.msgQueue q (some (m.addMessage v)))
        (Function.update s.queue (.blockedProd q) (s.queue (.blockedProd q))) (fun _ x => x) := by
      rwa [Function.update_eq_self]
    refine h.update hq hlt hm' rfl rfl ⟨hbox.bounded.addMessage hroom v, fun hpos hne => ?_, fun hpos hne => ?_⟩
      fun p x y hd _ hx hst hstate hhead => .inr ⟨⟨hx, hst, hstate, hhead⟩, by rw [Function.update_eq_self]; exact id⟩
    · rw [Function.update_eq_self] at hne
      have := hbox.consumers hpos hne
      exact absurd ⟨by simpa [MsgQueue.isEmpty] using this, hne⟩ hnot
    · rw [Function.update_eq_self] at hne
      have := hbox.producers hpos hne
      omega

/-- The message of a blocked producer is taken while the ring is empty: the queue has no ring. -/
theorem Boxes.meet {m' : MsgQueue} {l : List Ptr} {b : Ptr} (h : Boxes s) (hi : Core ∅ s) (hlt : q < s.nextQueue)
    (hq : s.msgQueue q = some m) (hempty : m.isEmpty = true) (hl : s.queue (.blockedProd q) = l ++ [b])
    (hm : Mail s t s.allQueues (Function.update s.msgQueue q (some m'))
      (Function.update s.queue (.blockedProd q) ((l ++ [b]).erase b))
      (writing b fun x => { x with message := { x.message with status := .sent } }))
    (hsame : m'.size = m.size) (hbounded : m'.Bounded) : Boxes t := by
  have hzero : m.numberOfMsgs = 0 := by simpa [MsgQueue.isEmpty] using hempty
  -- a producer blocked on a queue with a ring finds it full
  have hsize : ¬ 0 < m.size := fun hpos => by
    have := (h.box q m hq).producers hpos (by simp [hl])
    omega
  refine h.update hq hlt hm rfl hsame ⟨hbounded, fun hpos => absurd (hsame ▸ hpos) hsize,
    fun hpos => absurd (hsame ▸ hpos) hsize⟩ ?_
  refine settled_writing (m := m) (fun p hp hmem => ?_) fun z y hd _ hz _ hhead => ?_
  · rw [hl] at hmem
    rwa [List.mem_erase_of_ne hp]
  · obtain ⟨z', hz', hn, _⟩ := hi.live_of_mem (show b ∈ s.queue (.blockedProd q) by simp [hl])
    rw [hz] at hz'
    cases hz'
    obtain ⟨_, _, hbh⟩ := (hi.fits b z hz (by simp)).onQueue hn rfl
    obtain rfl : hd = .blockedProd q := Option.some.inj (hhead.symm.trans hbh)
    exact ⟨rfl, fun hpos => absurd hpos hsize⟩

/-- The oldest message leaves a ring no producer waits for. -/
theorem Boxes.pop {m' : MsgQueue} (h : Boxes s) (hlt : q < s.nextQueue) (hq : s.msgQueue q = some m)
    (hempty : m.isEmpty = false) (hnot : ¬ (m.isFull = true ∧ s.queue (.blockedProd q) ≠ []))
    (hm : Mail s t s.allQueues (Function.update s.msgQueue q (some m')) s.queue (fun _ x => x))
    (hsame : m'.size = m.size) (hbounded : m'.Bounded) : Boxes t := by
  have hbox := h.box q m hq
  have hpos : 0 < m.numberOfMsgs := Nat.pos_of_ne_zero (by simpa [MsgQueue.isEmpty] using hempty)
  have hm' : Mail s t s.allQueues (Function.update s.msgQueue q (some m'))
      (Function.update s.queue (.blockedProd q) (s.queue (.blockedProd q))) (fun _ x => x) := by
    rwa [Function.update_eq_self]
  refine h.update hq hlt hm' rfl hsame ⟨hbounded, fun hsz hne => ?_, fun hsz hne => ?_⟩
    fun p x y hd _ hx hst hstate hhead => .inr ⟨⟨hx, hst, hstate, hhead⟩, by rw [Function.update_eq_self]; exact id⟩
  · rw [Function.update_eq_self] at hne
    have := hbox.consumers (hsame ▸ hsz) hne
    omega
  · rw [Function.update_eq_self] at hne
    have := hbox.producers (hsame ▸ hsz) hne
    exact absurd ⟨by simpa [MsgQueue.isFull] using this, hne⟩ hnot

theorem Boxes.receive {fid : Int} {message : UserPtr} (h : Boxes s) (hi : Core ∅ s) (hlt : q < s.nextQueue)
    (hk : Refills s (.syscall (.preceive fid message))) (hfid : s.queueOf (toInt32 fid) = some q)
    (hq : s.msgQueue q = some m) (hst : ReceiveStep s t c q m message) : Boxes t := by
  have hbox := h.box q m hq
  cases hst with
  | met _ hempty hl hb hm _ => exact h.meet hi hlt hq hempty hl hm rfl (hbox.bounded.history _ _)
  | stranded _ hempty hl hb hm _ => exact h.meet hi hlt hq hempty hl hm rfl (hbox.bounded.history _ _)
  | @blocked l hempty hnone hl hm hgo =>
    have hm' : Mail s t s.allQueues (Function.update s.msgQueue q (some m))
        (Function.update s.queue (.blockedCons q) l)
        (writing c (·.parks (.blockedCons q) none (.preceive message))) := by
      rwa [Function.update_eq_self_iff.2 hq.symm]
    refine h.update hq hlt hm' rfl rfl ⟨hbox.bounded, fun _ _ => ?_, fun hpos hne => ?_⟩ ?_
    · simpa [MsgQueue.isEmpty] using hempty
    · exact hbox.producers hpos (by simpa using hne)
    · refine settled_writing (m := m) (fun p _ hmem => hl.mem_iff.2 (by simp [hmem])) fun x y hd _ _ _ hhead => ?_
      cases hhead
      exact ⟨rfl, fun _ => by simp [hl.mem_iff]⟩
  | @refilled l b x _ hempty hfull hl hb hm hgo =>
    have hpos : 0 < m.numberOfMsgs := Nat.pos_of_ne_zero (by simpa [MsgQueue.isEmpty] using hempty)
    have hnum : m.numberOfMsgs = m.size := by simpa [MsgQueue.isFull] using hfull
    have hlow : (m.popOldestMsg.deliver m.oldestMsg).numberOfMsgs < (m.popOldestMsg.deliver m.oldestMsg).size := by
      simp only [MsgQueue.popOldestMsg, MsgQueue.deliver]
      omega
    have hbounded : (m.popOldestMsg.deliver m.oldestMsg).Bounded := hbox.bounded.popOldestMsg.history _ _
    refine h.update hq hlt hm rfl rfl ⟨hbounded.addMessage hlow _, fun hsz hne => ?_, fun _ _ => ?_⟩ ?_
    · have := hbox.consumers hsz (by simpa using hne)
      omega
    · simp only [MsgQueue.addMessage, MsgQueue.popOldestMsg, MsgQueue.deliver]
      omega
    · refine settled_writing (m := m) (fun p hp hmem => ?_) fun x y hd _ _ hstate _ => ?_
      · rw [hl] at hmem
        rwa [List.mem_erase_of_ne hp]
      · cases hstate
  | popped _ hempty hnot hm _ => exact h.pop hlt hq hempty hnot hm rfl (hbox.bounded.popOldestMsg.history _ _)
  | lost hmsg hempty hm _ =>
    -- no producer was blocked on a full ring
    refine h.pop hlt hq hempty (fun hfull => ?_) hm rfl hbox.bounded.popOldestMsg
    exact hfull.2 (hk.preceive fid q m (by rw [hmsg]) hfid hq hempty hfull.1)

/-- The lists of `q` are emptied and everybody in them is told. -/
theorem Boxes.flush (h : Boxes s)
    (hm : Mail s t A Q (emptied s.queue q) (flushing (s.queue (.blockedCons q) ++ s.queue (.blockedProd q))))
    (hQ : ∀ k, k ≠ q → Q k = s.msgQueue k)
    (hbox : ∀ m, Q q = some m → m.Bounded ∧ ∃ m₀, s.msgQueue q = some m₀ ∧ m₀.size = m.size) : Boxes t := by
  refine Boxes.mail hm (fun k m hk => ?_) fun p x y hd k hb hx hst hstate hhead hhd => ?_
  · by_cases hkq : k = q
    · subst hkq
      refine ⟨(hbox m hk).1, fun _ hne => ?_, fun _ hne => ?_⟩ <;> simp [emptied] at hne
    · rw [hQ k hkq] at hk
      rw [emptied_of_ne rfl hkq, emptied_of_ne rfl hkq]
      exact h.box k m hk
  · have hnot : p ∉ s.queue (.blockedCons q) ++ s.queue (.blockedProd q) := by
      intro hmem
      rw [flushing, if_pos hmem] at hstate
      cases hstate
    rw [flushing, if_neg hnot] at hst hstate hhead
    have hold : BlockedIn s p x hd := ⟨hx, hst, hstate, hhead⟩
    refine ⟨(h.past p x hd k hold hhd).trans_le hm.next, fun m hk hpos => ?_⟩
    by_cases hkq : k = q
    · subst hkq
      obtain ⟨_, m₀, hm₀, hsize⟩ := hbox m hk
      have hmem := h.settled p x hd k m₀ hold hhd hm₀ (hsize ▸ hpos)
      refine absurd (List.mem_append.2 ?_) hnot
      cases hd with
      | blockedCons k' =>
        cases hhd
        exact .inl hmem
      | blockedProd k' =>
        cases hhd
        exact .inr hmem
      | _ => cases hhd
    · rw [hQ k hkq] at hk
      rw [emptied_of_ne hhd hkq]
      exact h.settled p x hd k m hold hhd hk hpos

theorem Boxes.create (h : Boxes s) (hst : CreateStep s t) : Boxes t := by
  cases hst with
  | failed ha => exact h.apart ha
  | unfilled hnone hlt hm =>
    refine Boxes.mail hm h.box fun p x y hd k hb hx hst hstate hhead hhd => ?_
    exact ⟨(h.past p x hd k ⟨hx, hst, hstate, hhead⟩ hhd).trans_le hm.next,
      fun m hq hsize => h.settled p x hd k m ⟨hx, hst, hstate, hhead⟩ hhd hq hsize⟩
  | created hnone hlt hm =>
    refine Boxes.mail hm (fun k m hk => ?_) fun p x y hd k hb hx hst hstate hhead hhd => ?_
    · by_cases hkq : k = s.nextQueue
      · subst hkq
        rw [Function.update_self] at hk
        cases hk
        refine ⟨.fresh _, fun _ hne => ?_, fun _ hne => ?_⟩ <;> simp [emptied] at hne
      · rw [Function.update_of_ne hkq] at hk
        rw [emptied_of_ne rfl hkq, emptied_of_ne rfl hkq]
        exact h.box k m hk
    · have hold : BlockedIn s p x hd := ⟨hx, hst, hstate, hhead⟩
      have hlt := h.past p x hd k hold hhd
      refine ⟨hlt.trans_le hm.next, fun m hk hpos => ?_⟩
      rw [Function.update_of_ne hlt.ne] at hk
      rw [emptied_of_ne hhd hlt.ne]
      exact h.settled p x hd k m hold hhd hk hpos

theorem Boxes.moved {x : Process} {hd : QueueHead} {l : List Ptr} (h : Boxes s) (hmv : Moved s t p x hd l) : Boxes t := by
  obtain ⟨q, hhd, hsome⟩ := hmv.live
  obtain ⟨m, hq⟩ := Option.isSome_iff_exists.1 hsome
  have hblocked : BlockedIn s p x hd := ⟨hmv.record, hmv.started, hmv.blocked, hmv.head⟩
  have hm : Mail s t s.allQueues (Function.update s.msgQueue q (some m)) (Function.update s.queue hd l) (fun _ x => x) := by
    rw [Function.update_eq_self_iff.2 hq.symm]
    exact hmv.mail
  have hbox := h.box q m hq
  have hmem : 0 < m.size → p ∈ s.queue hd := h.settled p x hd q m hblocked hhd hq
  -- the list the process is moved in was not empty
  have hne : ∀ d, 0 < m.size → Function.update s.queue hd l d ≠ [] → s.queue d ≠ [] := by
    intro d hpos hl
    by_cases hdd : d = hd
    · subst hdd
      exact List.ne_nil_of_mem (hmem hpos)
    · rwa [Function.update_of_ne hdd] at hl
  refine h.update hq (h.past p x hd q hblocked hhd) hm hhd rfl ⟨hbox.bounded, fun hpos hl => hbox.consumers hpos (hne _ hpos hl),
    fun hpos hl => hbox.producers hpos (hne _ hpos hl)⟩ fun p' x' y d _ hx hst hstate hhead =>
      .inr ⟨⟨hx, hst, hstate, hhead⟩, fun hin => ?_⟩
  by_cases hdd : d = hd
  · subst hdd
    rw [Function.update_self, hmv.perm.mem_iff, List.mem_cons]
    by_cases hpp : p' = p
    · exact .inl hpp
    · exact .inr ((List.mem_erase_of_ne hpp).2 hin)
  · rwa [Function.update_of_ne hdd]

theorem Boxes.killed {x : Process} (h : Boxes s) (hk : Killed s t p x) : Boxes t := by
  cases hk.taken with
  | semaphore _ ha => exact h.apart ha
  | queue _ _ hm =>
    refine Boxes.mail hm (fun k m hq => ?_) fun p' x' y hd k hb hx hst hstate hhead hhd => ?_
    · have hbox := h.box k m hq
      refine ⟨hbox.bounded, fun hpos hne => hbox.consumers hpos fun hnil => hne ?_,
        fun hpos hne => hbox.producers hpos fun hnil => hne ?_⟩
      all_goals rw [hnil, List.erase_nil]
    · have hold : BlockedIn s p' x' hd := ⟨hx, hst, hstate, hhead⟩
      refine ⟨(h.past p' x' hd k hold hhd).trans_le hm.next, fun m hq hpos => ?_⟩
      have hne : p' ≠ p := by
        rintro rfl
        obtain ⟨z, hz, hzs⟩ := hk.zombie
        have := hb.record
        rw [hz] at this
        cases this
        have := hb.state
        rw [hzs] at this
        cases this
      rw [List.mem_erase_of_ne hne]
      exact h.settled p' x' hd k m hold hhd hq hpos

/-- A step keeps the invariant of the message queues. -/
theorem Boxes.step (h : Boxes s) (hs : Ready s) (hk : Refills s e) (hst : MailStep s t e) : Boxes t := by
  have hlt : ∀ {q m}, s.msgQueue q = some m → q < s.nextQueue := fun hq => hs.inv.queueIds _ (by simp [hq])
  cases hst with
  | other _ _ ha => exact h.apart ha
  | psend hr _ hq hst => exact h.send (hlt hq) hq hst
  | preceive hr hfid hq hst => exact h.receive hs.inv.toCore (hlt hq) hk hfid hq hst
  | @preset _ q m _ hq hm =>
    refine h.flush hm (fun k hk => Function.update_of_ne hk _ _) fun m' hm' => ?_
    rw [Function.update_self] at hm'
    cases hm'
    exact ⟨(h.box q m hq).bounded.reset, m, hq, rfl⟩
  | pdelete _ hm =>
    refine h.flush hm (fun k hk => Function.update_of_ne hk _ _) fun m' hm' => ?_
    rw [Function.update_self] at hm'
    cases hm'
  | pcreate hst => exact h.create hst
  | moved hmv => exact h.moved hmv
  | killed _ _ _ hkilled => exact h.killed hkilled

theorem Boot.boxes (hb : Boot s) : Boxes s := by
  have hnone : ∀ p x hd, ¬ BlockedIn s p x hd := by
    intro p x hd h
    have hstate := (hb.booting.processes p x h.record).2
    rw [h.state] at hstate
    cases hstate
  have hq : s.msgQueue = fun _ => none := by
    obtain ⟨symbols, virt, idle, shell, rfl⟩ := hb.eq
    rfl
  refine ⟨fun q m h => ?_, fun p x hd q m h => absurd h (hnone p x hd), fun p x hd q h => absurd h (hnone p x hd)⟩
  rw [hq] at h
  cases h

theorem Reached.boxes (h : Reached Refills s) : Ready s ∧ Boxes s := by
  induction h with
  | init hb => exact ⟨hb.ready, hb.boxes⟩
  | step _ hc hst ih => exact ⟨ih.1.step hc.ends hst, ih.2.step ih.1 hc (hst.mail ih.1 hc.ends)⟩

end

/-- In every run in which a process blocked on a semaphore is killed at most at an end of its
list, and the store of no `preceive` faults while the ring is full and a producer is
blocked: the ring of a queue with room for a message is within its bounds, a consumer
waits for it only while it is empty and a producer only while it is full, and whatever the
capacity, a message is stored or taken only in a ring with room, at an index within it. -/
theorem message_queues_bounded {s : Kernel} {q : QueuePtr} {m : MsgQueue} (hs : Reached Refills s)
    (hm : s.msgQueue q = some m) :
    (0 < m.size → m.numberOfMsgs ≤ m.size ∧ m.iffc < m.size ∧
      (s.queue (.blockedCons q) ≠ [] → m.numberOfMsgs = 0) ∧
      (s.queue (.blockedProd q) ≠ [] → m.numberOfMsgs = m.size) ∧
      (s.queue (.blockedCons q) = [] ∨ s.queue (.blockedProd q) = []) ∧
      (∀ p x, BlockedIn s p x (.blockedCons q) → m.numberOfMsgs = 0) ∧
      (∀ p x, BlockedIn s p x (.blockedProd q) → m.numberOfMsgs = m.size)) ∧
    (m.isFull = false → 0 < m.size ∧ m.iffc < m.size) ∧
    (m.isEmpty = false → 0 < m.size ∧ m.iffc < m.size ∧ m.oldestIndex < m.size) := by
  obtain ⟨hready, hboxes⟩ := hs.boxes
  have hbox := hboxes.box q m hm
  have hroom := hbox.bounded.room
  have hindex : 0 < m.size → m.iffc < m.size := fun hpos => hbox.bounded.index.resolve_left (by omega)
  refine ⟨fun hpos => ⟨hroom, hindex hpos, hbox.consumers hpos, hbox.producers hpos, ?_, fun p x hb => ?_, fun p x hb => ?_⟩,
    fun hfull => ?_, fun hempty => ?_⟩
  · by_contra h
    rw [not_or] at h
    have h1 := hbox.consumers hpos h.1
    have h2 := hbox.producers hpos h.2
    omega
  · exact hbox.consumers hpos (List.ne_nil_of_mem (hboxes.settled p x _ q m hb rfl hm hpos))
  · exact hbox.producers hpos (List.ne_nil_of_mem (hboxes.settled p x _ q m hb rfl hm hpos))
  · have : m.numberOfMsgs ≠ m.size := by simpa [MsgQueue.isFull] using hfull
    exact ⟨by omega, hindex (by omega)⟩
  · have : m.numberOfMsgs ≠ 0 := by simpa [MsgQueue.isEmpty] using hempty
    refine ⟨by omega, hindex (by omega), ?_⟩
    rw [m.oldestIndex_eq hroom (by omega)]
    exact Ring.oldest_lt (by omega)

/-- A child waits for a message. -/
theorem message_queues_bounded_wait : ∃ s m, Reached Refills s ∧ s.msgQueue 0 = some m ∧ m.size = 2 ∧
    s.queue (.blockedCons 0) = [2] ∧ m.numberOfMsgs = 0 ∧ m.iffc < m.size ∧ s.queue (.blockedProd 0) = [] := by
  have hrun : (run boot [.timer, .syscall (.pcreate 2 true true), startShell 3, .syscall (.preceive 0 .mapped)]).bind
      (fun s => (s.msgQueue 0).map fun m => (m.size, s.queue (.blockedCons 0))) = some (2, [2]) := by decide +kernel
  have hcond : ∀ u, ∀ e ∈ [.timer, .syscall (.pcreate 2 true true), startShell 3, .syscall (.preceive 0 .mapped)],
      Refills u e := by
    intro u e he
    simp only [List.mem_cons, List.not_mem_nil, or_false] at he
    rcases he with rfl | rfl | rfl | rfl <;> exact .of_none rfl (by simp [startShell])
  obtain ⟨s, hs, hval⟩ := reached_of_run hcond hrun
  obtain ⟨m, hm, hpair⟩ := Option.map_eq_some_iff.1 hval
  obtain ⟨hsize, hcons⟩ := Prod.mk.inj hpair
  obtain ⟨hring, -, -⟩ := message_queues_bounded hs hm
  obtain ⟨-, hindex, hempty, -, hone, -, -⟩ := hring (by omega)
  exact ⟨s, m, hs, hm, hsize, hcons, hempty (by simp [hcons]), hindex, hone.resolve_left (by simp [hcons])⟩

/-- A child is blocked on a full queue, and its parent calls `preceive` with an address that is
not mapped. -/
theorem producer_left_blocked : ¬ ∀ s q m, Reached (fun _ _ => True) s → s.msgQueue q = some m → 0 < m.size →
    s.queue (.blockedProd q) ≠ [] → m.numberOfMsgs = m.size := by
  have hrun : (run boot [.timer, .syscall (.pcreate 1 true true), .syscall (.psend 0 10), startShell 3,
      .syscall (.psend 0 20), .resume, .syscall (.preceive 0 .unmapped)]).bind
      (fun s => (s.msgQueue 0).map fun m => (m.size, m.numberOfMsgs, s.queue (.blockedProd 0))) = some (1, 0, [2]) := by
    decide +kernel
  obtain ⟨s, hs, hval⟩ := reached_of_run (C := fun _ _ => True) (fun _ _ _ => trivial) hrun
  obtain ⟨m, hm, hval⟩ := Option.map_eq_some_iff.1 hval
  simp only [Prod.mk.injEq] at hval
  obtain ⟨hsize, hnum, hprod⟩ := hval
  intro h
  have hfull := h s 0 m hs hm (by omega) (by simp [hprod])
  omega

end Xinul
