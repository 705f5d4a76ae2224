import Xinul.Runs.MailAnswers

/-!
# The order of the messages

A queue hands its messages over in the order it accepted them. What it hands over is
what the calls of `preceive` answer, at once or when they go on after their wait.
-/

namespace Xinul

open Prog Machine

/-- A process blocked on a semaphore is killed at most at an end of its list, and the store
of a `preceive` does not fault: the message it was to store has left the queue by then. -/
structure Delivers (s : Kernel) (e : Event) : Prop where
  ends : KillsAtEnd s e
  stores : e.storeFaults s = false

/-- In every queue the messages are in the order they were accepted in. -/
def InOrder (s : Kernel) : Prop := ∀ q m, s.msgQueue q = some m → m.Fifo

section

variable {s t : Kernel} {e : Event} {c : Ptr} {q : QueuePtr} {m m' : MsgQueue}

/-- The event kills nobody and no store faults in it. -/
def Event.harmless (s : Kernel) (e : Event) : Bool := (e.target s).isNone && !e.storeFaults s

theorem Delivers.of_harmless (h : e.harmless s = true) : Delivers s e := by
  simp only [Event.harmless, Bool.and_eq_true, Option.isNone_iff_eq_none, Bool.not_eq_true'] at h
  exact ⟨.of_none h.1, h.2⟩

theorem Delivers.refills (h : Delivers s e) : Refills s e := by
  refine ⟨h.ends, fun fid q m he hfid hq hempty _ => ?_⟩
  have hf := h.stores
  subst he
  simp [Event.storeFaults, Kernel.storeFaults, hfid, hq, hempty] at hf

/-! ## The queues a step leaves alone -/

theorem MailStep.others (h : MailStep s t e) (hlt : q < s.nextQueue) (hon : e.onQueue s ≠ some q) :
    t.msgQueue q = s.msgQueue q := by
  have updated : ∀ {k w A L g}, e.onQueue s = some k → Mail s t A (Function.update s.msgQueue k w) L g →
      t.msgQueue q = s.msgQueue q := by
    intro k w A L g hk hm
    rw [hm.queues]
    refine Function.update_of_ne ?_ _ _
    rintro rfl
    exact hon hk
  cases h with
  | other _ _ ha => rw [(ha.queues trivial).2.1]
  | psend _ hfid _ hst =>
    cases hst with
    | handed _ _ hm => exact updated hfid hm
    | blocked _ _ _ hm => rw [hm.queues]
    | stored _ _ hm => exact updated hfid hm
  | preceive _ hfid _ hst =>
    cases hst with
    | met _ _ _ _ hm => exact updated hfid hm
    | blocked _ _ _ hm => rw [hm.queues]
    | refilled _ _ _ _ _ hm => exact updated hfid hm
    | popped _ _ _ hm => exact updated hfid hm
    | lost _ _ hm => exact updated hfid hm
    | stranded _ _ _ _ hm => exact updated hfid hm
  | preset hfid _ hm => exact updated hfid hm
  | pdelete hfid hm => exact updated hfid hm
  | pcreate hst =>
    cases hst with
    | failed ha => rw [(ha.queues trivial).2.1]
    | unfilled _ _ hm => rw [hm.queues]
    | created _ _ hm => rw [hm.queues, Function.update_of_ne hlt.ne]
  | moved hmv => rw [hmv.mail.queues]
  | killed _ _ _ hk =>
    cases hk.taken with
    | semaphore _ ha => rw [(ha.queues trivial).2.1]
    | queue _ _ hm => rw [hm.queues]

/-- A queue that is reset starts anew. -/
theorem MailStep.cleared (h : MailStep s t e) (hclear : e.clears s = some q) (hq : t.msgQueue q = some m) :
    m.accepted = [] ∧ m.delivered = [] := by
  cases h with
  | other hon => rw [(Event.quiet_of_other hon).2.2.2] at hclear; cases hclear
  | @preset fid k w hfid _ hm =>
    obtain rfl : q = k := Option.some.inj (hclear.symm.trans hfid)
    rw [hm.queues, Function.update_self] at hq
    cases hq
    exact ⟨rfl, rfl⟩
  | @pdelete fid k hfid hm =>
    obtain rfl : q = k := Option.some.inj (hclear.symm.trans hfid)
    rw [hm.queues, Function.update_self] at hq
    cases hq
  | _ => cases hclear

theorem Event.clears_none (e : Event) (hon : e.onQueue s = some q) (hclear : e.clears s ≠ some q) : e.clears s = none := by
  cases e with
  | syscall sc =>
    cases sc with
    | preset fid => exact absurd hon hclear
    | pdelete fid => exact absurd hon hclear
    | _ => rfl
  | _ => rfl

/-! ## The order -/

/-- One queue changes. -/
theorem InOrder.update (h : InOrder s) (hQ : t.msgQueue = Function.update s.msgQueue q (some m')) (hm : m'.Fifo) :
    InOrder t := by
  intro k w hk
  rw [hQ] at hk
  by_cases hkq : k = q
  · subst hkq
    rw [Function.update_self] at hk
    cases hk
    exact hm
  · rw [Function.update_of_ne hkq] at hk
    exact h k w hk

theorem InOrder.same (h : InOrder s) (hQ : t.msgQueue = s.msgQueue) : InOrder t := fun q m hq => h q m (hQ ▸ hq)

theorem InOrder.send {v : Int} (h : InOrder s) (hbox : Boxes s) (hq : s.msgQueue q = some m) (hst : SendStep s t c q m v) :
    InOrder t := by
  have hbounded := (hbox.box q m hq).bounded
  cases hst with
  | handed hempty _ hm => exact h.update hm.queues ((h q m hq).handOver hempty v)
  | blocked _ _ _ hm => exact h.same hm.queues
  | stored _ hfull hm =>
    have hroom := hbounded.room
    have hne : m.numberOfMsgs ≠ m.size := by simpa [MsgQueue.isFull] using hfull
    exact h.update hm.queues ((h q m hq).addMessage hbounded (by omega) v)

theorem InOrder.receive {fid : Int} {message : UserPtr} (h : InOrder s) (hbox : Boxes s) (hfid : s.queueOf fid = some q)
    (hq : s.msgQueue q = some m) (hf : s.storeFaults fid message = false) (hst : ReceiveStep s t c q m message) :
    InOrder t := by
  have hbounded := (hbox.box q m hq).bounded
  have hpos : m.isEmpty = false → 0 < m.numberOfMsgs := fun he => Nat.pos_of_ne_zero (by simpa [MsgQueue.isEmpty] using he)
  cases hst with
  | met _ hempty _ _ hm => exact h.update hm.queues ((h q m hq).handOver hempty _)
  | blocked _ _ _ hm => exact h.same hm.queues
  | refilled _ hempty _ _ _ hm =>
    -- the cell that was read is the one that is written
    have hroom := hbounded.room
    have hlow : m.popOldestMsg.numberOfMsgs < m.popOldestMsg.size := by
      have := hpos hempty
      simp only [MsgQueue.popOldestMsg]
      omega
    have hpop := (h q m hq).popOldestMsg hbounded (hpos hempty)
    exact h.update hm.queues (hpop.addMessage (hbounded.popOldestMsg.history _ _) hlow _)
  | popped _ hempty _ hm => exact h.update hm.queues ((h q m hq).popOldestMsg hbounded (hpos hempty))
  | lost hmsg hempty => simp [Kernel.storeFaults, hmsg, hfid, hq, hempty] at hf
  | stranded hmsg _ hl => simp [Kernel.storeFaults, hmsg, hfid, hq, hl] at hf

theorem InOrder.step (h : InOrder s) (hbox : Boxes s) (hk : Delivers s e) (hst : MailStep s t e) : InOrder t := by
  cases hst with
  | other _ _ ha => exact h.same (ha.queues trivial).2.1
  | psend _ _ hq hst => exact h.send hbox hq hst
  | preceive _ hfid hq hst => exact h.receive hbox hfid hq hk.stores hst
  | preset _ _ hm => exact h.update hm.queues (.reset _)
  | @pdelete fid q _ hm =>
    intro k w hw
    rw [hm.queues] at hw
    by_cases hkq : k = q
    · rw [hkq, Function.update_self] at hw
      cases hw
    · rw [Function.update_of_ne hkq] at hw
      exact h k w hw
  | pcreate hst =>
    cases hst with
    | failed ha => exact h.same (ha.queues trivial).2.1
    | unfilled _ _ hm => exact h.same hm.queues
    | created _ _ hm => exact h.update hm.queues (.fresh _)
  | moved hmv => exact h.same hmv.mail.queues
  | killed _ _ _ hkilled =>
    cases hkilled.taken with
    | semaphore _ ha => exact h.same (ha.queues trivial).2.1
    | queue _ _ hm => exact h.same hm.queues

theorem Reached.inOrder (h : Reached Delivers s) : InOrder s := by
  induction h with
  | init hb =>
    intro q m hq
    obtain ⟨symbols, virt, idle, shell, rfl⟩ := hb.eq
    cases hq
  | step hs hc hst ih =>
    obtain ⟨hready, hbox⟩ := Reached.boxes (hs.mono fun _ _ => Delivers.refills)
    exact ih.step hbox hc (hst.mail hready hc.ends)

/-- A call of `preceive` answers at once with the message it is handed, or it is blocked. -/
theorem Step.hands_answer {fid : Int} {b : UserPtr} {r : Process} (h : Step s (.syscall (.preceive fid b)) t) (hs : Ready s)
    (hr : Running s c r) (hf : s.storeFaults (toInt32 fid) b = false) (hfid : s.queueOf (toInt32 fid) = some q) :
    (∃ v, Event.hands s (.syscall (.preceive fid b)) = some (c, v) ∧ Answers t c 0 (if b = .mapped then [v] else [])) ∨
      Event.hands s (.syscall (.preceive fid b)) = none ∧ (t.heap c).map (·.context) = some (.preceive b) := by
  obtain ⟨m, hq, hst⟩ := (h.stored_mail hr hf).2 q hfid
  have hlives := h.lives hs hr rfl hf
  have hhands := Event.hands_receive (b := b) hfid hq hr
  cases hst with
  | met hmap hempty hl hz _ hgo =>
    rw [if_neg hmap, if_pos hempty, Kernel.frontProducer_concat hl hz] at hhands
    exact .inl ⟨_, hhands, hgo.of_lives hlives⟩
  | blocked hempty hnone _ _ hgo =>
    rw [if_pos hempty, Kernel.frontProducer_nil hnone, Option.map_none, ite_self] at hhands
    exact .inr ⟨hhands, hgo.of_lives hlives⟩
  | refilled hmap hempty _ _ _ _ hgo =>
    rw [if_neg hmap, if_neg (by simp [hempty])] at hhands
    exact .inl ⟨_, hhands, hgo.of_lives hlives⟩
  | popped hmap hempty _ _ hgo =>
    rw [if_neg hmap, if_neg (by simp [hempty])] at hhands
    exact .inl ⟨_, hhands, hgo.of_lives hlives⟩
  | lost hmsg hempty => simp [Kernel.storeFaults, hmsg, hfid, hq, hempty] at hf
  | stranded hmsg _ hl => simp [Kernel.storeFaults, hmsg, hfid, hq, hl] at hf

end

/-- In every run in which a process blocked on a semaphore is killed at most at an end of its
list and the store of no `preceive` faults, the messages a queue has accepted since it was
created or last reset are those it has handed over followed by those in its ring, oldest
first. In each step the two lists get the message the queue accepts and the one that is
handed over. A message handed to a process that calls `preceive` is what the call answers;
one handed to a process that is blocked is noted, and is what its call answers when it
goes on. -/
theorem messages_delivered_in_order {s : Kernel} {n : Ptr → Option Posting}
    (hs : Noted Boot Step Delivers (fun _ => none) Posting.note s n) :
    (∀ q m, s.msgQueue q = some m → m.accepted = m.delivered ++ m.contents) ∧
    ∀ e t, Delivers s e → Step s e t →
      (∀ q m, s.msgQueue q = some m → e.clears s ≠ some q → ∃ m', t.msgQueue q = some m' ∧
        m'.accepted = m.accepted ++ (if e.onQueue s = some q then ((e.accepts s).map (·.2)).toList else []) ∧
        m'.delivered = m.delivered ++ (if e.onQueue s = some q then ((e.hands s).map (·.2)).toList else [])) ∧
      (∀ q m, e.clears s = some q → t.msgQueue q = some m → m.accepted = [] ∧ m.delivered = []) ∧
      ∀ c r, Running s c r →
        (∀ fid b q, e = .syscall (.preceive fid b) → s.queueOf (toInt32 fid) = some q →
          (∃ v, e.hands s = some (c, v) ∧ Answers t c 0 (if b = .mapped then [v] else [])) ∨
            e.hands s = none ∧ (t.heap c).map (·.context) = some (.preceive b)) ∧
        (∀ b, e = .resume → r.context = .preceive b → ∃ P, n c = some P ∧ (0 < P.size →
          (∃ v, P.got = [v] ∧ Answers t c 0 (if b = .mapped then [v] else [])) ∨
            P.got = [] ∧ P.aborted = true ∧ Answers t c (-1) [])) := by
  obtain ⟨hready, -, hposts⟩ := Noted.posts (G := False) (fun _ _ => Delivers.refills) False.elim hs
  refine ⟨Reached.inOrder hs.reach, fun e t hk hst => ⟨fun q m hq hclear => ?_, fun q m hclear hq => ?_, fun c r hr => ⟨?_, ?_⟩⟩⟩
  · have hmail := hst.mail hready hk.ends
    by_cases hon : e.onQueue s = some q
    · have hnone : e.clears s = none := e.clears_none hon hclear
      simpa only [if_pos hon] using hmail.history hon hnone hq
    · refine ⟨m, (hmail.others (hready.inv.queueIds q (by simp [hq])) hon).trans hq, ?_, ?_⟩
      all_goals rw [if_neg hon, List.append_nil]
  · exact (hst.mail hready hk.ends).cleared hclear hq
  · rintro fid b q rfl hfid
    exact hst.hands_answer hready hr hk.stores hfid
  · intro b he hctx
    obtain ⟨P, hP, hends⟩ := (hposts.answered hready hr hst).received b he hctx hk.stores
    refine ⟨P, hP, fun hpos => (hends (.inl hpos)).imp_left ?_⟩
    rintro ⟨v, hgot, -, hans⟩
    exact ⟨v, hgot, hans⟩

/-- A child is blocked on a full ring, and its parent receives the message before its own. -/
theorem messages_delivered_in_order_pair : ∃ s t n c m m', Noted Boot Step Delivers (fun _ => none) Posting.note s n ∧
    s.msgQueue 0 = some m ∧ [m.accepted, m.delivered, m.contents] = [[7], [], [7]] ∧
    m.accepted = m.delivered ++ m.contents ∧ s.queue (.blockedProd 0) = [2] ∧
    Step s (.syscall (.preceive 0 .mapped)) t ∧ t.msgQueue 0 = some m' ∧ m'.accepted = [7, 8] ∧ m'.delivered = [7] ∧
    Answers t c 0 [7] := by
  have hrun : (runChecked (fun s e => e.harmless s) Posting.note boot (fun _ => none) [.timer, .syscall (.pcreate 1 true true),
      .syscall (.psend 0 7), startShell 3, .syscall (.psend 0 8), .resume]).bind (fun w =>
        (run w.1 [.syscall (.preceive 0 .mapped)]).bind fun _ => (w.1.msgQueue 0).map fun m =>
        ([m.accepted, m.delivered, m.contents], w.1.queueOf 0, w.1.queue (.blockedProd 0),
          (Event.accepts w.1 (.syscall (.preceive 0 .mapped))).map (·.2),
          (Event.hands w.1 (.syscall (.preceive 0 .mapped))).map (·.2))) =
      some ([[7], [], [7]], some 0, [2], some 8, some 7) := by decide +kernel
  obtain ⟨s, n, hn, hval⟩ := noted_of_runChecked (fun _ _ _ _ _ => Delivers.of_harmless) hrun
  obtain ⟨t, ht, hval⟩ := Option.bind_eq_some_iff.1 hval
  obtain ⟨m, hm, hval⟩ := Option.map_eq_some_iff.1 hval
  simp only [Prod.mk.injEq] at hval
  obtain ⟨hlists, hfid, hprod, haccepts, hhands⟩ := hval
  obtain ⟨horder, hnext⟩ := messages_delivered_in_order hn
  have hst := run_step ht
  obtain ⟨hgrow, -, hans⟩ := hnext _ t (.of_harmless rfl) hst
  obtain ⟨c, r, hr⟩ := (Reached.ready (fun _ _ => Delivers.ends) hn.reach).running_of_syscall hst
  have hon : Event.onQueue s (.syscall (.preceive 0 .mapped)) = some 0 := hfid
  obtain ⟨m', hm', hacc, hdel⟩ := hgrow 0 m hm (by simp [Event.clears])
  have hold : m.accepted = [7] ∧ m.delivered = [] ∧ m.contents = [7] := by simpa using hlists
  rw [if_pos hon, haccepts, hold.1] at hacc
  rw [if_pos hon, hhands, hold.2.1] at hdel
  refine ⟨s, t, n, c, m, m', hn, hm, hlists, horder 0 m hm, hprod, hst, hm', hacc, hdel, ?_⟩
  obtain ⟨v, hv, hanswer⟩ | ⟨hnone, -⟩ := (hans c r hr).1 0 .mapped 0 rfl hfid
  · rw [hv] at hhands
    cases hhands
    exact hanswer
  · rw [hnone] at hhands
    cases hhands

/-- The store of a `preceive` faults: the message has left the ring and nobody is handed it. -/
theorem message_lost : ¬ ∀ s q m, Reached (fun _ _ => True) s → s.msgQueue q = some m → 0 < m.size →
    m.accepted = m.delivered ++ m.contents := by
  have hrun : (run boot [.timer, .syscall (.pcreate 1 true true), .syscall (.psend 0 10), startShell 3,
      .syscall (.preceive 0 .unmapped)]).bind (fun s => (s.msgQueue 0).map fun m =>
        (m.size, m.accepted, m.delivered, m.contents)) = some (1, [10], [], []) := by decide +kernel
  obtain ⟨s, hs, hval⟩ := reached_of_run (C := fun _ _ => True) (fun _ _ _ => trivial) hrun
  obtain ⟨m, hm, hval⟩ := Option.map_eq_some_iff.1 hval
  simp only [Prod.mk.injEq] at hval
  obtain ⟨hsize, hacc, hdel, hcont⟩ := hval
  intro h
  have horder := h s 0 m hs hm (by omega)
  rw [hacc, hdel, hcont] at horder
  cases horder

end Xinul
