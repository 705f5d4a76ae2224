import Xinul.Runs.Postings

/-!
# What `psend` and `preceive` answer

A call answers at once or when it goes on after its wait; either way the answer is
what was noted of the call.
-/

namespace Xinul

open Prog Machine

section

variable {s t : Kernel} {e : Event} {c : Ptr} {r : Process} {q : QueuePtr} {m : MsgQueue} {n : Ptr → Option Posting}

section answers

variable {fid v : Int} {b : UserPtr}

/-- A call of `psend` for a queue that exists. -/
theorem Step.sends (h : Step s (.syscall (.psend fid v)) t) (hs : Ready s) (hr : Running s c r)
    (hfid : s.queueOf (toInt32 fid) = some q) : ∃ m P, s.msgQueue q = some m ∧
      Posting.note s (.syscall (.psend fid v)) n c = some P ∧ P.queue = q ∧ P.size = m.size ∧ P.message = toInt32 v ∧
      P.aborted = false ∧ (P.taken = [toInt32 v] ∧ Answers t c 0 [] ∨
        P.taken = [] ∧ (t.heap c).map (·.context) = some .psend) := by
  obtain ⟨-, hsend⟩ := wp_ok (psend_mail hr.table _) h.2
  obtain ⟨m, hq, hst⟩ := hsend q hfid
  have hlives := h.lives hs hr rfl rfl
  have hposts := Event.posts_send (v := v) hfid hq hr
  have haccepts := Event.accepts_send (v := v) hfid hq hr
  have hhands := Event.hands_send (v := v) hfid hq
  cases hst with
  | @handed l a hempty hl hm hgo =>
    rw [if_neg (by simp [hempty, hl])] at haccepts
    rw [if_pos hempty, hl, List.getLast?_concat] at hhands
    have hca : c ≠ a := by
      rintro rfl
      exact hs.inv.not_mem_of_unlinked hr.heap (hr.unlinked hs.inv.toCore (by simp)) (.blockedCons q) (by simp [hl])
    refine ⟨m, ⟨q, m.size, toInt32 v, [toInt32 v], [], false⟩, hq, ?_, rfl, rfl, rfl, rfl, .inl ⟨rfl, hgo.of_lives hlives⟩⟩
    simp [Posting.note, Posting.begin, Posting.accept, Posting.hand, Posting.clear, Event.clears, hposts, haccepts,
      hhands, edit, hca]
  | blocked hnot hfull hl hm hgo =>
    rw [if_pos ⟨hfull, hnot⟩] at haccepts
    have hhands' := hhands.trans (if_nobody hnot)
    refine ⟨m, ⟨q, m.size, toInt32 v, [], [], false⟩, hq, ?_, rfl, rfl, rfl, rfl, .inr ⟨rfl, hgo.of_lives hlives⟩⟩
    simp [Posting.note, Posting.begin, Posting.accept, Posting.hand, Posting.clear, Event.clears, hposts, haccepts, hhands']
  | stored hnot hfull hm hgo =>
    rw [if_neg (by simp [hfull])] at haccepts
    have hhands' := hhands.trans (if_nobody hnot)
    refine ⟨m, ⟨q, m.size, toInt32 v, [toInt32 v], [], false⟩, hq, ?_, rfl, rfl, rfl, rfl, .inl ⟨rfl, hgo.of_lives hlives⟩⟩
    simp [Posting.note, Posting.begin, Posting.accept, Posting.hand, Posting.clear, Event.clears, hposts, haccepts,
      hhands', edit]

/-- What a call of `preceive` whose store does not fault does. -/
theorem Step.stored_mail (h : Step s (.syscall (.preceive fid b)) t) (hr : Running s c r)
    (hf : s.storeFaults (toInt32 fid) b = false) :
    (s.queueOf (toInt32 fid) = none → Apart True False s t ∧ GoesOn t c (.user (some ⟨-1, []⟩))) ∧
    ∀ q, s.queueOf (toInt32 fid) = some q → ∃ m, s.msgQueue q = some m ∧ ReceiveStep s t c q m b := by
  have hrun := h.stored hf (throw .hang)
  exact wp_ok (preceiveWith_mail hr.table .hang b) hrun

/-- A call of `preceive` for a queue that exists, if its store does not fault. -/
theorem Step.receives (h : Step s (.syscall (.preceive fid b)) t) (hs : Ready s) (hr : Running s c r)
    (hf : s.storeFaults (toInt32 fid) b = false) (hfid : s.queueOf (toInt32 fid) = some q) : ∃ m P, s.msgQueue q = some m ∧
      Posting.note s (.syscall (.preceive fid b)) n c = some P ∧ P.queue = q ∧ P.size = m.size ∧
      P.aborted = false ∧ ((∃ v, P.got = [v] ∧ Answers t c 0 (if b = .mapped then [v] else [])) ∨
        P.got = [] ∧ (t.heap c).map (·.context) = some (.preceive b)) := by
  obtain ⟨m, hq, hst⟩ := (h.stored_mail hr hf).2 q hfid
  have hlives := h.lives hs hr rfl hf
  have hposts := Event.posts_receive (b := b) hfid hq hr
  have haccepts := Event.accepts_receive (b := b) hfid hq
  have hhands := Event.hands_receive (b := b) hfid hq hr
  -- the process that is taken a message from is not the one that runs
  have hne : ∀ {l a}, s.queue (.blockedProd q) = l ++ [a] → c ≠ a := by
    rintro l a hl rfl
    exact hs.inv.not_mem_of_unlinked hr.heap (hr.unlinked hs.inv.toCore (by simp)) (.blockedProd q) (by simp [hl])
  cases hst with
  | @met l a z hmap hempty hl hz hm hgo =>
    rw [if_pos (.inl hempty), Kernel.frontProducer_concat hl hz] at haccepts
    rw [if_neg hmap, if_pos hempty, Kernel.frontProducer_concat hl hz] at hhands
    refine ⟨m, ⟨q, m.size, 0, [], [z.message.value], false⟩, hq, ?_, rfl, rfl, rfl, .inl ⟨_, rfl, hgo.of_lives hlives⟩⟩
    simp [Posting.note, Posting.begin, Posting.accept, Posting.hand, Posting.clear, Event.clears, hposts, haccepts,
      hhands, edit, hne hl]
  | blocked hempty hnone hl hm hgo =>
    rw [if_pos (.inl hempty), Kernel.frontProducer_nil hnone] at haccepts
    rw [if_pos hempty, Kernel.frontProducer_nil hnone, Option.map_none, ite_self] at hhands
    refine ⟨m, ⟨q, m.size, 0, [], [], false⟩, hq, ?_, rfl, rfl, rfl, .inr ⟨rfl, hgo.of_lives hlives⟩⟩
    simp [Posting.note, Posting.begin, Posting.accept, Posting.hand, Posting.clear, Event.clears, hposts, haccepts, hhands]
  | @refilled l a z hmap hempty hfull hl hz hm hgo =>
    rw [if_pos (.inr ⟨hfull, hmap⟩), Kernel.frontProducer_concat hl hz] at haccepts
    rw [if_neg hmap, if_neg (by simp [hempty])] at hhands
    refine ⟨m, ⟨q, m.size, 0, [], [m.oldestMsg], false⟩, hq, ?_, rfl, rfl, rfl, .inl ⟨_, rfl, hgo.of_lives hlives⟩⟩
    simp [Posting.note, Posting.begin, Posting.accept, Posting.hand, Posting.clear, Event.clears, hposts, haccepts,
      hhands, edit, hne hl]
  | popped hmap hempty hnot hm hgo =>
    have haccepts' := haccepts.trans (if_no_producer hempty hnot)
    rw [if_neg hmap, if_neg (by simp [hempty])] at hhands
    refine ⟨m, ⟨q, m.size, 0, [], [m.oldestMsg], false⟩, hq, ?_, rfl, rfl, rfl, .inl ⟨_, rfl, hgo.of_lives hlives⟩⟩
    simp [Posting.note, Posting.begin, Posting.accept, Posting.hand, Posting.clear, Event.clears, hposts, haccepts',
      hhands, edit]
  | lost hmsg hempty => simp [Kernel.storeFaults, hmsg, hfid, hq, hempty] at hf
  | stranded hmsg hempty hl => simp [Kernel.storeFaults, hmsg, hfid, hq, hl] at hf

/-- The history of a queue is what was noted of it. -/
theorem MailStep.history (h : MailStep s t e) (hon : e.onQueue s = some q) (hclear : e.clears s = none)
    (hq : s.msgQueue q = some m) : ∃ m', t.msgQueue q = some m' ∧
      m'.accepted = m.accepted ++ ((e.accepts s).map (·.2)).toList ∧
      m'.delivered = m.delivered ++ ((e.hands s).map (·.2)).toList := by
  cases h with
  | other hnone => exact absurd (hnone.symm.trans hon) fun h => by cases h
  | @psend fid v c r k m' hr hfid hk hst =>
    obtain rfl : q = k := Option.some.inj (hon.symm.trans hfid)
    obtain rfl : m = m' := Option.some.inj (hq.symm.trans hk)
    have haccepts := Event.accepts_send (v := v) hfid hq hr
    have hhands := Event.hands_send (v := v) hfid hq
    cases hst with
    | handed hempty hl hm _ =>
      rw [if_neg (by simp [hempty, hl])] at haccepts
      rw [if_pos hempty, hl, List.getLast?_concat] at hhands
      rw [haccepts, hhands]
      exact ⟨_, by rw [hm.queues, Function.update_self], rfl, rfl⟩
    | blocked hnot hfull hl hm _ =>
      rw [if_pos ⟨hfull, hnot⟩] at haccepts
      rw [haccepts, hhands, if_nobody hnot]
      exact ⟨m, by rw [hm.queues, hq], (List.append_nil _).symm, (List.append_nil _).symm⟩
    | stored hnot hfull hm _ =>
      rw [if_neg (by simp [hfull])] at haccepts
      rw [haccepts, hhands, if_nobody hnot]
      exact ⟨m.addMessage (toInt32 v), by rw [hm.queues, Function.update_self], rfl, (List.append_nil _).symm⟩
  | @preceive fid b c r k m' hr hfid hk hst =>
    obtain rfl : q = k := Option.some.inj (hon.symm.trans hfid)
    obtain rfl : m = m' := Option.some.inj (hq.symm.trans hk)
    have haccepts := Event.accepts_receive (b := b) hfid hq
    have hhands := Event.hands_receive (b := b) hfid hq hr
    cases hst with
    | met hmap hempty hl hz hm _ =>
      rw [if_pos (.inl hempty), Kernel.frontProducer_concat hl hz] at haccepts
      rw [if_neg hmap, if_pos hempty, Kernel.frontProducer_concat hl hz] at hhands
      rw [haccepts, hhands]
      exact ⟨_, by rw [hm.queues, Function.update_self], rfl, rfl⟩
    | blocked hempty hnone hl hm _ =>
      rw [if_pos (.inl hempty), Kernel.frontProducer_nil hnone] at haccepts
      rw [if_pos hempty, Kernel.frontProducer_nil hnone, Option.map_none, ite_self] at hhands
      rw [haccepts, hhands]
      exact ⟨m, by rw [hm.queues, hq], (List.append_nil _).symm, (List.append_nil _).symm⟩
    | refilled hmap hempty hfull hl hz hm _ =>
      rw [if_pos (.inr ⟨hfull, hmap⟩), Kernel.frontProducer_concat hl hz] at haccepts
      rw [if_neg hmap, if_neg (by simp [hempty])] at hhands
      rw [haccepts, hhands]
      exact ⟨_, by rw [hm.queues, Function.update_self], rfl, rfl⟩
    | popped hmap hempty hnot hm _ =>
      rw [if_neg hmap, if_neg (by simp [hempty])] at hhands
      rw [haccepts, if_no_producer hempty hnot, hhands]
      exact ⟨m.popOldestMsg.deliver m.oldestMsg, by rw [hm.queues, Function.update_self], (List.append_nil _).symm, rfl⟩
    | lost hmsg hempty hm _ =>
      rw [if_neg (by simp [hempty, hmsg])] at haccepts
      rw [if_pos hmsg] at hhands
      rw [haccepts, hhands]
      exact ⟨m.popOldestMsg, by rw [hm.queues, Function.update_self], (List.append_nil _).symm, (List.append_nil _).symm⟩
    | @stranded l a z hmsg hempty hl hz hm _ =>
      rw [if_pos (.inl hempty), Kernel.frontProducer_concat hl hz] at haccepts
      rw [if_pos hmsg] at hhands
      rw [haccepts, hhands]
      exact ⟨m.accept z.message.value, by rw [hm.queues, Function.update_self], rfl, (List.append_nil _).symm⟩
  | preset hfid => exact absurd (hclear.symm.trans hfid) fun h => by cases h
  | pdelete hfid => exact absurd (hclear.symm.trans hfid) fun h => by cases h
  | pcreate => cases hon
  | moved => cases hon
  | killed => cases hon

/-- What the calls answer, for queues with room for a message or under `G`. -/
structure Answered (G : Prop) (s t : Kernel) (n : Ptr → Option Posting) (e : Event) (c : Ptr) (r : Process) : Prop where
  send : ∀ fid v, e = .syscall (.psend fid v) → s.queueOf (toInt32 fid) = none ∧ Answers t c (-1) [] ∨
    ∃ P, Posting.note s e n c = some P ∧ s.queueOf (toInt32 fid) = some P.queue ∧ P.message = toInt32 v ∧
      P.aborted = false ∧ (P.taken = [P.message] ∧ Answers t c 0 [] ∨
        P.taken = [] ∧ (t.heap c).map (·.context) = some .psend)
  sent : e = .resume → r.context = .psend → ∃ P, n c = some P ∧ (0 < P.size ∨ G →
    P.taken = [P.message] ∧ P.aborted = false ∧ Answers t c 0 [] ∨
      P.taken = [] ∧ P.aborted = true ∧ Answers t c (-1) [])
  receive : ∀ fid b, e = .syscall (.preceive fid b) → e.storeFaults s = false → s.queueOf (toInt32 fid) = none ∧ Answers t c (-1) [] ∨
    ∃ P, Posting.note s e n c = some P ∧ s.queueOf (toInt32 fid) = some P.queue ∧ P.aborted = false ∧
      ((∃ v, P.got = [v] ∧ Answers t c 0 (if b = .mapped then [v] else [])) ∨
        P.got = [] ∧ (t.heap c).map (·.context) = some (.preceive b))
  received : ∀ b, e = .resume → r.context = .preceive b → e.storeFaults s = false → ∃ P, n c = some P ∧ (0 < P.size ∨ G →
    (∃ v, P.got = [v] ∧ P.aborted = false ∧ Answers t c 0 (if b = .mapped then [v] else [])) ∨
      P.got = [] ∧ P.aborted = true ∧ Answers t c (-1) [])

theorem Posts.answered {G : Prop} (hposts : Posts G s n) (hready : Ready s) (hr : Running s c r) (hst : Step s e t) :
    Answered G s t n e c r := by
  have alive := hr.alive
  have hunlinked := hr.unlinked hready.inv.toCore (by simp)
  have hnot : ∀ hd, c ∉ s.queue hd := hready.inv.not_mem_of_unlinked hr.heap hunlinked
  constructor
  · rintro fid v rfl
    cases hfid : s.queueOf (toInt32 fid) with
    | none =>
      have hgo := (wp_ok (psend_mail hr.table _) hst.2).1 hfid
      exact .inl ⟨rfl, hgo.2.of_lives (hst.lives hready hr rfl rfl)⟩
    | some q =>
      obtain ⟨m, P, -, hP, hPq, -, hmsg, hab, hend⟩ := hst.sends (n := n) hready hr hfid
      exact .inr ⟨P, hP, by rw [hPq], hmsg, hab, by rwa [hmsg]⟩
  · rintro rfl hctx
    obtain ⟨P, hP, hsend⟩ := hposts.sends c r hr.heap hr.started alive hctx
    have hres : wp resume (fun _ t => GoesOn t c (.user (some ⟨if r.message.status = .sent then 0 else -1, []⟩)))
        (fun _ => True) s := by
      simp only [resume, wp_bind, wp_getCurrentProcess, hr.table, wp_derefOpt hr.heap, hctx]
      exact psendResume_mail hr.table hr.heap
    have hf : Event.resume.storeFaults s = false := by simp [Event.storeFaults, hr.current, hctx]
    have hgo := (wp_ok hres hst.2).of_lives (hst.lives_resume hready hr (by rw [hctx]; rfl) hf)
    refine ⟨P, hP, fun hpos => ?_⟩
    obtain ⟨-, -, h | h⟩ := hsend.ends (fun ho => hnot _ (hsend.waits ho).1) hpos
    · rw [if_pos h.2.2] at hgo
      exact .inl ⟨h.1, h.2.1, hgo⟩
    · rw [if_neg (by simp [h.2.2])] at hgo
      exact .inr ⟨h.1, h.2.1, hgo⟩
  · rintro fid b rfl hf
    cases hfid : s.queueOf (toInt32 fid) with
    | none =>
      have hgo := (hst.stored_mail hr hf).1 hfid
      exact .inl ⟨rfl, hgo.2.of_lives (hst.lives hready hr rfl hf)⟩
    | some q =>
      obtain ⟨m, P, -, hP, hPq, -, hab, hend⟩ := hst.receives (n := n) hready hr hf hfid
      exact .inr ⟨P, hP, by rw [hPq], hab, hend⟩
  · rintro b rfl hctx hf
    obtain ⟨P, hP, hrec⟩ := hposts.receives c r b hr.heap hr.started alive hctx
    have hstored : ¬ (b = .unmapped ∧ r.message.status = .received) := by
      intro h
      simp [Event.storeFaults, hr.current, hctx, h.1, h.2] at hf
    have hres : wp resume (fun _ t => GoesOn t c (.user (some (if r.message.status = .received then
        ⟨0, if b = .mapped then [r.message.value] else []⟩ else ⟨-1, []⟩)))) (fun _ => True) s := by
      simp only [resume, wp_bind, wp_getCurrentProcess, hr.table, wp_derefOpt hr.heap, hctx]
      refine (wp_congr (hr.preceiveResume_stores _ (throw .hang) hstored)).2 ?_
      exact preceiveResumeWith_mail hr.table hr.heap .hang b
    have hgo := (wp_ok hres hst.2).of_lives (hst.lives_resume hready hr (by rw [hctx]; rfl) hf)
    refine ⟨P, hP, fun hpos => ?_⟩
    obtain ⟨-, -, h | h⟩ := hrec.ends (fun ho => hnot _ (hrec.waits ho)) hpos
    · rw [if_pos h.2.2] at hgo
      exact .inl ⟨_, h.1, h.2.1, hgo⟩
    · rw [if_neg (by simp [h.2.2])] at hgo
      exact .inr ⟨h.1, h.2.1, hgo⟩

end answers

end

/-- In every run in which a process blocked on a semaphore is killed at most at an end of its
list, and the store of no `preceive` faults while the ring is full and a producer is
blocked, for queues with room for a message: `psend` returns 0 if the queue accepted its
message, once, and -1 if there is no such queue or it was reset or deleted while the
process was blocked; `preceive`, unless its store faults, returns 0 if it was handed a
message, and stores the one it was handed, and -1 if there is no such queue or it was reset
or deleted while the process was blocked. What is noted as accepted and handed over is what
the queue accepted and delivered. -/
theorem message_calls_answered {s t : Kernel} {n : Ptr → Option Posting} {e : Event} {c : Ptr} {r : Process}
    (hs : Posted s n) (hk : Refills s e) (hr : Running s c r) (hst : Step s e t) :
    (∀ fid v, e = .syscall (.psend fid v) → s.queueOf (toInt32 fid) = none ∧ Answers t c (-1) [] ∨
      ∃ P, Posting.note s e n c = some P ∧ s.queueOf (toInt32 fid) = some P.queue ∧ P.message = toInt32 v ∧
        P.aborted = false ∧ (P.taken = [P.message] ∧ Answers t c 0 [] ∨
          P.taken = [] ∧ (t.heap c).map (·.context) = some .psend)) ∧
    (e = .resume → r.context = .psend → ∃ P, n c = some P ∧ (0 < P.size →
      P.taken = [P.message] ∧ P.aborted = false ∧ Answers t c 0 [] ∨
        P.taken = [] ∧ P.aborted = true ∧ Answers t c (-1) [])) ∧
    (∀ fid b, e = .syscall (.preceive fid b) → e.storeFaults s = false → s.queueOf (toInt32 fid) = none ∧ Answers t c (-1) [] ∨
      ∃ P, Posting.note s e n c = some P ∧ s.queueOf (toInt32 fid) = some P.queue ∧ P.aborted = false ∧
        ((∃ v, P.got = [v] ∧ Answers t c 0 (if b = .mapped then [v] else [])) ∨
          P.got = [] ∧ (t.heap c).map (·.context) = some (.preceive b))) ∧
    (∀ b, e = .resume → r.context = .preceive b → e.storeFaults s = false → ∃ P, n c = some P ∧ (0 < P.size →
      (∃ v, P.got = [v] ∧ P.aborted = false ∧ Answers t c 0 (if b = .mapped then [v] else [])) ∨
        P.got = [] ∧ P.aborted = true ∧ Answers t c (-1) [])) ∧
    (∀ q m, e.onQueue s = some q → e.clears s = none → s.msgQueue q = some m → ∃ m', t.msgQueue q = some m' ∧
      m'.accepted = m.accepted ++ ((e.accepts s).map (·.2)).toList ∧
      m'.delivered = m.delivered ++ ((e.hands s).map (·.2)).toList) := by
  obtain ⟨hready, hboxes, hposts⟩ := hs.posts
  have h := hposts.answered hready hr hst
  refine ⟨h.send, fun he hctx => ?_, h.receive, fun b he hctx hf => ?_,
    fun q m hon hclear hq => (hst.mail hready hk.ends).history hon hclear hq⟩
  · obtain ⟨P, hP, hends⟩ := h.sent he hctx
    exact ⟨P, hP, fun hpos => hends (.inl hpos)⟩
  · obtain ⟨P, hP, hends⟩ := h.received b he hctx hf
    exact ⟨P, hP, fun hpos => hends (.inl hpos)⟩

/-- A child waits for a message of a queue that its parent deletes. -/
theorem message_calls_answered_deleted : ∃ s t n P, Posted s n ∧ Step s .resume t ∧ n 2 = some P ∧ P.size = 2 ∧
    P.got = [] ∧ P.aborted = true ∧ Answers t 2 (-1) [] := by
  have hrun : (runNoted Posting.note boot (fun _ => none) [.timer, .syscall (.pcreate 2 true true), startShell 3,
      .syscall (.preceive 0 .mapped), .resume, .syscall (.pdelete 0)]).bind (fun a => (run a.1 [.resume]).map fun _ =>
        (a.1.caller, a.1.current.map (·.context), Event.resume.storeFaults a.1, a.2 2)) =
      some (some 2, some (.preceive .mapped), false, some ⟨0, 2, 0, [], [], true⟩) := by decide +kernel
  have hcond : ∀ u, ∀ e ∈ [.timer, .syscall (.pcreate 2 true true), startShell 3, .syscall (.preceive 0 .mapped), .resume,
      .syscall (.pdelete 0)], Refills u e := by
    intro u e he
    simp only [List.mem_cons, List.not_mem_nil, or_false] at he
    rcases he with rfl | rfl | rfl | rfl | rfl | rfl <;> exact .of_none rfl (by simp [startShell])
  obtain ⟨s, n, hs, hval⟩ := noted_of_run hcond hrun
  obtain ⟨t, ht, hval⟩ := Option.map_eq_some_iff.1 hval
  simp only [Prod.mk.injEq] at hval
  obtain ⟨hcaller, hctx, hf, hn⟩ := hval
  have hst := run_step ht
  obtain ⟨c, r, hr⟩ := (Posted.posts hs).1.running_of_resume hst
  obtain rfl : c = 2 := Option.some.inj (hr.table.symm.trans hcaller)
  rw [hr.current] at hctx
  obtain ⟨-, -, -, hends, -⟩ := message_calls_answered hs (.of_none rfl (by simp)) hr hst
  obtain ⟨P, hP, hend⟩ := hends .mapped rfl (Option.some.inj hctx) hf
  obtain rfl : _ = P := Option.some.inj (hn.symm.trans hP)
  obtain ⟨v, hv, -⟩ | ⟨hgot, hab, hans⟩ := hend (by decide)
  · cases hv
  · exact ⟨s, t, n, _, hs, hst, hn, rfl, hgot, hab, hans⟩

/-- A child is blocked on a full queue when the store of another child faults. Its message is
received then, a `chprio` puts it back among the blocked producers, and `preset` tells it
that its message was not accepted. -/
theorem accepted_message_refused : ¬ ∀ s t n c P, Noted Boot Step (fun _ _ => True) (fun _ => none) Posting.note s n →
    s.caller = some c → s.current.map (·.context) = some .psend → Step s .resume t → n c = some P → 0 < P.size →
    P.taken = [P.message] → Answers t c 0 [] := by
  have hrun : (runNoted Posting.note boot (fun _ => none) [.timer, .syscall (.pcreate 1 true true), .syscall (.psend 0 10),
      startShell 3, .syscall (.psend 0 20), .resume, .syscall (.chprio 3 1), startShell 3, .syscall (.preceive 0 .unmapped),
      .resume, .syscall (.preceive 0 .mapped), .syscall (.chprio 3 3), .syscall (.preset 0)]).bind
      (fun a => (run a.1 [.resume]).map fun t => (a.1.caller, a.1.current.map (·.context), a.2 2,
        (t.heap 2).map (·.context))) =
      some (some 2, some .psend, some ⟨0, 1, 20, [20], [], true⟩, some (.user (some ⟨-1, []⟩))) := by decide +kernel
  obtain ⟨s, n, hs, hval⟩ := noted_of_run (C := fun _ _ => True) (fun _ _ _ => trivial) hrun
  obtain ⟨t, ht, hval⟩ := Option.map_eq_some_iff.1 hval
  simp only [Prod.mk.injEq] at hval
  obtain ⟨hcaller, hctx, hn, hans⟩ := hval
  intro h
  have hzero := h s t n 2 _ hs hcaller hctx (run_step ht) hn (by decide) rfl
  rw [Answers, hans] at hzero
  cases hzero

end Xinul
