import Xinul.Runs.Mailboxes

/-!
# What `pcount` counts

The calls of `psend` and `preceive` made on a queue are noted along the run. A call
whose process is killed while it is blocked is taken off again, and `preset` starts
anew.
-/

namespace Xinul

open Prog Machine

/-- The calls made on each queue. -/
structure Calls where
  sends : QueuePtr → Int
  receives : QueuePtr → Int

/-- One more in the count of `q`. -/
def bump (f : QueuePtr → Int) (q : QueuePtr) : QueuePtr → Int := Function.update f q (f q + 1)

/-- The calls after the event. -/
def Calls.note (s : Kernel) (e : Event) (k : Calls) : Calls :=
  match e with
  | .syscall (.psend fid _) => match s.queueOf (toInt32 fid) with
    | none => k
    | some q => { k with sends := bump k.sends q }
  | .syscall (.preceive fid _) => match s.queueOf (toInt32 fid) with
    | none => k
    | some q => { k with receives := bump k.receives q }
  | .syscall (.preset fid) => match s.queueOf (toInt32 fid) with
    | none => k
    | some q => ⟨Function.update k.sends q 0, Function.update k.receives q 0⟩
  | .syscall (.pcreate _ _ _) =>
    ⟨Function.update k.sends s.nextQueue 0, Function.update k.receives s.nextQueue 0⟩
  | e => match e.target s with
    | none => k
    | some p =>
      { sends := fun q => if p ∈ s.queue (.blockedProd q) then k.sends q - 1 else k.sends q
        receives := fun q => if p ∈ s.queue (.blockedCons q) then k.receives q - 1 else k.receives q }

/-- The calls made up to a state of a run. -/
abbrev Counted (s : Kernel) (k : Calls) : Prop := Noted Boot Step Refills ⟨fun _ => 0, fun _ => 0⟩ Calls.note s k

/-- The calls account for what the queue holds. -/
def Calls.Tally (k : Calls) (s : Kernel) : Prop :=
  ∀ q m, s.msgQueue q = some m → 0 < m.size →
    k.sends q - k.receives q = m.numberOfMsgs + (s.queue (.blockedProd q)).length - (s.queue (.blockedCons q)).length

section

variable {s t : Kernel} {e : Event} {k k' : Calls} {p c : Ptr} {q : QueuePtr} {m : MsgQueue}
  {A : Nat → Option QueuePtr} {Q : QueuePtr → Option MsgQueue} {L : QueueHead → List Ptr} {g : Ptr → Process → Process}

theorem Calls.Tally.mail (hm : Mail s t A Q L g) (h : ∀ q m, Q q = some m → 0 < m.size →
    k.sends q - k.receives q = m.numberOfMsgs + (L (.blockedProd q)).length - (L (.blockedCons q)).length) :
    k.Tally t := by
  intro q m hq hpos
  rw [hm.queues] at hq
  rw [hm.lists _ (by simp [QueueHead.queue?]), hm.lists _ (by simp [QueueHead.queue?])]
  exact h q m hq hpos

/-- The step is about one queue: the others are as they were. -/
theorem Calls.Tally.update {m' : MsgQueue} {d : QueueHead} {l : List Ptr} (h : k.Tally s) (hhd : d.queue? = some q)
    (hm : Mail s t A (Function.update s.msgQueue q (some m')) (Function.update s.queue d l) g)
    (hsends : ∀ i, i ≠ q → k'.sends i = k.sends i) (hreceives : ∀ i, i ≠ q → k'.receives i = k.receives i)
    (hq : 0 < m'.size → k'.sends q - k'.receives q = m'.numberOfMsgs +
      (Function.update s.queue d l (.blockedProd q)).length - (Function.update s.queue d l (.blockedCons q)).length) :
    k'.Tally t := by
  refine .mail hm fun i w hi hpos => ?_
  by_cases hiq : i = q
  · subst hiq
    rw [Function.update_self] at hi
    cases hi
    exact hq hpos
  · rw [Function.update_of_ne hiq] at hi
    have hne : ∀ {d' : QueueHead}, d'.queue? = some i → d' ≠ d := by
      rintro d' hd' rfl
      exact hiq (Option.some.inj (hd'.symm.trans hhd))
    rw [hsends i hiq, hreceives i hiq, Function.update_of_ne (hne rfl), Function.update_of_ne (hne rfl)]
    exact h i w hi hpos

theorem length_erase_concat {l : List Ptr} {b : Ptr} : ((l ++ [b]).erase b).length = l.length := by
  rw [List.length_erase_of_mem (by simp)]
  simp

theorem length_erase_int {l : List Ptr} :
    ((l.erase p).length : Int) = if p ∈ l then (l.length : Int) - 1 else l.length := by
  split
  · next h =>
    have := List.length_pos_of_mem h
    rw [List.length_erase_of_mem h]
    omega
  · next h => rw [List.erase_of_not_mem h]

theorem Calls.Tally.send {v : Int} (h : k.Tally s) (hq : s.msgQueue q = some m) (hst : SendStep s t c q m v) :
    Calls.Tally { k with sends := bump k.sends q } t := by
  have hold := h q m hq
  have hsame : Function.update s.msgQueue q (some m) = s.msgQueue := Function.update_eq_self_iff.2 hq.symm
  have hother : ∀ i, i ≠ q → bump k.sends q i = k.sends i := fun i hi => Function.update_of_ne hi _ _
  have hself : bump k.sends q q = k.sends q + 1 := Function.update_self ..
  cases hst with
  | @handed l b hempty hl hm hgo =>
    refine h.update (d := .blockedCons q) rfl hm hother (fun _ _ => rfl) fun hpos => ?_
    have := hold hpos
    rw [hl, List.length_append] at this
    simp only [Function.update_self, length_erase_concat, hself, ne_eq, reduceCtorEq, not_false_eq_true,
      Function.update_of_ne, MsgQueue.handOver, MsgQueue.accept, MsgQueue.deliver, List.length_cons, List.length_nil] at this ⊢
    omega
  | @blocked l hnot hfull hl hm hgo =>
    rw [← hsame] at hm
    refine h.update (d := .blockedProd q) rfl hm hother (fun _ _ => rfl) fun hpos => ?_
    have := hold hpos
    have hlen := hl.length_eq
    simp only [Function.update_self, hself, ne_eq, reduceCtorEq, not_false_eq_true, Function.update_of_ne,
      List.length_cons] at hlen ⊢
    omega
  | stored hnot hfull hm hgo =>
    rw [← Function.update_eq_self (.blockedProd q) s.queue] at hm
    refine h.update (d := .blockedProd q) rfl hm hother (fun _ _ => rfl) fun hpos => ?_
    have := hold hpos
    simp only [Function.update_eq_self, hself, MsgQueue.addMessage]
    omega

theorem Calls.Tally.receive {message : UserPtr} (h : k.Tally s) (hb : Boxes s) (hq : s.msgQueue q = some m)
    (hst : ReceiveStep s t c q m message) : Calls.Tally { k with receives := bump k.receives q } t := by
  have hold := h q m hq
  have hsame : Function.update s.msgQueue q (some m) = s.msgQueue := Function.update_eq_self_iff.2 hq.symm
  have hbox := hb.box q m hq
  have hother : ∀ i, i ≠ q → bump k.receives q i = k.receives i := fun i hi => Function.update_of_ne hi _ _
  have hself : bump k.receives q q = k.receives q + 1 := Function.update_self ..
  -- no producer is blocked on an empty queue with room
  have unmet : ∀ {l b}, m.isEmpty = true → s.queue (.blockedProd q) = l ++ [b] → ¬ 0 < m.size := by
    intro l b hempty hl hpos
    have h1 := hbox.producers hpos (by simp [hl])
    have h2 : m.numberOfMsgs = 0 := by simpa [MsgQueue.isEmpty] using hempty
    omega
  -- a message leaves the ring and nothing takes its place
  have left : ∀ m' : MsgQueue, m.isEmpty = false → m'.size = m.size → m'.numberOfMsgs = m.numberOfMsgs - 1 →
      Mail s t s.allQueues (Function.update s.msgQueue q (some m')) s.queue (fun _ x => x) →
      Calls.Tally { k with receives := bump k.receives q } t := by
    intro m' hempty hsize hnum hm
    rw [← Function.update_eq_self (.blockedProd q) s.queue] at hm
    refine h.update (d := .blockedProd q) rfl hm (fun _ _ => rfl) hother fun hpos => ?_
    have := hold (hsize ▸ hpos)
    have h2 : m.numberOfMsgs ≠ 0 := by simpa [MsgQueue.isEmpty] using hempty
    simp only [Function.update_eq_self, hself, hnum]
    omega
  cases hst with
  | met _ hempty hl _ hm _ =>
    exact h.update (d := .blockedProd q) rfl hm (fun _ _ => rfl) hother fun hpos => absurd hpos (unmet hempty hl)
  | stranded _ hempty hl _ hm _ =>
    exact h.update (d := .blockedProd q) rfl hm (fun _ _ => rfl) hother fun hpos => absurd hpos (unmet hempty hl)
  | @blocked l hempty hnone hl hm hgo =>
    rw [← hsame] at hm
    refine h.update (d := .blockedCons q) rfl hm (fun _ _ => rfl) hother fun hpos => ?_
    have := hold hpos
    have hlen := hl.length_eq
    simp only [Function.update_self, hself, ne_eq, reduceCtorEq, not_false_eq_true, Function.update_of_ne,
      List.length_cons] at hlen ⊢
    omega
  | @refilled l b x _ hempty hfull hl hb hm hgo =>
    refine h.update (d := .blockedProd q) rfl hm (fun _ _ => rfl) hother fun hpos => ?_
    have := hold hpos
    have h2 : m.numberOfMsgs ≠ 0 := by simpa [MsgQueue.isEmpty] using hempty
    rw [hl, List.length_append] at this
    simp only [Function.update_self, length_erase_concat, hself, ne_eq, reduceCtorEq, not_false_eq_true,
      Function.update_of_ne, MsgQueue.addMessage, MsgQueue.popOldestMsg, MsgQueue.deliver, List.length_cons,
      List.length_nil] at this ⊢
    omega
  | popped _ hempty _ hm _ => exact left (m.popOldestMsg.deliver m.oldestMsg) hempty rfl rfl hm
  | lost _ hempty hm _ => exact left m.popOldestMsg hempty rfl rfl hm

/-- A kill that does not hit a process blocked on a message queue counts for nothing. -/
theorem Core.unlisted (hi : Core ∅ s) {x : Process} {hd : QueueHead} (hx : s.heap p = some x)
    (hstate : x.state ≠ .blockedQueue) (hhd : hd.queue? = some q) : p ∉ s.queue hd := by
  intro hmem
  obtain ⟨y, hy, hn, _⟩ := hi.live_of_mem hmem
  rw [hx] at hy
  cases hy
  exact hstate ((hi.fits p x hx (by simp)).onQueue hn hhd).2.1

/-- What is noted of a kill. -/
theorem Calls.note_target (hi : Core ∅ s) (hu : Unaimed s e) :
    (match e.target s with
    | none => k
    | some p =>
      { sends := fun q => if p ∈ s.queue (.blockedProd q) then k.sends q - 1 else k.sends q
        receives := fun q => if p ∈ s.queue (.blockedCons q) then k.receives q - 1 else k.receives q }) = k := by
  cases ht : e.target s with
  | none => rfl
  | some p =>
    have hnot : ∀ {d : QueueHead} {q}, d.queue? = some q → p ∉ s.queue d := by
      intro d q hhd hmem
      obtain ⟨x, hx, _, _⟩ := hi.live_of_mem hmem
      exact hi.unlisted hx (hu p x ht hx) hhd hmem
    simp only [hnot (d := .blockedProd _) rfl, hnot (d := .blockedCons _) rfl, if_false]

/-- An event that is not about messages is noted only if it is a call of `pcreate`. -/
theorem Calls.note_other (hi : Core ∅ s) (hon : e.onQueue s = none) (hu : Unaimed s e) (hlt : q < s.nextQueue) :
    (k.note s e).sends q = k.sends q ∧ (k.note s e).receives q = k.receives q := by
  have hk := Calls.note_target (k := k) hi hu
  unfold Calls.note
  split
  · next fid v => simp [show s.queueOf (toInt32 fid) = none from hon]
  · next fid v => simp [show s.queueOf (toInt32 fid) = none from hon]
  · next fid => simp [show s.queueOf (toInt32 fid) = none from hon]
  · simp [hlt.ne]
  · rw [hk]
    exact ⟨rfl, rfl⟩

theorem Calls.Tally.step (h : k.Tally s) (hs : Ready s) (hb : Boxes s) (hst : MailStep s t e) :
    (k.note s e).Tally t := by
  have hlt : ∀ {q m}, s.msgQueue q = some m → q < s.nextQueue := fun hq => hs.inv.queueIds _ (by simp [hq])
  cases hst with
  | other hon hu ha =>
    refine .mail (.of_apart ha) fun q m hq hpos => ?_
    obtain ⟨h1, h2⟩ := Calls.note_other (k := k) hs.inv.toCore hon hu (hlt hq)
    rw [h1, h2]
    exact h q m hq hpos
  | psend hr hfid hq hst =>
    simp only [Calls.note, hfid]
    exact h.send hq hst
  | preceive hr hfid hq hst =>
    simp only [Calls.note, hfid]
    exact h.receive hb hq hst
  | @preset fid q m hfid hq hm =>
    simp only [Calls.note, hfid]
    refine .mail hm fun i w hi hpos => ?_
    by_cases hiq : i = q
    · subst hiq
      rw [Function.update_self] at hi
      cases hi
      simp [emptied, MsgQueue.reset]
    · rw [Function.update_of_ne hiq] at hi
      dsimp only
      rw [emptied_of_ne rfl hiq, emptied_of_ne rfl hiq, Function.update_of_ne hiq, Function.update_of_ne hiq]
      exact h i w hi hpos
  | @pdelete fid q hfid hm =>
    refine .mail hm fun i w hi hpos => ?_
    by_cases hiq : i = q
    · subst hiq
      rw [Function.update_self] at hi
      cases hi
    · rw [Function.update_of_ne hiq] at hi
      rw [emptied_of_ne rfl hiq, emptied_of_ne rfl hiq]
      exact h i w hi hpos
  | pcreate hst =>
    have old : ∀ q m, s.msgQueue q = some m → 0 < m.size → _ := fun q m hq hpos => by
      have := h q m hq hpos
      rwa [← Function.update_of_ne (hlt hq).ne 0 k.sends, ← Function.update_of_ne (hlt hq).ne 0 k.receives] at this
    simp only [Calls.note]
    cases hst with
    | failed ha => exact .mail (.of_apart ha) old
    | unfilled _ _ hm => exact .mail hm old
    | created _ _ hm =>
      refine .mail hm fun i w hi hpos => ?_
      by_cases hiq : i = s.nextQueue
      · subst hiq
        rw [Function.update_self] at hi
        cases hi
        simp [emptied]
      · rw [Function.update_of_ne hiq] at hi
        rw [emptied_of_ne rfl hiq, emptied_of_ne rfl hiq]
        exact old i w hi hpos
  | @moved pid newprio p x hd l hmv =>
    refine .mail hmv.mail fun i w hi hpos => ?_
    -- the list the process is moved in keeps its length
    have hlen : ∀ d, d.queue? = some i → (Function.update s.queue hd l d).length = (s.queue d).length := by
      intro d hd'
      by_cases hdd : d = hd
      · subst hdd
        have hmem := hb.settled p x d i w ⟨hmv.record, hmv.started, hmv.blocked, hmv.head⟩ hd' hi hpos
        rw [Function.update_self, (hmv.perm.trans (List.perm_cons_erase hmem).symm).length_eq]
      · rw [Function.update_of_ne hdd]
    rw [hlen _ rfl, hlen _ rfl]
    exact h i w hi hpos
  | @killed pid c r p x hr ht hpc hk =>
    have hnote : k.note s (.syscall (.kill pid)) =
        { sends := fun q => if p ∈ s.queue (.blockedProd q) then k.sends q - 1 else k.sends q
          receives := fun q => if p ∈ s.queue (.blockedCons q) then k.receives q - 1 else k.receives q } := by
      simp only [Calls.note, ht]
    cases hk.taken with
    | semaphore hsem ha =>
      have hnot : ∀ {d : QueueHead} {q}, d.queue? = some q → p ∉ s.queue d := fun hhd =>
        hs.inv.unlisted hk.record (by simp [hsem]) hhd
      rw [hnote]
      refine .mail (.of_apart ha) fun i w hi hpos => ?_
      simp only [hnot (d := .blockedProd _) rfl, hnot (d := .blockedCons _) rfl, if_false]
      exact h i w hi hpos
    | queue _ _ hm =>
      rw [hnote]
      refine .mail hm fun i w hi hpos => ?_
      have hold := h i w hi hpos
      dsimp only
      rw [length_erase_int, length_erase_int]
      split_ifs <;> omega

theorem Counted.tally (h : Counted s k) : Ready s ∧ Boxes s ∧ k.Tally s := by
  induction h with
  | init hb =>
    refine ⟨hb.ready, hb.boxes, fun q m hq => ?_⟩
    obtain ⟨symbols, virt, idle, shell, rfl⟩ := hb.eq
    cases hq
  | step _ hc hst ih =>
    obtain ⟨hready, hboxes, htally⟩ := ih
    have hmail := hst.mail hready hc.ends
    exact ⟨hready.step hc.ends hst, hboxes.step hready hc hmail, htally.step hready hboxes hmail⟩

theorem pcount_mail {fid : Int} (hc : s.pidProcessHashTable s.currentRunningProcessPid = some c)
    (hq : s.queueOf fid = some q) : wp (pcount fid true) (fun _ t => ∃ m, s.msgQueue q = some m ∧
      GoesOn t c (.user (some ⟨0, [if s.queue (.blockedCons q) = [] then (m.numberOfMsgs : Int) +
        (s.queue (.blockedProd q)).length else -(s.queue (.blockedCons q)).length]⟩))) (fun _ => True) s := by
  rw [pcount, wp_bind, wp_validFid, hq]
  simp only [Bool.true_eq_false, if_false, wp_bind]
  refine wp_derefQueue trivial fun m hm => ?_
  rw [wp_queueEmpty]
  by_cases hnil : s.queue (.blockedCons q) = []
  · simp only [hnil, List.isEmpty_nil, Bool.true_eq_false, if_false, if_true, wp_bind, wp_get]
    exact wp_mono (answer_goesOn hc) (fun _ t _ hgo => ⟨m, hm, hgo⟩) (fun _ _ h => h)
  · simp only [hnil, List.isEmpty_eq_false_iff, ne_eq, not_false_eq_true, if_true, if_false, wp_bind, wp_get]
    exact wp_mono (answer_goesOn hc) (fun _ t _ hgo => ⟨m, hm, hgo⟩) (fun _ _ h => h)

end

/-- In every run in which a process blocked on a semaphore is killed at most at an end of its
list, and the store of no `preceive` faults while the ring is full and a producer is
blocked, `pcount` on a queue with room for a message writes the number of calls of `psend`
less the number of calls of `preceive` made on it since it was created or last reset, not
counting those whose process was killed while it was blocked. The number is negative when
receivers wait, and then it is how many do; otherwise it is how many messages are stored or
wait. -/
theorem pcount_counts_calls {s t : Kernel} {k : Calls} {fid : Int} {q : QueuePtr} {m : MsgQueue} {c : Ptr} {r : Process}
    (hs : Counted s k) (hr : Running s c r) (hst : Step s (.syscall (.pcount fid true)) t)
    (hq : s.queueOf (toInt32 fid) = some q) (hm : s.msgQueue q = some m) (hsize : 0 < m.size) :
    (t.heap c).map (·.context) = some (.user (some ⟨0, [k.sends q - k.receives q]⟩)) ∧
      (s.queue (.blockedCons q) ≠ [] → k.sends q - k.receives q = -(s.queue (.blockedCons q)).length) ∧
      (s.queue (.blockedCons q) = [] → k.sends q - k.receives q = m.numberOfMsgs + (s.queue (.blockedProd q)).length) := by
  obtain ⟨hready, hboxes, htally⟩ := hs.tally
  have hbox := hboxes.box q m hm
  have hcount := htally q m hm hsize
  have hneg : s.queue (.blockedCons q) ≠ [] → k.sends q - k.receives q = -(s.queue (.blockedCons q)).length := by
    intro hne
    have hzero := hbox.consumers hsize hne
    have hnil : s.queue (.blockedProd q) = [] := by
      by_contra hp
      have := hbox.producers hsize hp
      omega
    rw [hcount, hzero, hnil]
    simp
  have hpos : s.queue (.blockedCons q) = [] →
      k.sends q - k.receives q = m.numberOfMsgs + (s.queue (.blockedProd q)).length := by
    intro hnil
    rw [hcount, hnil]
    simp
  obtain ⟨m', hm', hgo⟩ := wp_ok (pcount_mail hr.table hq) hst.2
  obtain rfl : m = m' := Option.some.inj (hm.symm.trans hm')
  refine ⟨GoesOn.of_lives ?_ (hst.lives hready hr rfl rfl), hneg, hpos⟩
  by_cases hnil : s.queue (.blockedCons q) = []
  · rwa [if_pos hnil, ← hpos hnil] at hgo
  · rwa [if_neg hnil, ← hneg hnil] at hgo

/-- A child waits for a message, which its parent finds out. -/
theorem pcount_counts_calls_wait : ∃ s t k c r m, Counted s k ∧ Running s c r ∧ Step s (.syscall (.pcount 0 true)) t ∧
    s.queueOf 0 = some 0 ∧ s.msgQueue 0 = some m ∧ m.size = 2 ∧ s.queue (.blockedCons 0) = [2] ∧
    (t.heap c).map (·.context) = some (.user (some ⟨0, [-1]⟩)) ∧ k.sends 0 - k.receives 0 = -1 := by
  have hrun : (run boot [.timer, .syscall (.pcreate 2 true true), startShell 3, .syscall (.preceive 0 .mapped), .resume]).bind
      (fun s => (run s [.syscall (.pcount 0 true)]).map fun _ => (s.queueOf 0, (s.msgQueue 0).map (·.size),
        s.queue (.blockedCons 0))) = some (some 0, some 2, [2]) := by decide +kernel
  have hcond : ∀ u, ∀ e ∈ [.timer, .syscall (.pcreate 2 true true), startShell 3, .syscall (.preceive 0 .mapped), .resume],
      Refills u e := by
    intro u e he
    simp only [List.mem_cons, List.not_mem_nil, or_false] at he
    rcases he with rfl | rfl | rfl | rfl | rfl <;> exact .of_none rfl (by simp [startShell])
  obtain ⟨s, hs, hval⟩ := reached_of_run hcond hrun
  obtain ⟨t, ht, hval⟩ := Option.map_eq_some_iff.1 hval
  simp only [Prod.mk.injEq, Option.map_eq_some_iff] at hval
  obtain ⟨hq, ⟨m, hm, hsize⟩, hcons⟩ := hval
  have hst := run_step ht
  obtain ⟨k, hk⟩ := hs.noted ⟨fun _ => 0, fun _ => 0⟩ Calls.note
  obtain ⟨hready, -, -⟩ := Counted.tally hk
  obtain ⟨c, r, hr⟩ := hready.running_of_syscall hst
  obtain ⟨hgo, hneg, -⟩ := pcount_counts_calls hk hr hst hq hm (by omega)
  have hval := hneg (by simp [hcons])
  rw [hcons] at hval
  refine ⟨s, t, k, c, r, m, hk, hr, hst, hq, hm, hsize, hcons, ?_, by simpa using hval⟩
  rw [hgo, hval]
  rfl

/-- A child is blocked on a full queue when the store of another child faults. Its message is
received then, and a `chprio` puts it back among the blocked producers: two calls of each
kind were made, and `pcount` writes 1. -/
theorem pcount_counts_returned_call : ¬ ∀ s t k c m, Noted Boot Step (fun _ _ => True) ⟨fun _ => 0, fun _ => 0⟩ Calls.note s k →
    s.caller = some c → s.queueOf 0 = some 0 → s.msgQueue 0 = some m → 0 < m.size →
    Step s (.syscall (.pcount 0 true)) t → Answers t c 0 [k.sends 0 - k.receives 0] := by
  have hrun : (runNoted Calls.note boot ⟨fun _ => 0, fun _ => 0⟩ [.timer, .syscall (.pcreate 1 true true),
      .syscall (.psend 0 10), startShell 3, .syscall (.psend 0 20), .resume, .syscall (.chprio 3 1), startShell 3,
      .syscall (.preceive 0 .unmapped), .resume, .syscall (.preceive 0 .mapped), .syscall (.chprio 3 1)]).bind
      (fun a => (run a.1 [.syscall (.pcount 0 true)]).map fun t => (a.1.caller, a.1.queueOf 0, (a.1.msgQueue 0).map (·.size),
        a.2.sends 0 - a.2.receives 0, (t.heap 1).map (·.context))) =
      some (some 1, some 0, some 1, 0, some (.user (some ⟨0, [1]⟩))) := by decide +kernel
  obtain ⟨s, k, hs, hval⟩ := noted_of_run (C := fun _ _ => True) (fun _ _ _ => trivial) hrun
  obtain ⟨t, ht, hval⟩ := Option.map_eq_some_iff.1 hval
  simp only [Prod.mk.injEq] at hval
  obtain ⟨hcaller, hq, hm, hdiff, hans⟩ := hval
  obtain ⟨m, hm, hsize⟩ := Option.map_eq_some_iff.1 hm
  intro h
  have hcount := h s t k 1 m hs hcaller hq hm (by omega) (run_step ht)
  rw [Answers, hans, hdiff] at hcount
  cases hcount

end Xinul
