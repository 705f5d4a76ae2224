import Xinul.Runs.Deliveries

/-!
# Message queues without room

A queue made by `pcreate(0)` is empty and full at once: a message goes straight from
the process that sends it to the one that receives it. Where `preceive` takes the
message of a blocked producer it puts the producer in the activatable queue with the
state it was blocked with, and a later `chprio` puts it back among the blocked
producers. The queue is a rendez-vous as long as every such producer gets the
processor at once.
-/

namespace Xinul

open Prog Machine

/-- A producer whose message `preceive` takes gets the processor at once. -/
def MetAtOnce (s : Kernel) (e : Event) : Prop :=
  ∀ fid b p c r, e = .syscall (.preceive fid b) → s.producerMet (toInt32 fid) = some p → Running s c r →
    ∃ x, s.Hasty p x r

theorem MetAtOnce.of_other {s : Kernel} {e : Event} (h : ∀ fid b, e ≠ .syscall (.preceive fid b)) : MetAtOnce s e :=
  fun fid b _ _ _ he => absurd he (h fid b)

/-- The condition on the steps. -/
def Meets (s : Kernel) (e : Event) : Prop := Delivers s e ∧ MetAtOnce s e

/-- The runs that meet it, with the calls noted. -/
abbrev Paired (s : Kernel) (n : Ptr → Option Posting) : Prop :=
  Noted Boot Step Meets (fun _ => none) Posting.note s n

section

variable {s t : Kernel} {e : Event} {p c : Ptr} {x y r : Process} {q : QueuePtr} {m : MsgQueue} {P P' : Posting}
  {n : Ptr → Option Posting} {fid v : Int} {b : UserPtr}
  {A : Nat → Option QueuePtr} {Q : QueuePtr → Option MsgQueue} {L : QueueHead → List Ptr} {g : Ptr → Process → Process}

/-! ## The producer that is met -/

/-- The process that has the pid of the running one is the running one. -/
theorem Ready.running_of_pid (hs : Ready s) (hp : s.heap p = some x) (hpid : s.currentRunningProcessPid = x.pid) :
    Running s p x := by
  have hused := (hs.inv.pool.used p x hp).1
  obtain ⟨c, r, hr⟩ := hs.stage.resolve_left fun hb => by
    have := hb.running
    omega
  have htable := hs.inv.pidOf p x hp
  rw [← hpid] at htable
  obtain rfl : c = p := Option.some.inj (hr.table.symm.trans htable)
  obtain rfl : r = x := Option.some.inj (hr.heap.symm.trans hp)
  exact hr

theorem Step.met_runs (h : Step s (.syscall (.preceive fid b)) t) (hs : Ready s) (hk : MetAtOnce s (.syscall (.preceive fid b)))
    (hmet : s.producerMet (toInt32 fid) = some p) (hmap : b ≠ .unmapped) : ∃ y, Running t p y := by
  obtain ⟨c, r, hr⟩ := hs.running_of_syscall h
  obtain ⟨x, hhasty⟩ := hk fid b p c r rfl hmet hr
  have hx := hhasty.1
  have he := h.1
  simp only [Event.enabled, Bool.and_eq_true, decide_eq_true_eq] at he
  have hu := hs.user hr he.2
  have m : Mid Kind.any.still.quiet s ∅ s c r := hr.mid hs.inv (fun _ _ _ _ _ => trivial) trivial
  have done : wp (preceiveWith (throw .hang) (toInt32 fid) b) (fun _ t => Done Kind.any.still s t ∧
      (b ≠ .unmapped → ∀ p x, s.producerMet (toInt32 fid) = some p → s.Hasty p x r →
        t.currentRunningProcessPid = x.pid)) Kind.any.still.Allows s :=
    preceiveWith_done m trivial hu (fun _ _ _ => trivial) (fun _ hd hnext => ⟨hd, hnext⟩) fun _ _ _ => trivial
  have hf : s.storeFaults (toInt32 fid) b = false := by simp [Kernel.storeFaults, hmap]
  have hrun := h.stored hf (throw .hang)
  obtain ⟨hdone, hnext⟩ := wp_ok done hrun
  -- a process in the list of a queue is alive
  obtain ⟨q, hq, w, hw, hlast⟩ : ∃ q, s.queueOf (toInt32 fid) = some q ∧ ∃ w, s.msgQueue q = some w ∧
      (if w.isEmpty then (s.queue (.blockedProd q)).getLast? else none) = some p := by
    simpa [Kernel.producerMet, Option.bind_eq_some_iff] using hmet
  have hmem : p ∈ s.queue (.blockedProd q) := by
    split at hlast
    · exact List.mem_of_getLast? hlast
    · cases hlast
  have hb := hs.inv.toCore.blockedIn rfl hx hmem
  obtain ⟨y, hy, -⟩ := hdone.chain.lives id ⟨x, hx, hb.started, by rw [hb.state]; rfl⟩
  have hready := hs.step (.of_none rfl) h
  exact ⟨y, hready.running_of_pid hy ((hnext hmap p x hmet hhasty).trans (hdone.chain.pid hs.inv hx hy).symm)⟩

/-- A store to a page that is not mapped would fault where a producer is met. -/
theorem Delivers.mapped_of_met (hk : Delivers s (.syscall (.preceive fid b))) (hmet : s.producerMet (toInt32 fid) = some p) :
    b ≠ .unmapped := by
  rintro rfl
  have hf := hk.stores
  obtain ⟨q, hq, w, hw, hlast⟩ : ∃ q, s.queueOf (toInt32 fid) = some q ∧ ∃ w, s.msgQueue q = some w ∧
      (if w.isEmpty then (s.queue (.blockedProd q)).getLast? else none) = some p := by
    simpa [Kernel.producerMet, Option.bind_eq_some_iff] using hmet
  split at hlast
  · simp [Event.storeFaults, Kernel.storeFaults, hq, hw, List.ne_nil_of_mem (List.mem_of_getLast? hlast)] at hf
  · cases hlast

theorem Paired.posts (h : Paired s n) : Ready s ∧ Boxes s ∧ Posts True s n := by
  refine Noted.posts (fun _ _ hk => hk.1.refills) (fun _ s t fid b p y hs hk hst hmet hy => ?_) h
  obtain ⟨z, hz⟩ := hst.met_runs hs hk.2 hmet (hk.1.mapped_of_met hmet)
  obtain rfl : y = z := Option.some.inj (hy.symm.trans hz.heap)
  rw [hz.state]
  simp

/-! ## Producers whose message was taken -/

/-- What a call was noted to have sent was sent before, or is accepted now. -/
theorem Posting.note_taken (h : Posting.note s e n p = some P') (hne : P'.taken ≠ []) :
    ((∀ P, e.posts s ≠ some (p, P)) ∧ ∃ P, n p = some P ∧ P.Alike P' ∧ P.taken ≠ []) ∨
      ∃ v, e.accepts s = some (p, v) := by
  obtain ⟨P, ha, hP, ht | ht⟩ := Posting.note_source h
  · rw [ht] at hne
    rcases hP with ⟨hP, hno⟩ | hP
    · exact .inl ⟨hno, P, hP, ha, hne⟩
    · obtain ⟨m, -, -, hnil⟩ := Event.posts_queue hP
      exact absurd hnil hne
  · exact .inr ht

/-- A process in `psend` was in it before the step, or its call begins. -/
theorem Mail.psend_before (h : Mail s t A Q L g) (hg : ∀ x, (g p x).context = .psend → x.context = .psend)
    (hst : ∀ x, (g p x).started = x.started) (hy : t.heap p = some y) (hys : y.started = true)
    (hctx : y.context = .psend) : ∃ x, s.heap p = some x ∧ x.started = true ∧ x.context = .psend := by
  obtain ⟨x, hx, hxy⟩ := h.records p y hy ⟨hys, .inl ⟨trivial, .inr (by rw [hctx]; rfl)⟩⟩
  refine ⟨x, hx, (hst x).symm.trans hxy.started, hg x ?_⟩
  rw [hxy.mailing trivial (by rw [hctx]; rfl), hctx]

theorem writing_started {a : Ptr} {f : Process → Process} (hf : ∀ x, (f x).started = x.started) :
    (writing a f p x).started = x.started := by
  unfold writing
  split
  · exact hf x
  · rfl

theorem writing_context {a : Ptr} {f : Process → Process} (hf : ∀ x, (f x).context = x.context) :
    (writing a f p x).context = x.context := by
  unfold writing
  split
  · exact hf x
  · rfl

theorem flushing_context {l : List Ptr} : (flushing l p x).context = x.context := by
  unfold flushing
  split <;> rfl

theorem flushing_started {l : List Ptr} : (flushing l p x).started = x.started := by
  unfold flushing
  split <;> rfl

theorem MailStep.psend_before (h : MailStep s t e) (hno : ∀ P, e.posts s ≠ some (p, P)) (hy : t.heap p = some y)
    (hys : y.started = true) (hctx : y.context = .psend) :
    ∃ x, s.heap p = some x ∧ x.started = true ∧ x.context = .psend := by
  have same : ∀ {A Q L}, Mail s t A Q L (fun _ x => x) → ∃ x, s.heap p = some x ∧ x.started = true ∧ x.context = .psend :=
    fun hm => hm.psend_before (fun _ h => h) (fun _ => rfl) hy hys hctx
  have written : ∀ {A Q L a f}, Mail s t A Q L (writing a f) → (∀ x, (f x).started = x.started) →
      (∀ x, (f x).context = x.context) → ∃ x, s.heap p = some x ∧ x.started = true ∧ x.context = .psend :=
    fun hm h1 h2 => hm.psend_before (fun _ h => (writing_context h2).symm.trans h) (fun _ => writing_started h1) hy hys hctx
  have flushed : ∀ {A Q L l}, Mail s t A Q L (flushing l) → ∃ x, s.heap p = some x ∧ x.started = true ∧ x.context = .psend :=
    fun hm => hm.psend_before (fun _ h => flushing_context.symm.trans h) (fun _ => flushing_started) hy hys hctx
  cases h with
  | other _ _ ha => exact same (.of_apart ha)
  | @psend fid v c r q m hr hfid hq hst =>
    have hpc : p ≠ c := by
      rintro rfl
      exact hno _ (Event.posts_send hfid hq hr)
    cases hst with
    | handed _ _ hm _ => exact written hm (fun _ => rfl) (fun _ => rfl)
    | blocked _ _ _ hm _ =>
      refine hm.psend_before (fun x h => ?_) (fun x => writing_started fun _ => rfl) hy hys hctx
      rwa [writing, if_neg hpc] at h
    | stored _ _ hm _ => exact same hm
  | @preceive fid b c r q m hr hfid hq hst =>
    have hpc : p ≠ c := by
      rintro rfl
      exact hno _ (Event.posts_receive hfid hq hr)
    cases hst with
    | met _ _ _ _ hm _ => exact written hm (fun _ => rfl) (fun _ => rfl)
    | blocked _ _ _ hm _ =>
      refine hm.psend_before (fun x h => ?_) (fun x => writing_started fun _ => rfl) hy hys hctx
      rwa [writing, if_neg hpc] at h
    | refilled _ _ _ _ _ hm _ => exact written hm (fun _ => rfl) (fun _ => rfl)
    | popped _ _ _ hm _ => exact same hm
    | lost _ _ hm _ => exact same hm
    | stranded _ _ _ _ hm _ => exact written hm (fun _ => rfl) (fun _ => rfl)
  | preset _ _ hm => exact flushed hm
  | pdelete _ hm => exact flushed hm
  | pcreate hst =>
    cases hst with
    | failed ha => exact same (.of_apart ha)
    | unfilled _ _ hm => exact same hm
    | created _ _ hm => exact same hm
  | moved hmv => exact same hmv.mail
  | killed _ _ _ hk =>
    cases hk.taken with
    | semaphore _ ha => exact same (.of_apart ha)
    | queue _ _ hm => exact same hm

/-- A process in `psend` for a queue without room runs once its message was taken. -/
def Prompt (s : Kernel) (n : Ptr → Option Posting) : Prop :=
  ∀ p x P, s.heap p = some x → x.started = true → x.state.dead = false → x.context = .psend → n p = some P →
    P.size = 0 → P.taken ≠ [] → Running s p x

/-- A process that is in `psend` goes on before anything else happens, and then is not in it. -/
theorem Step.psend_over (h : Step s e t) (hr : Running s p x) (hctx : x.context = .psend) (hy : t.heap p = some y) :
    y.context ≠ .psend := by
  have hmode : s.inUserMode = false := by simp [Kernel.inUserMode, hr.current, hctx]
  have hstore : s.storesRetval = false := by simp [Kernel.storesRetval, hr.current, hctx]
  have he := h.1
  obtain rfl : e = .resume := by
    cases e <;> simp [Event.enabled, hmode, hstore] at he ⊢
  have hres : wp resume (fun _ t => GoesOn t p (.user (some ⟨if x.message.status = .sent then 0 else -1, []⟩)))
      (fun _ => True) s := by
    simp only [resume, wp_bind, wp_getCurrentProcess, hr.table, wp_derefOpt hr.heap, hctx]
    exact psendResume_mail hr.table hr.heap
  rw [wp_ok hres h.2 y hy]
  simp

theorem Prompt.step (h : Prompt s n) (hs : Ready s) (hbox : Boxes s) (hposts : Posts True s n) (hk : Meets s e)
    (hst : Step s e t) : Prompt t (Posting.note s e n) := by
  intro p y P' hy hys hyd hctx hP' hsize hne
  have hmail := hst.mail hs hk.1.ends
  have hended := fun p => (hst.outcome hs (admits_any hk.1.ends) False.elim (G := False) False.elim).after.chain.ended (p := p)
  -- a process in `psend` is alive, and was if it was in it before
  have before : (∀ P, e.posts s ≠ some (p, P)) → ∃ x, s.heap p = some x ∧ x.started = true ∧ x.state.dead = false ∧
      x.context = .psend := by
    intro hno
    obtain ⟨x, hx, hxs, hxc⟩ := hmail.psend_before hno hy hys hctx
    refine ⟨x, hx, hxs, ?_, hxc⟩
    cases hxd : x.state.dead with
    | false => rfl
    | true =>
      have hend : Ended s p := ⟨hs.inv.fresh p x hx, fun z hz => by
        obtain rfl : x = z := Option.some.inj (hx.symm.trans hz)
        exact ⟨hxs, hxd⟩⟩
      rw [((hended p hend).2 y hy).2] at hyd
      cases hyd
  rcases Posting.note_taken hP' hne with ⟨hno, P, hP, ha, hPne⟩ | ⟨v, hacc⟩
  · obtain ⟨x, hx, hxs, hxd, hxc⟩ := before hno
    have hr := h p x P hx hxs hxd hxc hP (ha.2.symm.trans hsize) hPne
    exact absurd hctx (hst.psend_over hr hxc hy)
  · cases hmail with
    | other hon _ _ =>
      rw [(Event.quiet_of_other hon).2.1] at hacc
      cases hacc
    | @psend fid v' c r q m hr hfid hq hsend =>
      rw [Event.accepts_send hfid hq hr] at hacc
      split at hacc
      · cases hacc
      · next hnot =>
        cases hacc
        cases hsend with
        | handed _ _ _ hgo => exact absurd hctx (by rw [hgo y hy]; simp)
        | blocked hnobody hfull _ _ _ => exact absurd ⟨hfull, hnobody⟩ hnot
        | stored _ _ _ hgo => exact absurd hctx (by rw [hgo y hy]; simp)
    | @preceive fid b c r q m hr hfid hq hrec =>
      have hfront : s.frontProducer q = some (p, v) := by
        rw [Event.accepts_receive hfid hq] at hacc
        split at hacc
        · exact hacc
        · cases hacc
      obtain ⟨a, hlast, z, hz, hav⟩ : ∃ a, (s.queue (.blockedProd q)).getLast? = some a ∧ ∃ z, s.heap a = some z ∧
          (a, z.message.value) = (p, v) := by
        simpa [Kernel.frontProducer, Option.bind_eq_some_iff] using hfront
      cases hav
      have hmem := List.mem_of_getLast? hlast
      have hpc : p ≠ c := by
        rintro rfl
        exact hs.inv.not_mem_of_unlinked hr.heap (hr.unlinked hs.inv.toCore (by simp)) (.blockedProd q) hmem
      obtain ⟨x, hx, hxs, hxd, hxc⟩ := before fun P hP => by
        rw [Event.posts_receive hfid hq hr] at hP
        cases hP
        exact hpc rfl
      obtain rfl : x = z := Option.some.inj (hx.symm.trans hz)
      -- the queue it sends to has no room either
      obtain ⟨P, hP, hsends⟩ := hposts.sends p x hx hxs hxd hxc
      have hPq := (hsends.listed (hs.inv.toCore.blockedIn rfl hx hmem)).1
      have hPsize : P.size = 0 := by
        obtain ⟨P₀, ha, ⟨hP₀, -⟩ | hP₀, -⟩ := Posting.note_source hP'
        · obtain rfl : P = P₀ := Option.some.inj (hP.symm.trans hP₀)
          exact ha.2.symm.trans hsize
        · rw [Event.posts_receive hfid hq hr] at hP₀
          cases hP₀
          exact absurd rfl hpc
      have hempty : m.isEmpty = true := by
        have h1 := (hbox.box q m hq).bounded.room
        have h2 := hposts.size p P m hP (hPq ▸ hq)
        simp only [MsgQueue.isEmpty, decide_eq_true_eq]
        omega
      have hmet : s.producerMet (toInt32 fid) = some p := by simp [Kernel.producerMet, hfid, hq, hempty, hlast]
      obtain ⟨z, hz⟩ := hst.met_runs hs hk.2 hmet (hk.1.mapped_of_met hmet)
      obtain rfl : y = z := Option.some.inj (hy.symm.trans hz.heap)
      exact hz
    | _ => cases hacc

theorem Paired.prompt (h : Paired s n) : Prompt s n := by
  induction h with
  | init hb =>
    intro p x P _ _ _ _ hP
    cases hP
  | step hs hc hst ih =>
    obtain ⟨hready, hboxes, hposts⟩ := Paired.posts hs
    exact ih.step hready hboxes hposts hc hst

/-- What a queue without room accepts in a step is what is handed over in it. -/
theorem MailStep.accepts_hands (h : MailStep s t e) (hbox : Boxes s) (hk : Delivers s e) (hon : e.onQueue s = some q)
    (hq : s.msgQueue q = some m) (hsize : m.size = 0) : (e.accepts s).map (·.2) = (e.hands s).map (·.2) := by
  have hnum : m.numberOfMsgs = 0 := by
    have := (hbox.box q m hq).bounded.room
    omega
  have hempty : m.isEmpty = true := by simp [MsgQueue.isEmpty, hnum]
  have hfull : m.isFull = true := by simp [MsgQueue.isFull, hnum, hsize]
  cases h with
  | other hnone => exact absurd (hnone.symm.trans hon) fun h => by cases h
  | @psend fid v c r k m' hr hfid _ hst =>
    obtain rfl : q = k := Option.some.inj (hon.symm.trans hfid)
    rw [Event.accepts_send hfid hq hr, Event.hands_send hfid hq, if_pos hempty]
    rcases List.eq_nil_or_concat (s.queue (.blockedCons q)) with hnil | ⟨l, a, hl⟩
    · simp [hnil, hfull]
    · simp [hl, hempty]
  | @preceive fid b c r k m' hr hfid _ hst =>
    obtain rfl : q = k := Option.some.inj (hon.symm.trans hfid)
    rw [Event.accepts_receive hfid hq, Event.hands_receive hfid hq hr, if_pos (.inl hempty), if_pos hempty]
    split
    · next hb =>
      have hf := hk.stores
      have hnil : s.queue (.blockedProd q) = [] := by
        simpa [Event.storeFaults, Kernel.storeFaults, hb, hfid, hq, hempty] using hf
      simp [Kernel.frontProducer_nil hnil]
    · rw [Option.map_map]
      rfl
  | _ => rfl

end

/-- In every run in which a process blocked on a semaphore is killed at most at an end of its
list, the store of no `preceive` faults and every producer that `preceive` takes a message
of gets the processor at once, a queue without room is a rendez-vous. What it accepted it
delivered, and it accepts a message in the step in which it hands it over. A producer whose
message was taken sent it once, is not among the blocked producers, and is activatable
while it waits for the processor. `psend` returns 0 if its message was taken, once, and
`preceive` returns 0 if it was handed one message, which it stores. -/
theorem rendezvous_pairs {s : Kernel} {n : Ptr → Option Posting} (hs : Paired s n) :
    (∀ q m, s.msgQueue q = some m → m.size = 0 → m.accepted = m.delivered) ∧
    (∀ p x P, s.heap p = some x → x.started = true → x.state.dead = false → x.context = .psend → n p = some P →
      P.size = 0 → P.taken ≠ [] → P.taken = [P.message] ∧ p ∉ s.queue (.blockedProd P.queue) ∧
        (p ∈ s.queue .activatable → x.state = .activatable)) ∧
    ∀ e t c r, Meets s e → Step s e t → Running s c r →
      (∀ q m, e.onQueue s = some q → s.msgQueue q = some m → m.size = 0 →
        (e.accepts s).map (·.2) = (e.hands s).map (·.2)) ∧
      (∀ fid v q, e = .syscall (.psend fid v) → s.queueOf (toInt32 fid) = some q →
        ∃ P, Posting.note s e n c = some P ∧ P.queue = q ∧ P.message = toInt32 v ∧
          (P.taken = [P.message] ∧ Answers t c 0 [] ∨ P.taken = [] ∧ (t.heap c).map (·.context) = some .psend)) ∧
      (e = .resume → r.context = .psend → ∃ P, n c = some P ∧
        (P.taken = [P.message] ∧ Answers t c 0 [] ∨ P.taken = [] ∧ P.aborted = true ∧ Answers t c (-1) [])) ∧
      (∀ fid b q, e = .syscall (.preceive fid b) → s.queueOf (toInt32 fid) = some q →
        ∃ P, Posting.note s e n c = some P ∧ P.queue = q ∧ ((∃ v, P.got = [v] ∧ Answers t c 0 (if b = .mapped then [v] else [])) ∨
          P.got = [] ∧ (t.heap c).map (·.context) = some (.preceive b))) ∧
      ∀ b, e = .resume → r.context = .preceive b → ∃ P, n c = some P ∧
        ((∃ v, P.got = [v] ∧ Answers t c 0 (if b = .mapped then [v] else [])) ∨ P.got = [] ∧ P.aborted = true ∧ Answers t c (-1) []) := by
  obtain ⟨hready, hboxes, hposts⟩ := Paired.posts hs
  refine ⟨fun q m hq hsize => ?_, fun p x P hx hst hd hctx hP hsize hne => ?_, fun e t c r hk hst hr => ?_⟩
  · have hempty : m.isEmpty = true := by
      have := (hboxes.box q m hq).bounded.room
      simp only [MsgQueue.isEmpty, decide_eq_true_eq]
      omega
    have horder := Reached.inOrder (hs.reach.mono fun _ _ hk => hk.1) q m hq
    rwa [MsgQueue.Fifo, MsgQueue.contents_of_empty hempty, List.append_nil] at horder
  · have hr := Paired.prompt hs p x P hx hst hd hctx hP hsize hne
    have hnot := hready.inv.not_mem_of_unlinked hr.heap (hr.unlinked hready.inv.toCore (by simp))
    obtain ⟨P', hP', hsends⟩ := hposts.sends p x hx hst hd hctx
    obtain rfl : P = P' := Option.some.inj (hP.symm.trans hP')
    obtain ⟨-, -, h | h⟩ := hsends.ends (fun ho => hne ho.1) (.inr trivial)
    · exact ⟨h.1, hnot _, fun hmem => absurd hmem (hnot _)⟩
    · exact absurd h.1 hne
  · have h := hposts.answered hready hr hst
    refine ⟨fun q m hon hq hsize => (hst.mail hready hk.1.ends).accepts_hands hboxes hk.1 hon hq hsize, fun fid v q he hq => ?_,
      fun he hctx => ?_, fun fid b q he hq => ?_, fun b he hctx => ?_⟩
    · obtain ⟨hnone, -⟩ | ⟨P, hP, hPq, hmsg, -, hans⟩ := h.send fid v he
      · rw [hq] at hnone
        cases hnone
      · exact ⟨P, hP, Option.some.inj (hPq.symm.trans hq), hmsg, hans⟩
    · obtain ⟨P, hP, hends⟩ := h.sent he hctx
      obtain ⟨h1, -, h2⟩ | h2 := hends (.inr trivial)
      · exact ⟨P, hP, .inl ⟨h1, h2⟩⟩
      · exact ⟨P, hP, .inr h2⟩
    · obtain ⟨hnone, -⟩ | ⟨P, hP, hPq, -, hans⟩ := h.receive fid b he hk.1.stores
      · rw [hq] at hnone
        cases hnone
      · exact ⟨P, hP, Option.some.inj (hPq.symm.trans hq), hans⟩
    · obtain ⟨P, hP, hends⟩ := h.received b he hctx hk.1.stores
      obtain ⟨v, h1, -, h2⟩ | h2 := hends (.inr trivial)
      · exact ⟨P, hP, .inl ⟨v, h1, h2⟩⟩
      · exact ⟨P, hP, .inr h2⟩

/-- The events of a run in which a child of priority 3 blocks sending 5. -/
def sendFive : List Event :=
  [.timer, .syscall (.pcreate 0 true true), startShell 3, .syscall (.psend 0 5), .resume]

/-- The event calls `preceive`. -/
def Event.isReceive : Event → Bool
  | .syscall (.preceive _ _) => true
  | _ => false

theorem Meets.of_harmless {s : Kernel} {e : Event} (h : (e.harmless s && !e.isReceive) = true) : Meets s e := by
  rw [Bool.and_eq_true, Bool.not_eq_true'] at h
  refine ⟨.of_harmless h.1, .of_other ?_⟩
  rintro fid b rfl
  cases h.2

/-- Its parent, which it outranks, takes the message. -/
theorem rendezvous_pairs_five : ∃ s t n P, Paired s n ∧ Step s (.syscall (.preceive 0 .mapped)) t ∧
    Paired t (Posting.note s (.syscall (.preceive 0 .mapped)) n) ∧
    Posting.note s (.syscall (.preceive 0 .mapped)) n 2 = some P ∧ P.taken = [5] ∧ 2 ∉ t.queue (.blockedProd P.queue) := by
  have hrun : (runChecked (fun s e => e.harmless s && !e.isReceive) Posting.note boot (fun _ => none) sendFive).bind (fun a =>
      (run a.1 [.syscall (.preceive 0 .mapped)]).map fun t => ([a.1.queue .asleep, a.1.queue .activatable],
        [a.1.caller, a.1.producerMet 0, (a.1.heap 0).map (·.prio), (a.1.heap 1).map (·.prio), (a.1.heap 2).map (·.prio)],
        (Posting.note a.1 (.syscall (.preceive 0 .mapped)) a.2 2).map fun P => (P, (t.heap 2).map (·.context)))) =
      some ([[], [0]], [some 1, some 2, some 1, some 2, some 3], some (⟨0, 0, 5, [5], [], false⟩, some .psend)) := by
    decide +kernel
  obtain ⟨s, n, hs, hval⟩ := noted_of_runChecked (fun _ _ _ _ _ => Meets.of_harmless) hrun
  obtain ⟨t, ht, hval⟩ := Option.map_eq_some_iff.1 hval
  simp only [Prod.mk.injEq, List.cons.injEq, and_true] at hval
  obtain ⟨⟨hasleep, hactivatable⟩, ⟨hcaller, hmet, hidle, hparent, hchild⟩, hnote⟩ := hval
  obtain ⟨P, hP, hnote⟩ := Option.map_eq_some_iff.1 hnote
  obtain ⟨rfl, hctx⟩ := Prod.mk.inj hnote
  have hst := run_step ht
  have hready := (Paired.posts hs).1
  -- the child outranks its parent and the idle process, and nobody sleeps
  have hmeets : Meets s (.syscall (.preceive 0 .mapped)) := by
    refine ⟨.of_harmless rfl, ?_⟩
    rintro fid b p c r he hp hr
    cases he
    obtain rfl : p = 2 := Option.some.inj (hp.symm.trans hmet)
    obtain rfl : c = 1 := Option.some.inj (hr.table.symm.trans hcaller)
    obtain ⟨x, hx, hxp⟩ : ∃ x, s.heap 2 = some x ∧ x.prio = 3 := by simpa using hchild
    refine ⟨x, hx, fun q hq y hy => ?_, ?_, fun q y hy hn => ?_⟩
    · rw [hactivatable, List.mem_singleton] at hq
      subst hq
      have hyp : y.prio = 1 := by simpa [hy] using hidle
      omega
    · have hrp : r.prio = 2 := by simpa [hr.heap] using hparent
      omega
    · have := (hready.inv.mem .asleep q).2 ⟨y, hy, hn⟩
      rw [hasleep] at this
      cases this
  have hpaired := hs.step hmeets hst
  obtain ⟨y, hr⟩ := hst.met_runs hready hmeets.2 hmet (by simp)
  have hyc : y.context = .psend := by simpa [hr.heap] using hctx
  have hpairs := (rendezvous_pairs hpaired).2.1 2 y _ hr.heap hr.started hr.alive hyc hP rfl (by simp)
  exact ⟨s, t, n, _, hs, hst, hpaired, hP, rfl, hpairs.2.1⟩

/-- Its parent, which outranks it by then, takes the message, changes its priority, and
takes the message a second time. -/
theorem rendezvous_missed : ∃ s t n P m, Posted s n ∧ s.msgQueue 0 = some m ∧ m.size = 0 ∧ m.delivered = [5] ∧
    n 2 = some P ∧ P.message = 5 ∧ P.taken = [5] ∧ (s.heap 2).map (·.context) = some .psend ∧
    2 ∈ s.queue (.blockedProd 0) ∧ Step s (.syscall (.preceive 0 .mapped)) t ∧
    (t.msgQueue 0).map (·.delivered) = some [5, 5] ∧ 2 ∈ t.queue .activatable ∧
    (t.heap 2).map (·.state) = some .blockedQueue := by
  have hrun : (runNoted Posting.note boot (fun _ => none) (sendFive ++ [.syscall (.chprio 2 4), .syscall (.preceive 0 .mapped),
      .syscall (.chprio 3 2)])).bind (fun a => (run a.1 [.syscall (.preceive 0 .mapped)]).bind fun t =>
        if (a.1.msgQueue 0).map (fun m => (m.size, m.delivered)) = some (0, [5]) ∧ a.2 2 = some ⟨0, 0, 5, [5], [], false⟩ ∧
          (a.1.heap 2).map (·.context) = some .psend ∧ a.1.queue (.blockedProd 0) = [2] ∧
          (t.msgQueue 0).map (·.delivered) = some [5, 5] ∧ t.queue .activatable = [0, 2] ∧
          (t.heap 2).map (·.state) = some .blockedQueue then some () else none) = some () := by decide +kernel
  have hcond : ∀ u, ∀ e ∈ sendFive ++ [.syscall (.chprio 2 4), .syscall (.preceive 0 .mapped), .syscall (.chprio 3 2)],
      Refills u e := by
    intro u e he
    simp only [sendFive, List.cons_append, List.nil_append, List.mem_cons, List.not_mem_nil, or_false] at he
    rcases he with rfl | rfl | rfl | rfl | rfl | rfl | rfl | rfl <;> exact .of_none rfl (by simp [startShell])
  obtain ⟨s, n, hs, hval⟩ := noted_of_run hcond hrun
  obtain ⟨t, ht, hval⟩ := Option.bind_eq_some_iff.1 hval
  split at hval
  · next h =>
    obtain ⟨hm, hn, hctx, hprod, hdel, hact, hstate⟩ := h
    obtain ⟨m, hm, hmv⟩ := Option.map_eq_some_iff.1 hm
    obtain ⟨hsize, hdelivered⟩ := Prod.mk.inj hmv
    exact ⟨s, t, n, _, m, hs, hm, hsize, hdelivered, hn, rfl, rfl, hctx, by rw [hprod]; simp, run_step ht, hdel,
      by rw [hact]; simp, hstate⟩
  · cases hval

end Xinul
