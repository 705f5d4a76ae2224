import Xinul.Runs.Mailboxes

/-!
# The calls of `psend` and `preceive`

A call that blocks learns its outcome from two fields of its record, written by the
process that ends its wait and read when the call goes on. The calls are noted along
the run with what happened to their messages, and the fields are shown to agree with
the notes.
-/

namespace Xinul

open Prog Machine

/-! ## Notes about the calls -/

/-- A call of `psend` or `preceive`: the queue it was made for and its capacity, the
message to send, the messages the queue accepted for it, the messages it was handed,
and whether the queue was reset or deleted while it was blocked. -/
structure Posting where
  queue : QueuePtr
  size : Nat
  message : Int
  taken : List Int
  got : List Int
  aborted : Bool
  deriving DecidableEq

/-- The call the event begins. -/
def Event.posts (s : Kernel) : Event → Option (Ptr × Posting)
  | .syscall (.psend fid v) => do
    let q ← s.queueOf (toInt32 fid)
    let m ← s.msgQueue q
    let c ← s.caller
    pure (c, ⟨q, m.size, toInt32 v, [], [], false⟩)
  | .syscall (.preceive fid _) => do
    let q ← s.queueOf (toInt32 fid)
    let m ← s.msgQueue q
    let c ← s.caller
    pure (c, ⟨q, m.size, 0, [], [], false⟩)
  | _ => none

/-- The message the queue accepts in the event, and the process that sends it. -/
def Event.accepts (s : Kernel) : Event → Option (Ptr × Int)
  | .syscall (.psend fid v) => do
    let q ← s.queueOf (toInt32 fid)
    let m ← s.msgQueue q
    let c ← s.caller
    if m.isFull = true ∧ ¬ (m.isEmpty = true ∧ s.queue (.blockedCons q) ≠ []) then none else pure (c, toInt32 v)
  | .syscall (.preceive fid message) => do
    let q ← s.queueOf (toInt32 fid)
    let m ← s.msgQueue q
    -- a store that faults comes before the ring is filled again
    if m.isEmpty = true ∨ m.isFull = true ∧ message ≠ .unmapped then
      let b ← (s.queue (.blockedProd q)).getLast?
      let x ← s.heap b
      pure (b, x.message.value)
    else none
  | _ => none

/-- The message that is handed to a process in the event. -/
def Event.hands (s : Kernel) : Event → Option (Ptr × Int)
  | .syscall (.psend fid v) => do
    let q ← s.queueOf (toInt32 fid)
    let m ← s.msgQueue q
    if m.isEmpty = true then
      let b ← (s.queue (.blockedCons q)).getLast?
      pure (b, toInt32 v)
    else none
  | .syscall (.preceive fid message) => do
    let q ← s.queueOf (toInt32 fid)
    let m ← s.msgQueue q
    let c ← s.caller
    if message = .unmapped then none
    else if m.isEmpty = true then
      let b ← (s.queue (.blockedProd q)).getLast?
      let x ← s.heap b
      pure (c, x.message.value)
    else pure (c, m.oldestMsg)
  | _ => none

/-- The queue whose lists the event empties. -/
def Event.clears (s : Kernel) : Event → Option QueuePtr
  | .syscall (.preset fid) => s.queueOf (toInt32 fid)
  | .syscall (.pdelete fid) => s.queueOf (toInt32 fid)
  | _ => none

/-- The notes with the one about `p` edited. -/
def edit (n : Ptr → Option Posting) (p : Ptr) (f : Posting → Posting) : Ptr → Option Posting :=
  Function.update n p ((n p).map f)

/-- The notes with the call the event begins. -/
def Posting.begin (s : Kernel) (e : Event) (n : Ptr → Option Posting) : Ptr → Option Posting :=
  match e.posts s with
  | some (c, P) => Function.update n c (some P)
  | none => n

/-- The notes with the message the queue accepts. -/
def Posting.accept (s : Kernel) (e : Event) (n : Ptr → Option Posting) : Ptr → Option Posting :=
  match e.accepts s with
  | some (p, v) => edit n p fun P => { P with taken := P.taken ++ [v] }
  | none => n

/-- The notes with the message that is handed over. -/
def Posting.hand (s : Kernel) (e : Event) (n : Ptr → Option Posting) : Ptr → Option Posting :=
  match e.hands s with
  | some (p, v) => edit n p fun P => { P with got := P.got ++ [v] }
  | none => n

/-- The notes with the calls that are aborted. -/
def Posting.clear (s : Kernel) (e : Event) (n : Ptr → Option Posting) : Ptr → Option Posting :=
  match e.clears s with
  | some q => fun p => if p ∈ s.queue (.blockedCons q) ++ s.queue (.blockedProd q)
    then (n p).map fun P => { P with aborted := true } else n p
  | none => n

/-- The latest call of each process, with what happened to it in the event. -/
def Posting.note (s : Kernel) (e : Event) (n : Ptr → Option Posting) : Ptr → Option Posting :=
  Posting.clear s e (Posting.hand s e (Posting.accept s e (Posting.begin s e n)))

/-- A run with its calls noted. -/
abbrev Posted (s : Kernel) (n : Ptr → Option Posting) : Prop := Noted Boot Step Refills (fun _ => none) Posting.note s n

/-! ## The fields agree with the notes -/

/-- Nothing has happened to the call yet. -/
def Posting.Open (P : Posting) : Prop := P.taken = [] ∧ P.got = [] ∧ P.aborted = false

/-- What the record `x` of a process in `psend` tells, if its queue has room for a
message or under `G`. -/
structure Posting.Sends (P : Posting) (G : Prop) (s : Kernel) (p : Ptr) (x : Process) : Prop where
  place : x.state = .blockedQueue → x.message.blockedHead = some (.blockedProd P.queue)
  waits : P.Open → p ∈ s.queue (.blockedProd P.queue) ∧ x.message.value = P.message
  ends : ¬ P.Open → 0 < P.size ∨ G → x.state ≠ .blockedQueue ∧ P.got = [] ∧
    (P.taken = [P.message] ∧ P.aborted = false ∧ x.message.status = .sent ∨
      P.taken = [] ∧ P.aborted = true ∧ x.message.status = .error)

/-- What the record `x` of a process in `preceive` tells, likewise. -/
structure Posting.Receives (P : Posting) (G : Prop) (s : Kernel) (p : Ptr) (x : Process) : Prop where
  place : x.state = .blockedQueue → x.message.blockedHead = some (.blockedCons P.queue)
  waits : P.Open → p ∈ s.queue (.blockedCons P.queue)
  ends : ¬ P.Open → 0 < P.size ∨ G → x.state ≠ .blockedQueue ∧ P.taken = [] ∧
    (P.got = [x.message.value] ∧ P.aborted = false ∧ x.message.status = .received ∨
      P.got = [] ∧ P.aborted = true ∧ x.message.status = .error)

/-- The notes tell what every process in a call is to find. -/
structure Posts (G : Prop) (s : Kernel) (n : Ptr → Option Posting) : Prop where
  past : ∀ p P, n p = some P → P.queue < s.nextQueue
  size : ∀ p P m, n p = some P → s.msgQueue P.queue = some m → m.size = P.size
  sends : ∀ p x, s.heap p = some x → x.started = true → x.state.dead = false → x.context = .psend →
    ∃ P, n p = some P ∧ P.Sends G s p x
  receives : ∀ p x b, s.heap p = some x → x.started = true → x.state.dead = false → x.context = .preceive b →
    ∃ P, n p = some P ∧ P.Receives G s p x

section

variable {s t : Kernel} {e : Event} {p c : Ptr} {x y r : Process} {q : QueuePtr} {m : MsgQueue} {P : Posting}
  {n n' : Ptr → Option Posting} {G : Prop}
  {A : Nat → Option QueuePtr} {Q : QueuePtr → Option MsgQueue} {L : QueueHead → List Ptr} {g : Ptr → Process → Process}

theorem Posting.Sends.keep (h : P.Sends G s p x) (hxy : x.Since True False y)
    (hl : p ∈ s.queue (.blockedProd P.queue) → p ∈ t.queue (.blockedProd P.queue)) : P.Sends G t p y where
  place hy := by
    rw [hxy.message trivial]
    exact h.place (hxy.queued trivial hy)
  waits ho := ⟨hl (h.waits ho).1, by rw [hxy.message trivial]; exact (h.waits ho).2⟩
  ends hn hpos := by
    rw [hxy.message trivial]
    exact ⟨fun hy => (h.ends hn hpos).1 (hxy.queued trivial hy), (h.ends hn hpos).2⟩

theorem Posting.Receives.keep (h : P.Receives G s p x) (hxy : x.Since True False y)
    (hl : p ∈ s.queue (.blockedCons P.queue) → p ∈ t.queue (.blockedCons P.queue)) : P.Receives G t p y where
  place hy := by
    rw [hxy.message trivial]
    exact h.place (hxy.queued trivial hy)
  waits ho := hl (h.waits ho)
  ends hn hpos := by
    rw [hxy.message trivial]
    exact ⟨fun hy => (h.ends hn hpos).1 (hxy.queued trivial hy), (h.ends hn hpos).2⟩

/-- What the notes have to tell of the process at `p`. -/
structure Tells (G : Prop) (t : Kernel) (n : Ptr → Option Posting) (p : Ptr) (y : Process) : Prop where
  sends : y.context = .psend → ∃ P, n p = some P ∧ P.Sends G t p y
  receives : ∀ b, y.context = .preceive b → ∃ P, n p = some P ∧ P.Receives G t p y

theorem Posts.tells (h : Posts G s n) (hx : s.heap p = some x) (hst : x.started = true) (hd : x.state.dead = false) :
    Tells G s n p x := ⟨h.sends p x hx hst hd, fun b => h.receives p x b hx hst hd⟩

/-- A process in no call. -/
theorem Tells.of_user (h : y.context.mail = false) : Tells G t n p y := by
  constructor
  · intro hctx
    rw [hctx] at h
    cases h
  · intro b hctx
    rw [hctx] at h
    cases h

/-- A process that goes on in the call it was in. -/
theorem Tells.map (h : Tells G s n p x) (hctx : y.context.mail = true → x.context = y.context)
    (sends : ∀ P, n p = some P → P.Sends G s p x → ∃ P', n' p = some P' ∧ P'.Sends G t p y)
    (receives : ∀ P, n p = some P → P.Receives G s p x → ∃ P', n' p = some P' ∧ P'.Receives G t p y) : Tells G t n' p y where
  sends hy := by
    obtain ⟨P, hP, hs⟩ := h.sends ((hctx (by rw [hy]; rfl)).trans hy)
    exact sends P hP hs
  receives b hy := by
    obtain ⟨P, hP, hs⟩ := h.receives b ((hctx (by rw [hy]; rfl)).trans hy)
    exact receives P hP hs

/-- A process nothing happened to. -/
theorem Tells.keep (h : Tells G s n p x) (hxy : x.Since True False y) (hn : n' p = n p)
    (hl : ∀ hd, hd.queue? ≠ none → p ∈ s.queue hd → p ∈ t.queue hd) : Tells G t n' p y :=
  h.map (hxy.mailing trivial) (fun P hP hs => ⟨P, hn.trans hP, hs.keep hxy (hl _ fun h => by cases h)⟩)
    fun P hP hs => ⟨P, hn.trans hP, hs.keep hxy (hl _ fun h => by cases h)⟩

/-- Every process in a call was in it before the step, or entered it. -/
theorem Mail.tells (hm : Mail s t A Q L g) (hend : ∀ p, Ended s p → Ended t p) (hi : Core ∅ s)
    (hg : ∀ p x, (g p x).started = x.started) (hy : t.heap p = some y) (hst : y.started = true) (hd : y.state.dead = false)
    (h : ∀ x, s.heap p = some x → x.started = true → x.state.dead = false → (g p x).Since True False y → Tells G t n' p y) :
    Tells G t n' p y := by
  cases hctx : y.context.mail with
  | false => exact .of_user hctx
  | true =>
    obtain ⟨x, hx, hxy⟩ := hm.records p y hy ⟨hst, .inl ⟨trivial, .inr hctx⟩⟩
    have hxst : x.started = true := (hg p x).symm.trans hxy.started
    refine h x hx hxst ?_ hxy
    -- a process that ended stays so
    cases hxd : x.state.dead with
    | false => rfl
    | true =>
      have hended : Ended s p := by
        refine ⟨hi.fresh p x hx, fun z hz => ?_⟩
        obtain rfl : x = z := Option.some.inj (hx.symm.trans hz)
        exact ⟨hxst, hxd⟩
      rw [((hend p hended).2 y hy).2] at hd
      cases hd

/-! ## Queues in the notes -/

/-- The call is made for the same queue. -/
def Posting.Alike (P P' : Posting) : Prop := P'.queue = P.queue ∧ P'.size = P.size

theorem edit_source {f : Posting → Posting} {P' : Posting} {a : Ptr} (h : edit n a f p = some P') :
    ∃ P, n p = some P ∧ (P' = P ∨ p = a ∧ P' = f P) := by
  unfold edit at h
  by_cases hp : p = a
  · subst hp
    rw [Function.update_self] at h
    obtain ⟨P, hP, rfl⟩ := Option.map_eq_some_iff.1 h
    exact ⟨P, hP, .inr ⟨rfl, rfl⟩⟩
  · rw [Function.update_of_ne hp] at h
    exact ⟨P', h, .inl rfl⟩

theorem Posting.accept_source {P' : Posting} (h : Posting.accept s e n p = some P') :
    ∃ P, n p = some P ∧ P.Alike P' ∧ (P'.taken = P.taken ∨ ∃ v, e.accepts s = some (p, v)) := by
  unfold Posting.accept at h
  cases ha : e.accepts s with
  | some a =>
    rw [ha] at h
    obtain ⟨P, hP, rfl | ⟨rfl, rfl⟩⟩ := edit_source h
    · exact ⟨P', hP, ⟨rfl, rfl⟩, .inl rfl⟩
    · exact ⟨P, hP, ⟨rfl, rfl⟩, .inr ⟨a.2, rfl⟩⟩
  | none =>
    rw [ha] at h
    exact ⟨P', h, ⟨rfl, rfl⟩, .inl rfl⟩

theorem Posting.hand_source {P' : Posting} (h : Posting.hand s e n p = some P') :
    ∃ P, n p = some P ∧ P.Alike P' ∧ P'.taken = P.taken := by
  unfold Posting.hand at h
  cases ha : e.hands s with
  | some a =>
    rw [ha] at h
    obtain ⟨P, hP, rfl | ⟨rfl, rfl⟩⟩ := edit_source h
    · exact ⟨P', hP, ⟨rfl, rfl⟩, rfl⟩
    · exact ⟨P, hP, ⟨rfl, rfl⟩, rfl⟩
  | none =>
    rw [ha] at h
    exact ⟨P', h, ⟨rfl, rfl⟩, rfl⟩

theorem Posting.clear_source {P' : Posting} (h : Posting.clear s e n p = some P') :
    ∃ P, n p = some P ∧ P.Alike P' ∧ P'.taken = P.taken := by
  unfold Posting.clear at h
  cases ha : e.clears s with
  | some q =>
    simp only [ha] at h
    split at h
    · obtain ⟨P, hP, rfl⟩ := Option.map_eq_some_iff.1 h
      exact ⟨P, hP, ⟨rfl, rfl⟩, rfl⟩
    · exact ⟨P', h, ⟨rfl, rfl⟩, rfl⟩
  | none =>
    rw [ha] at h
    exact ⟨P', h, ⟨rfl, rfl⟩, rfl⟩

/-- A note is about the queue it was about, or about a new call; what was sent is what
had been, unless a message is accepted now. -/
theorem Posting.note_source {P' : Posting} (h : Posting.note s e n p = some P') :
    ∃ P, P.Alike P' ∧ (n p = some P ∧ (∀ P, e.posts s ≠ some (p, P)) ∨ e.posts s = some (p, P)) ∧
      (P'.taken = P.taken ∨ ∃ v, e.accepts s = some (p, v)) := by
  obtain ⟨P₁, h1, a1, t1⟩ := Posting.clear_source h
  obtain ⟨P₂, h2, a2, t2⟩ := Posting.hand_source h1
  obtain ⟨P₃, h3, a3, t3⟩ := Posting.accept_source h2
  refine ⟨P₃, ⟨a1.1.trans (a2.1.trans a3.1), a1.2.trans (a2.2.trans a3.2)⟩, ?_, t3.imp_left fun t3 => t1.trans (t2.trans t3)⟩
  unfold Posting.begin at h3
  cases hposts : e.posts s with
  | some a =>
    simp only [hposts] at h3
    by_cases hp : p = a.1
    · subst hp
      rw [Function.update_self] at h3
      cases h3
      exact .inr rfl
    · rw [Function.update_of_ne hp] at h3
      refine .inl ⟨h3, ?_⟩
      rintro P ⟨⟩
      exact hp rfl
  | none =>
    rw [hposts] at h3
    exact .inl ⟨h3, fun _ h => by cases h⟩

theorem size_of_update {m' w : MsgQueue} {k : QueuePtr} (hQ : t.msgQueue = Function.update s.msgQueue q (some m'))
    (hm : s.msgQueue q = some m) (hsize : m'.size = m.size) (hk : t.msgQueue k = some w) :
    ∃ w₀, s.msgQueue k = some w₀ ∧ w.size = w₀.size := by
  rw [hQ] at hk
  by_cases hkq : k = q
  · subst hkq
    rw [Function.update_self] at hk
    cases hk
    exact ⟨m, hm, hsize⟩
  · rw [Function.update_of_ne hkq] at hk
    exact ⟨w, hk, rfl⟩

/-- A queue keeps its capacity. -/
theorem MailStep.sizes (h : MailStep s t e) {w : MsgQueue} (hlt : q < s.nextQueue) (hq : t.msgQueue q = some w) :
    ∃ w₀, s.msgQueue q = some w₀ ∧ w.size = w₀.size := by
  have same : t.msgQueue = s.msgQueue → ∃ w₀, s.msgQueue q = some w₀ ∧ w.size = w₀.size :=
    fun h => ⟨w, h ▸ hq, rfl⟩
  cases h with
  | other _ _ ha => exact same (ha.queues trivial).2.1
  | psend _ _ hm hst =>
    cases hst with
    | handed _ _ hmail => exact size_of_update hmail.queues hm rfl hq
    | blocked _ _ _ hmail => exact same hmail.queues
    | stored _ _ hmail => exact size_of_update hmail.queues hm rfl hq
  | preceive _ _ hm hst =>
    cases hst with
    | met _ _ _ _ hmail => exact size_of_update hmail.queues hm rfl hq
    | blocked _ _ _ hmail => exact same hmail.queues
    | refilled _ _ _ _ _ hmail => exact size_of_update hmail.queues hm rfl hq
    | popped _ _ _ hmail => exact size_of_update hmail.queues hm rfl hq
    | lost _ _ hmail => exact size_of_update hmail.queues hm rfl hq
    | stranded _ _ _ _ hmail => exact size_of_update hmail.queues hm rfl hq
  | preset _ hm hmail => exact size_of_update hmail.queues hm rfl hq
  | @pdelete _ k _ hmail =>
    rw [hmail.queues] at hq
    by_cases hkq : q = k
    · subst hkq
      rw [Function.update_self] at hq
      cases hq
    · rw [Function.update_of_ne hkq] at hq
      exact ⟨w, hq, rfl⟩
  | pcreate hst =>
    cases hst with
    | failed ha => exact same (ha.queues trivial).2.1
    | unfilled _ _ hmail => exact same hmail.queues
    | created _ _ hmail =>
      rw [hmail.queues, Function.update_of_ne hlt.ne] at hq
      exact ⟨w, hq, rfl⟩
  | moved hmv => exact same hmv.mail.queues
  | killed _ _ _ hk =>
    cases hk.taken with
    | semaphore _ ha => exact same (ha.queues trivial).2.1
    | queue _ _ hmail => exact same hmail.queues

theorem MailStep.next (h : MailStep s t e) : s.nextQueue ≤ t.nextQueue := by
  cases h with
  | other _ _ ha => exact (ha.queues trivial).2.2.symm.le
  | psend _ _ _ hst =>
    cases hst with
    | handed _ _ hmail => exact hmail.next
    | blocked _ _ _ hmail => exact hmail.next
    | stored _ _ hmail => exact hmail.next
  | preceive _ _ _ hst =>
    cases hst with
    | met _ _ _ _ hmail => exact hmail.next
    | blocked _ _ _ hmail => exact hmail.next
    | refilled _ _ _ _ _ hmail => exact hmail.next
    | popped _ _ _ hmail => exact hmail.next
    | lost _ _ hmail => exact hmail.next
    | stranded _ _ _ _ hmail => exact hmail.next
  | preset _ _ hmail => exact hmail.next
  | pdelete _ hmail => exact hmail.next
  | pcreate hst =>
    cases hst with
    | failed ha => exact (ha.queues trivial).2.2.symm.le
    | unfilled _ hlt _ => exact hlt.le
    | created _ hlt _ => exact hlt.le
  | moved hmv => exact hmv.mail.next
  | killed _ _ _ hk =>
    cases hk.taken with
    | semaphore _ ha => exact (ha.queues trivial).2.2.symm.le
    | queue _ _ hmail => exact hmail.next

/-- The queue a call is made for exists, and the call begins with nothing sent. -/
theorem Event.posts_queue (h : e.posts s = some (p, P)) :
    ∃ m, s.msgQueue P.queue = some m ∧ P.size = m.size ∧ P.taken = [] := by
  cases e with
  | syscall sc =>
    cases sc with
    | psend fid v =>
      simp only [Event.posts, Option.bind_eq_bind, Option.bind_eq_some_iff] at h
      obtain ⟨q, _, m, hm, c, _, hP⟩ := h
      cases hP
      exact ⟨m, hm, rfl, rfl⟩
    | preceive fid b =>
      simp only [Event.posts, Option.bind_eq_bind, Option.bind_eq_some_iff] at h
      obtain ⟨q, _, m, hm, c, _, hP⟩ := h
      cases hP
      exact ⟨m, hm, rfl, rfl⟩
    | _ => cases h
  | _ => cases h

/-! ## The steps -/

/-- What is in a list of a message queue says so. -/
theorem Core.blockedIn (hi : Core ∅ s) {d : QueueHead} (hhd : d.queue? = some q) (hx : s.heap p = some x)
    (hmem : p ∈ s.queue d) : BlockedIn s p x d := by
  obtain ⟨z, hz, hn, _⟩ := hi.live_of_mem hmem
  obtain rfl : x = z := Option.some.inj (hx.symm.trans hz)
  obtain ⟨hst, hstate, hhead⟩ := (hi.fits p x hx (by simp)).onQueue hn hhd
  exact ⟨hx, hst, hstate, hhead⟩

/-- A producer in the list of `q` is in `psend` for `q`, and nothing has happened to it. -/
theorem Posting.Sends.listed (h : P.Sends G s p x) (hb : BlockedIn s p x (.blockedProd q)) :
    P.queue = q ∧ (0 < P.size ∨ G → P.Open) := by
  have hq : P.queue = q := by
    have := (h.place hb.state).symm.trans hb.head
    cases this
    rfl
  exact ⟨hq, fun hpos => by_contra fun ho => (h.ends ho hpos).1 hb.state⟩

theorem Posting.Receives.listed (h : P.Receives G s p x) (hb : BlockedIn s p x (.blockedCons q)) :
    P.queue = q ∧ (0 < P.size ∨ G → P.Open) := by
  have hq : P.queue = q := by
    have := (h.place hb.state).symm.trans hb.head
    cases this
    rfl
  exact ⟨hq, fun hpos => by_contra fun ho => (h.ends ho hpos).1 hb.state⟩

theorem Posting.Sends.not_consumer (h : P.Sends G s p x) : ¬ BlockedIn s p x (.blockedCons q) := by
  intro hb
  have := (h.place hb.state).symm.trans hb.head
  cases this

theorem Posting.Receives.not_producer (h : P.Receives G s p x) : ¬ BlockedIn s p x (.blockedProd q) := by
  intro hb
  have := (h.place hb.state).symm.trans hb.head
  cases this

/-- The lists and the records stay as they were, and so do the notes about the others. -/
theorem Posts.others (h : Posts G s n) (hi : Core ∅ s) (hend : ∀ p, Ended s p → Ended t p)
    (hm : Mail s t A Q s.queue fun _ x => x) (hnote : ∀ p, p ≠ c → n' p = n p) (hquits : Quits t c)
    (hy : t.heap p = some y) (hs : y.started = true) (hd : y.state.dead = false) : Tells G t n' p y := by
  by_cases hpc : p = c
  · subst hpc
    exact .of_user (hquits y hy hs)
  refine hm.tells hend hi (fun _ _ => rfl) hy hs hd fun x hx hst hxd hxy => ?_
  refine (h.tells hx hst hxd).keep hxy (hnote p hpc) fun hd' hhd hmem => ?_
  rwa [hm.lists hd' hhd]

theorem GoesOn.quits {k : Context} (h : GoesOn t c k) (hk : k.mail = false) : Quits t c := by
  intro y hy _
  rw [h y hy]
  exact hk

section send

variable {fid v : Int} {b : UserPtr}

theorem Event.posts_send (hfid : s.queueOf (toInt32 fid) = some q) (hq : s.msgQueue q = some m) (hr : Running s c r) :
    Event.posts s (.syscall (.psend fid v)) = some (c, ⟨q, m.size, toInt32 v, [], [], false⟩) := by
  simp [Event.posts, hfid, hq, Kernel.caller, hr.table]

theorem Event.accepts_send (hfid : s.queueOf (toInt32 fid) = some q) (hq : s.msgQueue q = some m) (hr : Running s c r) :
    Event.accepts s (.syscall (.psend fid v)) =
      if m.isFull = true ∧ ¬ (m.isEmpty = true ∧ s.queue (.blockedCons q) ≠ []) then none else some (c, toInt32 v) := by
  simp only [Event.accepts, hfid, hq, Kernel.caller, hr.table, Option.bind_eq_bind, Option.bind_some]
  rfl

theorem Event.hands_send (hfid : s.queueOf (toInt32 fid) = some q) (hq : s.msgQueue q = some m) :
    Event.hands s (.syscall (.psend fid v)) =
      if m.isEmpty = true then (s.queue (.blockedCons q)).getLast?.map (·, toInt32 v) else none := by
  simp only [Event.hands, hfid, hq, Option.bind_eq_bind, Option.bind_some]
  split
  · cases (s.queue (.blockedCons q)).getLast? <;> rfl
  · rfl

theorem if_nobody (hnot : ¬ (m.isEmpty = true ∧ s.queue (.blockedCons q) ≠ [])) :
    (if m.isEmpty = true then (s.queue (.blockedCons q)).getLast?.map (·, v) else none) = none := by
  split
  · next hempty =>
    have hnil : s.queue (.blockedCons q) = [] := by
      by_contra hne
      exact hnot ⟨hempty, hne⟩
    rw [hnil]
    rfl
  · rfl

theorem Posts.send (h : Posts G s n) (hi : Core ∅ s) (hend : ∀ p, Ended s p → Ended t p) (hr : Running s c r)
    (hfid : s.queueOf (toInt32 fid) = some q) (hq : s.msgQueue q = some m)
    (hst : SendStep s t c q m (toInt32 v)) (hy : t.heap p = some y) (hs : y.started = true) (hd : y.state.dead = false) :
    Tells G t (Posting.note s (.syscall (.psend fid v)) n) p y := by
  have hposts := Event.posts_send (v := v) hfid hq hr
  have haccepts := Event.accepts_send (v := v) hfid hq hr
  have hhands := Event.hands_send (v := v) hfid hq
  cases hst with
  | @handed l b hempty hl hm hgo =>
    rw [if_neg (by simp [hempty, hl])] at haccepts
    rw [if_pos hempty, hl, List.getLast?_concat] at hhands
    refine hm.tells hend hi (fun p x => by unfold writing; split <;> rfl) hy hs hd fun x hx hst hxd hxy => ?_
    by_cases hpc : p = c
    · subst hpc
      exact .of_user (by rw [hgo y hy]; rfl)
    by_cases hpb : p = b
    · subst hpb
      have hb : BlockedIn s p x (.blockedCons q) := hi.blockedIn rfl hx (by simp [hl])
      rw [writing, if_pos rfl] at hxy
      have hstate : y.state ≠ .blockedQueue := fun hbq => by cases hxy.queued trivial hbq
      have hmsg := hxy.message trivial
      refine (h.tells hx hst hxd).map (hxy.mailing trivial) (fun P hP hsend => absurd hb hsend.not_consumer)
        fun P hP hrec => ⟨{ P with got := P.got ++ [toInt32 v] }, ?_, fun hbq => absurd hbq hstate, ?_, ?_⟩
      · simp [Posting.note, Posting.begin, Posting.accept, Posting.hand, Posting.clear, Event.clears, hposts, haccepts,
          hhands, edit, hpc, hP]
      · intro ho
        simpa using ho.2.1
      · intro _ hpos
        obtain ⟨_, ho⟩ := hrec.listed hb
        obtain ⟨h1, h2, h3⟩ := ho hpos
        refine ⟨hstate, h1, .inl ⟨?_, h3, ?_⟩⟩
        · rw [hmsg, h2]
          rfl
        · rw [hmsg]
          rfl
    · rw [writing, if_neg hpb] at hxy
      refine (h.tells hx hst hxd).keep hxy ?_ fun hd' hhd hmem => ?_
      · simp [Posting.note, Posting.begin, Posting.accept, Posting.hand, Posting.clear, Event.clears, hposts, haccepts,
          hhands, edit, hpc, hpb]
      · rw [hm.lists hd' hhd]
        by_cases hdd : hd' = .blockedCons q
        · subst hdd
          rw [Function.update_self, List.mem_erase_of_ne hpb, ← hl]
          exact hmem
        · rwa [Function.update_of_ne hdd]
  | @blocked l hnot hfull hl hm hgo =>
    rw [if_pos ⟨hfull, hnot⟩] at haccepts
    have hhands' := hhands.trans (if_nobody hnot)
    have hnote : Posting.note s (.syscall (.psend fid v)) n =
        Function.update n c (some ⟨q, m.size, toInt32 v, [], [], false⟩) := by
      simp [Posting.note, Posting.begin, Posting.accept, Posting.hand, Posting.clear, Event.clears, hposts, haccepts, hhands']
    rw [hnote]
    refine hm.tells hend hi (fun p x => by unfold writing; split <;> rfl) hy hs hd fun x hx hst hxd hxy => ?_
    by_cases hpc : p = c
    · subst hpc
      rw [writing, if_pos rfl] at hxy
      have hmsg := hxy.message trivial
      refine ⟨fun _ => ⟨_, Function.update_self .., fun _ => ?_, fun _ => ⟨?_, ?_⟩, fun ho => absurd ⟨rfl, rfl, rfl⟩ ho⟩,
        fun b hctx => ?_⟩
      · rw [hmsg]
        rfl
      · rw [hm.lists (.blockedProd q) (fun h => by cases h), Function.update_self]
        simp [hl.mem_iff]
      · rw [hmsg]
        rfl
      · have := hxy.mailing trivial (by rw [hctx]; rfl)
        rw [hctx] at this
        cases this
    · rw [writing, if_neg hpc] at hxy
      refine (h.tells hx hst hxd).keep hxy (Function.update_of_ne hpc _ _) fun hd' hhd hmem => ?_
      rw [hm.lists hd' hhd]
      by_cases hdd : hd' = .blockedProd q
      · subst hdd
        rw [Function.update_self, hl.mem_iff]
        exact List.mem_cons_of_mem _ hmem
      · rwa [Function.update_of_ne hdd]
  | stored hnot hfull hm hgo =>
    rw [if_neg (by simp [hfull])] at haccepts
    have hhands' := hhands.trans (if_nobody hnot)
    refine h.others hi hend hm (fun p hpc => ?_) (hgo.quits rfl) hy hs hd
    simp [Posting.note, Posting.begin, Posting.accept, Posting.hand, Posting.clear, Event.clears, hposts, haccepts,
      hhands', edit, hpc]

theorem Event.posts_receive (hfid : s.queueOf (toInt32 fid) = some q) (hq : s.msgQueue q = some m) (hr : Running s c r) :
    Event.posts s (.syscall (.preceive fid b)) = some (c, ⟨q, m.size, 0, [], [], false⟩) := by
  simp [Event.posts, hfid, hq, Kernel.caller, hr.table]

/-- The producer at the front of the list of `q`, with its message. -/
def Kernel.frontProducer (s : Kernel) (q : QueuePtr) : Option (Ptr × Int) := do
  let b ← (s.queue (.blockedProd q)).getLast?
  let x ← s.heap b
  pure (b, x.message.value)

theorem Kernel.frontProducer_concat {l : List Ptr} {b : Ptr} (hl : s.queue (.blockedProd q) = l ++ [b])
    (hx : s.heap b = some x) : s.frontProducer q = some (b, x.message.value) := by
  simp [Kernel.frontProducer, hl, hx]

theorem Kernel.frontProducer_nil (hl : s.queue (.blockedProd q) = []) : s.frontProducer q = none := by
  simp [Kernel.frontProducer, hl]

theorem Event.accepts_receive (hfid : s.queueOf (toInt32 fid) = some q) (hq : s.msgQueue q = some m) :
    Event.accepts s (.syscall (.preceive fid b)) =
      if m.isEmpty = true ∨ m.isFull = true ∧ b ≠ .unmapped then s.frontProducer q else none := by
  simp only [Event.accepts, hfid, hq, Option.bind_eq_bind, Option.bind_some]
  rfl

theorem Event.hands_receive (hfid : s.queueOf (toInt32 fid) = some q) (hq : s.msgQueue q = some m) (hr : Running s c r) :
    Event.hands s (.syscall (.preceive fid b)) =
      if b = .unmapped then none
      else if m.isEmpty = true then (s.frontProducer q).map fun a => (c, a.2) else some (c, m.oldestMsg) := by
  simp only [Event.hands, hfid, hq, Kernel.caller, hr.table, Option.bind_eq_bind, Option.bind_some]
  split
  · rfl
  split
  · unfold Kernel.frontProducer
    cases (s.queue (.blockedProd q)).getLast? with
    | none => rfl
    | some b => cases hx : s.heap b <;> simp [hx]
  · rfl

/-- Only the caller is handed a message. -/
theorem Event.hands_caller {a : Ptr × Int} (hr : Running s c r) (h : Event.hands s (.syscall (.preceive fid b)) = some a) :
    a.1 = c := by
  simp only [Event.hands, Kernel.caller, hr.table, Option.bind_eq_bind, Option.bind_eq_some_iff, Option.bind_some] at h
  obtain ⟨q, -, m, -, h⟩ := h
  split at h
  · cases h
  split at h
  · simp only [Option.bind_eq_some_iff] at h
    obtain ⟨_, -, _, -, h⟩ := h
    cases h
    rfl
  · cases h
    rfl

theorem if_no_producer (hempty : m.isEmpty = false) (hnot : ¬ (m.isFull = true ∧ s.queue (.blockedProd q) ≠ [])) :
    (if m.isEmpty = true ∨ m.isFull = true ∧ b ≠ .unmapped then s.frontProducer q else none) = none := by
  split
  · next hor =>
    refine Kernel.frontProducer_nil (by_contra fun hne => hnot ⟨?_, hne⟩)
    exact (hor.resolve_left (by simp [hempty])).1
  · rfl

/-- What the call of the process at `c` does to the notes about others. -/
theorem Posting.note_receive {P₀ : Posting} {a : Option (Ptr × Int)} (hr : Running s c r)
    (hposts : Event.posts s (.syscall (.preceive fid b)) = some (c, P₀))
    (haccepts : Event.accepts s (.syscall (.preceive fid b)) = a) (hpc : p ≠ c) :
    Posting.note s (.syscall (.preceive fid b)) n p =
      if a.map (·.1) = some p then (n p).map fun P => { P with taken := P.taken ++ (a.map (·.2)).toList } else n p := by
  have hbegin : Posting.begin s (.syscall (.preceive fid b)) n p = n p := by
    simp only [Posting.begin, hposts]
    exact Function.update_of_ne hpc _ _
  have hhand : ∀ n', Posting.hand s (.syscall (.preceive fid b)) n' p = n' p := by
    intro n'
    cases hhands : Event.hands s (.syscall (.preceive fid b)) with
    | none => simp only [Posting.hand, hhands]
    | some d =>
      simp only [Posting.hand, hhands, edit, Event.hands_caller hr hhands]
      exact Function.update_of_ne hpc _ _
  show Posting.hand s _ _ p = _
  rw [hhand]
  subst haccepts
  cases h : Event.accepts s (.syscall (.preceive fid b)) with
  | none => simpa [Posting.accept, h] using hbegin
  | some d =>
    simp only [Posting.accept, h, edit, Option.map_some, Option.some.injEq, Option.toList_some]
    by_cases hpd : d.1 = p
    · subst hpd
      rw [if_pos rfl, Function.update_self, hbegin]
    · rw [if_neg hpd, Function.update_of_ne (Ne.symm hpd), hbegin]

/-- The message of a blocked producer is accepted. -/
theorem Posting.Sends.taken (h : P.Sends G s p x) (hb : BlockedIn s p x (.blockedProd q))
    (hstate : 0 < P.size ∨ G → y.state ≠ .blockedQueue)
    (hmsg : y.message = { x.message with status := .sent }) :
    Posting.Sends { P with taken := P.taken ++ [x.message.value] } G t p y where
  place _ := by
    rw [hmsg]
    exact h.place hb.state
  waits ho := absurd ho.1 (by simp)
  ends _ hpos := by
    have ho := (h.listed hb).2 hpos
    refine ⟨hstate hpos, ho.2.1, .inl ⟨?_, ho.2.2, ?_⟩⟩
    · rw [ho.1, (h.waits ho).2]
      rfl
    · rw [hmsg]

/-- The front producer leaves its list, and its message is accepted. -/
theorem Posts.takes {f : Process → Process} {l : List Ptr} {a : Ptr} {z : Process} (h : Posts G s n) (hi : Core ∅ s)
    (hend : ∀ p, Ended s p → Ended t p) (hl : s.queue (.blockedProd q) = l ++ [a]) (hz : s.heap a = some z)
    (hm : Mail s t A Q (Function.update s.queue (.blockedProd q) ((l ++ [a]).erase a)) (writing a f))
    (hf : ∀ x, (f x).started = x.started) (hmsg : (f z).message = { z.message with status := .sent })
    (hstate : ∀ P y, n a = some P → P.queue = q → t.heap a = some y → (f z).Since True False y → 0 < P.size ∨ G →
      y.state ≠ .blockedQueue)
    (hctx : (f z).context = z.context)
    (hnote : ∀ p, p ≠ c → n' p = if some a = some p then (n p).map fun P => { P with taken := P.taken ++ [z.message.value] }
      else n p)
    (hquits : Quits t c) (hy : t.heap p = some y) (hs : y.started = true) (hd : y.state.dead = false) :
    Tells G t n' p y := by
  by_cases hpc : p = c
  · subst hpc
    exact .of_user (hquits y hy hs)
  have hn := hnote p hpc
  refine hm.tells hend hi (fun p x => by unfold writing; split; exacts [hf x, rfl]) hy hs hd fun x hx hst hxd hxy => ?_
  by_cases hpa : p = a
  · subst hpa
    obtain rfl : x = z := Option.some.inj (hx.symm.trans hz)
    have hb : BlockedIn s p x (.blockedProd q) := hi.blockedIn rfl hx (by simp [hl])
    rw [writing, if_pos rfl] at hxy
    rw [if_pos rfl] at hn
    refine (h.tells hx hst hxd).map (fun hmail => hctx.symm.trans (hxy.mailing trivial hmail)) (fun P hP hsend => ?_)
      fun P hP hrec => absurd hb hrec.not_producer
    refine ⟨_, by rw [hn, hP]; rfl, hsend.taken hb ?_ ((hxy.message trivial).trans hmsg)⟩
    exact hstate P y hP (hsend.listed hb).1 hy hxy
  · rw [writing, if_neg hpa] at hxy
    rw [if_neg (by simpa using Ne.symm hpa)] at hn
    refine (h.tells hx hst hxd).keep hxy hn fun hd' hhd hmem => ?_
    rw [hm.lists hd' hhd]
    by_cases hdd : hd' = .blockedProd q
    · subst hdd
      rw [Function.update_self, List.mem_erase_of_ne hpa, ← hl]
      exact hmem
    · rwa [Function.update_of_ne hdd]

theorem Posts.receive (h : Posts G s n) (hbox : Boxes s) (hi : Core ∅ s) (hend : ∀ p, Ended s p → Ended t p)
    (hmet : G → ∀ p y, s.producerMet (toInt32 fid) = some p → t.heap p = some y → y.state ≠ .blockedQueue)
    (hr : Running s c r) (hfid : s.queueOf (toInt32 fid) = some q) (hq : s.msgQueue q = some m)
    (hst : ReceiveStep s t c q m b) (hy : t.heap p = some y) (hs : y.started = true) (hd : y.state.dead = false) :
    Tells G t (Posting.note s (.syscall (.preceive fid b)) n) p y := by
  have hposts := Event.posts_receive (b := b) hfid hq hr
  have haccepts := Event.accepts_receive (b := b) hfid hq
  have hhands := Event.hands_receive (b := b) hfid hq hr
  -- a producer that is met while the ring is empty
  have meet : ∀ {l a z}, m.isEmpty = true → s.queue (.blockedProd q) = l ++ [a] → s.heap a = some z → ∀ {Q'},
      Mail s t s.allQueues Q' (Function.update s.queue (.blockedProd q) ((l ++ [a]).erase a))
        (writing a fun x => { x with message := { x.message with status := .sent } }) → Quits t c →
      Tells G t (Posting.note s (.syscall (.preceive fid b)) n) p y := by
    intro l a z hempty hl hz Q' hm hquits
    rw [if_pos (.inl hempty), Kernel.frontProducer_concat hl hz] at haccepts
    refine h.takes hi hend hl hz hm (fun _ => rfl) rfl (fun P w hP hPq hw _ hpos => ?_) rfl
      (fun p hpc => Posting.note_receive hr hposts haccepts hpc) hquits hy hs hd
    have hmet' : s.producerMet (toInt32 fid) = some a := by simp [Kernel.producerMet, hfid, hq, hempty, hl]
    refine hpos.elim (fun hpos => ?_) fun hg => hmet hg a w hmet' hw
    -- no producer is blocked on a queue with room
    rw [← h.size a P m hP (hPq ▸ hq)] at hpos
    have h1 := (hbox.box q m hq).producers hpos (by simp [hl])
    have h2 : m.numberOfMsgs = 0 := by simpa [MsgQueue.isEmpty] using hempty
    omega
  cases hst with
  | met _ hempty hl hz hm hgo => exact meet hempty hl hz hm (hgo.quits rfl)
  | stranded _ hempty hl hz hm hquits => exact meet hempty hl hz hm hquits
  | @blocked l hempty hnone hl hm hgo =>
    rw [if_pos (.inl hempty), Kernel.frontProducer_nil hnone] at haccepts
    rw [if_pos hempty, Kernel.frontProducer_nil hnone] at hhands
    have hnote : Posting.note s (.syscall (.preceive fid b)) n =
        Function.update n c (some ⟨q, m.size, 0, [], [], false⟩) := by
      simp [Posting.note, Posting.begin, Posting.accept, Posting.hand, Posting.clear, Event.clears, hposts, haccepts, hhands]
    rw [hnote]
    refine hm.tells hend hi (fun p x => by unfold writing; split <;> rfl) hy hs hd fun x hx hst hxd hxy => ?_
    by_cases hpc : p = c
    · subst hpc
      rw [writing, if_pos rfl] at hxy
      have hmsg := hxy.message trivial
      refine ⟨fun hctx => ?_, fun _ _ => ⟨_, Function.update_self .., fun _ => ?_, fun _ => ?_,
        fun ho => absurd ⟨rfl, rfl, rfl⟩ ho⟩⟩
      · have := hxy.mailing trivial (by rw [hctx]; rfl)
        rw [hctx] at this
        cases this
      · rw [hmsg]
        rfl
      · rw [hm.lists (.blockedCons q) (fun h => by cases h), Function.update_self]
        simp [hl.mem_iff]
    · rw [writing, if_neg hpc] at hxy
      refine (h.tells hx hst hxd).keep hxy (Function.update_of_ne hpc _ _) fun hd' hhd hmem => ?_
      rw [hm.lists hd' hhd]
      by_cases hdd : hd' = .blockedCons q
      · subst hdd
        rw [Function.update_self, hl.mem_iff]
        exact List.mem_cons_of_mem _ hmem
      · rwa [Function.update_of_ne hdd]
  | refilled hmap hempty hfull hl hz hm hgo =>
    rw [if_pos (.inr ⟨hfull, hmap⟩), Kernel.frontProducer_concat hl hz] at haccepts
    refine h.takes hi hend hl hz hm (fun _ => rfl) rfl (fun P w _ _ _ hw _ hbq => ?_) rfl
      (fun p hpc => Posting.note_receive hr hposts haccepts hpc) (hgo.quits rfl) hy hs hd
    cases hw.queued trivial hbq
  | popped _ hempty hnot hm hgo =>
    refine h.others hi hend hm (fun p hpc => ?_) (hgo.quits rfl) hy hs hd
    exact (Posting.note_receive hr hposts (haccepts.trans (if_no_producer hempty hnot)) hpc).trans (if_neg (by simp))
  | lost hmsg hempty hm hquits =>
    refine h.others hi hend hm (fun p hpc => ?_) hquits hy hs hd
    rw [if_neg (by simp [hempty, hmsg])] at haccepts
    exact (Posting.note_receive hr hposts haccepts hpc).trans (if_neg (by simp))

end send

/-- The event begins no call and ends none. -/
theorem Posting.note_none (h1 : e.posts s = none) (h2 : e.accepts s = none) (h3 : e.hands s = none)
    (h4 : e.clears s = none) : Posting.note s e n = n := by
  simp only [Posting.note, Posting.begin, Posting.accept, Posting.hand, Posting.clear, h1, h2, h3, h4]

theorem Posting.note_clear (h1 : e.posts s = none) (h2 : e.accepts s = none) (h3 : e.hands s = none)
    (h4 : e.clears s = some q) : Posting.note s e n p =
      if p ∈ s.queue (.blockedCons q) ++ s.queue (.blockedProd q) then (n p).map fun P => { P with aborted := true }
      else n p := by
  simp only [Posting.note, Posting.begin, Posting.accept, Posting.hand, Posting.clear, h1, h2, h3, h4]

/-- An event that is not about a queue begins no call and ends none. -/
theorem Event.quiet_of_other (h : e.onQueue s = none) :
    e.posts s = none ∧ e.accepts s = none ∧ e.hands s = none ∧ e.clears s = none := by
  cases e with
  | syscall sc =>
    cases sc with
    | psend fid v => simp [Event.posts, Event.accepts, Event.hands, Event.clears, show s.queueOf (toInt32 fid) = none from h]
    | preceive fid b => simp [Event.posts, Event.accepts, Event.hands, Event.clears, show s.queueOf (toInt32 fid) = none from h]
    | preset fid => exact ⟨rfl, rfl, rfl, h⟩
    | pdelete fid => exact ⟨rfl, rfl, rfl, h⟩
    | _ => exact ⟨rfl, rfl, rfl, rfl⟩
  | _ => exact ⟨rfl, rfl, rfl, rfl⟩

theorem Posting.note_other (h : e.onQueue s = none) : Posting.note s e n = n := by
  obtain ⟨h1, h2, h3, h4⟩ := Event.quiet_of_other h
  exact Posting.note_none h1 h2 h3 h4

/-- The lists of `q` are emptied. -/
theorem Posts.flush (h : Posts G s n) (hi : Core ∅ s) (hend : ∀ p, Ended s p → Ended t p)
    (hm : Mail s t A Q (emptied s.queue q) (flushing (s.queue (.blockedCons q) ++ s.queue (.blockedProd q))))
    (hnote : ∀ p, n' p = if p ∈ s.queue (.blockedCons q) ++ s.queue (.blockedProd q) then
      (n p).map fun P => { P with aborted := true } else n p)
    (hy : t.heap p = some y) (hs : y.started = true) (hd : y.state.dead = false) : Tells G t n' p y := by
  refine hm.tells hend hi (fun p x => by unfold flushing; split <;> rfl) hy hs hd fun x hx hst hxd hxy => ?_
  have hn := hnote p
  by_cases hmem : p ∈ s.queue (.blockedCons q) ++ s.queue (.blockedProd q)
  · rw [flushing, if_pos hmem] at hxy
    rw [if_pos hmem] at hn
    have hstate : y.state ≠ .blockedQueue := fun hbq => by cases hxy.queued trivial hbq
    have hstatus : y.message.status = .error := by rw [hxy.message trivial]
    refine (h.tells hx hst hxd).map (hxy.mailing trivial) (fun P hP hsend => ?_) fun P hP hrec => ?_
    · have hb : BlockedIn s p x (.blockedProd q) := by
        refine (List.mem_append.1 hmem).elim (fun hc => ?_) fun hp => hi.blockedIn rfl hx hp
        exact absurd (hi.blockedIn (d := .blockedCons q) rfl hx hc) hsend.not_consumer
      refine ⟨{ P with aborted := true }, by rw [hn, hP]; rfl, fun hbq => absurd hbq hstate,
        fun ho => absurd ho.2.2 (by simp), fun _ hpos => ?_⟩
      have ho := (hsend.listed hb).2 hpos
      exact ⟨hstate, ho.2.1, .inr ⟨ho.1, rfl, hstatus⟩⟩
    · have hb : BlockedIn s p x (.blockedCons q) := by
        refine (List.mem_append.1 hmem).elim (fun hc => hi.blockedIn rfl hx hc) fun hp => ?_
        exact absurd (hi.blockedIn (d := .blockedProd q) rfl hx hp) hrec.not_producer
      refine ⟨{ P with aborted := true }, by rw [hn, hP]; rfl, fun hbq => absurd hbq hstate,
        fun ho => absurd ho.2.2 (by simp), fun _ hpos => ?_⟩
      have ho := (hrec.listed hb).2 hpos
      exact ⟨hstate, ho.1, .inr ⟨ho.2.1, rfl, hstatus⟩⟩
  · rw [flushing, if_neg hmem] at hxy
    rw [if_neg hmem] at hn
    refine (h.tells hx hst hxd).keep hxy hn fun hd' hhd hin => ?_
    obtain ⟨k, hk⟩ := Option.ne_none_iff_exists'.1 hhd
    rw [hm.lists hd' hhd, emptied_of_ne hk]
    · exact hin
    · rintro rfl
      refine hmem (List.mem_append.2 ?_)
      cases hd' with
      | blockedCons k' =>
        cases hk
        exact .inl hin
      | blockedProd k' =>
        cases hk
        exact .inr hin
      | _ => cases hk

/-- The records stay as they were, and so do the notes. -/
theorem Posts.same (h : Posts G s n) (hi : Core ∅ s) (hend : ∀ p, Ended s p → Ended t p)
    (hm : Mail s t A Q L fun _ x => x)
    (hl : ∀ p hd, (∀ y, t.heap p = some y → y.state.dead = false) → hd.queue? ≠ none → p ∈ s.queue hd → p ∈ L hd)
    (hy : t.heap p = some y) (hs : y.started = true) (hd : y.state.dead = false) : Tells G t n p y := by
  refine hm.tells hend hi (fun _ _ => rfl) hy hs hd fun x hx hst hxd hxy => ?_
  refine (h.tells hx hst hxd).keep hxy rfl fun hd' hhd hmem => ?_
  rw [hm.lists hd' hhd]
  refine hl p hd' (fun z hz => ?_) hhd hmem
  obtain rfl : y = z := Option.some.inj (hy.symm.trans hz)
  exact hd

theorem Posts.step (h : Posts G s n) (hs : Ready s) (hbox : Boxes s) (hend : ∀ p, Ended s p → Ended t p)
    (hmet : G → ∀ fid b p y, e = .syscall (.preceive fid b) → s.producerMet (toInt32 fid) = some p →
      t.heap p = some y → y.state ≠ .blockedQueue) (hst : MailStep s t e) : Posts G t (Posting.note s e n) := by
  have hi := hs.inv.toCore
  have tells : ∀ p y, t.heap p = some y → y.started = true → y.state.dead = false →
      Tells G t (Posting.note s e n) p y := by
    intro p y hy hys hyd
    cases hst with
    | other hon _ ha =>
      rw [Posting.note_other hon]
      exact h.same hi hend (.of_apart ha) (fun _ _ _ _ hm => hm) hy hys hyd
    | psend hr hfid hq hst => exact h.send hi hend hr hfid hq hst hy hys hyd
    | @preceive fid b _ _ _ _ hr hfid hq hst =>
      exact h.receive hbox hi hend (fun hg p y => hmet hg fid b p y rfl) hr hfid hq hst hy hys hyd
    | preset hfid _ hm => exact h.flush hi hend hm (fun p => Posting.note_clear rfl rfl rfl hfid) hy hys hyd
    | pdelete hfid hm => exact h.flush hi hend hm (fun p => Posting.note_clear rfl rfl rfl hfid) hy hys hyd
    | pcreate hst =>
      rw [Posting.note_none rfl rfl rfl rfl]
      cases hst with
      | failed ha => exact h.same hi hend (.of_apart ha) (fun _ _ _ _ hm => hm) hy hys hyd
      | unfilled _ _ hm => exact h.same hi hend hm (fun _ _ _ _ hm => hm) hy hys hyd
      | created _ _ hm =>
        refine h.same hi hend hm (fun p hd _ hhd hmem => ?_) hy hys hyd
        obtain ⟨k, hk⟩ := Option.ne_none_iff_exists'.1 hhd
        obtain ⟨x, hx, hn, _⟩ := hi.live_of_mem hmem
        have hlt := hi.queueIds k (hi.queues p x hd k hx hn hk)
        rwa [emptied_of_ne hk hlt.ne]
    | @moved pid newprio a x hd l hmv =>
      rw [Posting.note_none rfl rfl rfl rfl]
      refine h.same hi hend hmv.mail (fun p d _ _ hmem => ?_) hy hys hyd
      by_cases hdd : d = hd
      · subst hdd
        rw [Function.update_self, hmv.perm.mem_iff, List.mem_cons]
        by_cases hp : p = a
        · exact .inl hp
        · exact .inr ((List.mem_erase_of_ne hp).2 hmem)
      · rwa [Function.update_of_ne hdd]
    | @killed pid c r a x hr ht hpc hk =>
      rw [Posting.note_none rfl rfl rfl rfl]
      cases hk.taken with
      | semaphore _ ha => exact h.same hi hend (.of_apart ha) (fun _ _ _ _ hm => hm) hy hys hyd
      | queue _ _ hm =>
        refine h.same hi hend hm (fun p d hp _ hmem => ?_) hy hys hyd
        refine (List.mem_erase_of_ne ?_).2 hmem
        rintro rfl
        obtain ⟨z, hz, hzs⟩ := hk.zombie
        have := hp z hz
        rw [hzs] at this
        cases this
  refine ⟨fun p P' hP => ?_, fun p P' m hP hm => ?_, fun p y hy hys hyd => (tells p y hy hys hyd).sends,
    fun p y b hy hys hyd => (tells p y hy hys hyd).receives b⟩
  · refine lt_of_lt_of_le ?_ hst.next
    obtain ⟨P, ha, ⟨hP, -⟩ | hP, -⟩ := Posting.note_source hP
    · rw [ha.1]
      exact h.past p P hP
    · obtain ⟨m, hm, _⟩ := Event.posts_queue hP
      rw [ha.1]
      exact hi.queueIds _ (by simp [hm])
  · obtain ⟨P, ha, ⟨hP, -⟩ | hP, -⟩ := Posting.note_source hP
    · rw [ha.1] at hm
      obtain ⟨m₀, hm₀, hsize⟩ := hst.sizes (h.past p P hP) hm
      rw [hsize, h.size p P m₀ hP hm₀, ha.2]
    · rw [ha.1] at hm
      obtain ⟨m₀, hm₀, hsize₀, -⟩ := Event.posts_queue hP
      obtain ⟨m₁, hm₁, hsize⟩ := hst.sizes (hi.queueIds _ (by simp [hm₀])) hm
      rw [hm₀] at hm₁
      cases hm₁
      rw [hsize, ha.2, hsize₀]

theorem Boot.posts (hb : Boot s) : Posts G s fun _ => none := by
  have hnone : ∀ p x, s.heap p = some x → x.context.mail = false := by
    intro p x hx
    obtain ⟨symbols, virt, idle, shell, rfl⟩ := hb.eq
    rcases bootState_heap hx with ⟨_, rfl⟩ | ⟨_, rfl⟩ <;> rfl
  refine ⟨by simp, by simp, fun p x hx _ _ hctx => ?_, fun p x b hx _ _ hctx => ?_⟩
  all_goals
    have := hnone p x hx
    rw [hctx] at this
    cases this

/-- The notes tell the truth in every run; under `G` a producer that is met does not
stay blocked. -/
theorem Noted.posts {C : Kernel → Event → Prop} (hC : ∀ s e, C s e → Refills s e)
    (hmet : G → ∀ s t fid b p y, Ready s → C s (.syscall (.preceive fid b)) → Step s (.syscall (.preceive fid b)) t →
      s.producerMet (toInt32 fid) = some p → t.heap p = some y → y.state ≠ .blockedQueue)
    (h : Noted Boot Step C (fun _ => none) Posting.note s n) : Ready s ∧ Boxes s ∧ Posts G s n := by
  induction h with
  | init hb => exact ⟨hb.ready, hb.boxes, hb.posts⟩
  | step _ hc hst ih =>
    obtain ⟨hready, hboxes, hposts⟩ := ih
    have hk := hC _ _ hc
    have hmail := hst.mail hready hk.ends
    have hout := hst.outcome hready (admits_any hk.ends) False.elim (G := False) False.elim
    refine ⟨hout.ready hready, hboxes.step hready hk hmail,
      hposts.step hready hboxes (fun p hp => hout.after.chain.ended hp) ?_ hmail⟩
    rintro hg fid b p y rfl
    exact hmet hg _ _ fid b p y hready hc hst

theorem Posted.posts (h : Posted s n) : Ready s ∧ Boxes s ∧ Posts False s n :=
  Noted.posts (fun _ _ hk => hk) False.elim h

end

end Xinul
