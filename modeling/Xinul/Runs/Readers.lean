import Xinul.Proofs.Bystanders
import Xinul.Runs.Typing

/-!
# Readers waiting for the keyboard

A key wakes one reader, the one of greatest priority, and a reader that was woken looks at
the ring and reads or blocks again; it does not wake the next one. So a reader can be left
waiting for characters that are in the ring. That happens exactly when the only reader
that is awake goes on or is killed: what it leaves in the ring may be enough for another.
-/

namespace Xinul

open Prog Machine Ring

/-- What a reader of `n` characters waits for: a newline, a full ring or `n` characters. -/
def Console.Satisfies (c : Console) (n : Nat) : Prop :=
  c.detectedEol = some true ∨ c.isBufferFull = true ∨ n ≤ c.bufferCurrentSize

/-- The process was woken in `cons_read` and has not looked at the ring since. -/
def Kernel.Woken (s : Kernel) (p : Ptr) : Prop :=
  ∃ x n, s.heap p = some x ∧ x.started = true ∧ x.state.ready = true ∧ x.context = .consRead n

/-- The process waits in the queue of the keyboard for `n` characters. -/
def Kernel.Awaits (s : Kernel) (p : Ptr) (n : Nat) : Prop :=
  p ∈ s.queue .blockedIo ∧ ∃ x, s.heap p = some x ∧ x.context = .consRead n

/-- A step in which the only reader that is awake does not leave characters behind for one
that is blocked. -/
structure HandsOn (s : Kernel) (e : Event) : Prop where
  kills : KillsAtEnd s e
  goesOn : ∀ c r n, e = .resume → Running s c r → r.context = .consRead n → (∃ p, p ≠ c ∧ s.Woken p) ∨
    ∀ p m, s.Awaits p m → (¬ s.console.Satisfies n → ¬ s.console.Satisfies m) ∧
      (s.console.Satisfies n → ∀ q, s.console.Holds q → canRead m (readLine n q).2 = false)
  victim : ∀ p, e.target s = some p → s.Woken p → (∃ q, q ≠ p ∧ s.Woken q) ∨
    ∀ q m, s.Awaits q m → ¬ s.console.Satisfies m

/-! ## The ring, whatever keys were typed -/

/-- The indices are those of the buffer. -/
structure Console.InRange (c : Console) : Prop where
  last : -1 ≤ c.lastWrittenCharIndex ∧ c.lastWrittenCharIndex < bufferSize
  start : 0 ≤ c.startOfBufferIndex ∧ c.startOfBufferIndex < bufferSize

section ring

variable {c c' : Console} {k : UInt8} {q : List UInt8} {m n : Nat}

theorem Console.Holds.inRange (h : c.Holds q) : c.InRange := by
  cases h with
  | empty hl hs => exact ⟨by rw [hl]; decide, by rw [hs]; decide⟩
  | @chars _ start n _ _ hlt hs hl _ =>
    have := Nat.mod_lt (start + n) (show 0 < bufferSize by decide)
    refine ⟨?_, ?_⟩
    · rw [hl]
      omega
    · rw [hs]
      omega

/-- A ring that is not marked as empty holds characters. -/
theorem Console.InRange.holds (h : c.InRange) (hl : c.lastWrittenCharIndex ≠ -1) : ∃ q, c.Holds q := by
  obtain ⟨⟨h1, h2⟩, h3, h4⟩ := h
  obtain ⟨start, hs⟩ := Int.eq_ofNat_of_zero_le h3
  obtain ⟨last, hlast⟩ := Int.eq_ofNat_of_zero_le (show 0 ≤ c.lastWrittenCharIndex by omega)
  rw [hs] at h4
  rw [hlast] at h2
  have h4' : start < 20 := by exact_mod_cast h4
  have h2' : last < 20 := by exact_mod_cast h2
  refine ⟨_, @Console.Holds.chars _ _ start ((last + 20 - start) % 20) length_window ?_ ?_ hs ?_ rfl⟩
  · exact Nat.mod_lt _ (by decide)
  · exact h4'
  · rw [hlast]
    unfold bufferSize
    norm_cast
    omega

theorem Console.InRange.kaddtobuffer (h : c.InRange) (k : UInt8) : (c.kaddtobuffer k).InRange := by
  obtain ⟨⟨h1, h2⟩, hs⟩ := h
  rw [Console.kaddtobuffer]
  split
  · exact ⟨⟨h1, h2⟩, hs⟩
  · refine ⟨?_, hs⟩
    have hnn : 0 ≤ c.lastWrittenCharIndex + 1 := by omega
    have h3 := Int.tmod_nonneg (bufferSize : Int) hnn
    have h4 := Int.tmod_lt_of_pos (c.lastWrittenCharIndex + 1) (show (0 : Int) < bufferSize by decide)
    exact ⟨by dsimp only; omega, h4⟩

theorem Console.InRange.addSpaces (h : c.InRange) (n : Nat) : (c.addSpaces n).InRange := by
  induction n generalizing c with
  | zero => exact h
  | succ n ih => exact ih (h.kaddtobuffer _)

theorem Console.InRange.deleteLast (h : c.InRange) (hl : c.lastWrittenCharIndex ≠ -1) : c.deleteLast.InRange := by
  obtain ⟨⟨h1, h2⟩, hs⟩ := h
  refine ⟨⟨?_, ?_⟩, hs⟩
  · change -1 ≤ c.lastWrittenCharIndex - 1
    omega
  · change c.lastWrittenCharIndex - 1 < bufferSize
    omega

theorem Console.InRange.eraseWhile {p : UInt8 → Bool} {keep : Bool} (fuel : Nat) (h : c.InRange)
    (he : Console.eraseWhile p keep fuel c = some c') : c'.InRange := by
  induction fuel generalizing c with
  | zero => cases he
  | succ fuel ih =>
    rw [Console.eraseWhile] at he
    split at he
    · next hc =>
      refine ih ?_ he
      cases keep
      · exact h.deleteLast hc.1
      · exact h
    · cases he
      exact h

/-- Every key keeps the indices in the buffer. -/
theorem Console.InRange.key (h : c.InRange) (hk : c.key k = some c') : c'.InRange := by
  unfold Console.key at hk
  split at hk
  · cases hk
    exact h.kaddtobuffer _
  split at hk
  · cases hk
    exact h.addSpaces _
  split at hk
  · split at hk
    · next hc =>
      cases hk
      exact h.deleteLast hc.1
    · cases hk
      exact h
  split at hk
  · cases hk
    exact h.kaddtobuffer _
  split at hk
  · exact h.eraseWhile _ hk
  split at hk
  · obtain ⟨c₁, h1, h2⟩ := Option.bind_eq_some_iff.1 hk
    exact (h.eraseWhile _ h1).eraseWhile _ h2
  split at hk
  · cases hk
    exact h.kaddtobuffer _
  · cases hk
    exact h

theorem Console.Holds.satisfies_iff (h : c.Holds q) : c.Satisfies n ↔ canRead n q = true := by
  unfold Console.Satisfies
  rw [h.detectedEol, h.isBufferFull, h.bufferCurrentSize]
  by_cases hfull : q.length = bufferSize
  · simp [canRead, hfull]
  · rw [Nat.mod_eq_of_lt (lt_of_le_of_ne h.length_le hfull)]
    simp [canRead, hfull]

/-- Reading leaves nothing for a reader that could not read before. -/
theorem canRead_readLine (hq : q ≠ []) (hn : 0 < n) (hlen : q.length ≤ bufferSize)
    (h : canRead m (readLine n q).2 = true) : canRead m q = true := by
  have hsuffix : (readLine n q).2 <:+ q := by
    rw [readLine_snd]
    exact List.drop_suffix _ _
  have hshort : (readLine n q).2.length < q.length := by
    rw [readLine_snd, List.length_drop]
    have := List.length_pos_of_ne_nil hq
    split <;> omega
  simp only [canRead, decide_eq_true_eq] at h ⊢
  rcases h with h | h | h
  · exact .inl (hsuffix.subset h)
  · omega
  · exact .inr (.inr (h.trans hshort.le))

end ring

/-! ## A step -/

section step

variable {s t : Kernel} {e : Event} {c p : Ptr} {r x : Process} {k : UInt8} {q : List UInt8} {m n : Nat}

theorem SameRing.satisfies (h : SameRing s t) : t.console.Satisfies n ↔ s.console.Satisfies n := by
  have walk : ∀ fuel temp, t.console.eolWalk fuel temp = s.console.eolWalk fuel temp := by
    intro fuel
    induction fuel with
    | zero => exact fun _ => rfl
    | succ fuel ih =>
      intro temp
      rw [Console.eolWalk, Console.eolWalk, h.last, h.buffer, ih]
  simp only [Console.Satisfies, Console.detectedEol, Console.isBufferEmpty, Console.isBufferFull,
    Console.bufferCurrentSize, h.last, h.start, h.buffer, walk]
  exact Iff.rfl

theorem Inv.blockedIo {H : Set Ptr} (h : Inv H s) (hp : p ∈ s.queue .blockedIo) :
    ∃ x, s.heap p = some x ∧ x.started = true ∧ x.state = .blockedIo := by
  obtain ⟨x, hx, hn, hH⟩ := h.live_of_mem hp
  have hf := h.fits p x hx hH
  refine ⟨x, hx, ?_⟩
  cases hb : x.started <;> cases hs : x.state <;> simp_all [Process.Fits, QueueHead.queue?]

/-- Who waits for a key after a step did so before it, unless it is the reader that runs. -/
theorem Step.waited (hst : Step s e t) (hs : Ready s) (hk : KillsAtEnd s e) (hp : p ∈ t.queue .blockedIo)
    (hread : s.caller = some p → e.reading s = none) :
    p ∈ s.queue .blockedIo ∧ ∃ x y, s.heap p = some x ∧ t.heap p = some y ∧ y.context = x.context := by
  obtain ⟨y, hy, hys, hyb⟩ := (hs.step hk hst).inv.blockedIo hp
  have hreads : ¬ (e.kind s).reads p := by
    rintro ⟨hc, hsome⟩
    simp [hread hc] at hsome
  obtain ⟨x, hx, hxs, hxb, hctx⟩ :=
    (hst.outcome hs (admits_kind hk) False.elim (G := False) False.elim).after.chain.blockedIo hy hys hyb hreads
  have hf := hs.inv.fits p x hx (by simp)
  simp only [Process.Fits, hxs, hxb] at hf
  refine ⟨(hs.inv.mem _ p).2 ⟨x, hx, hf⟩, x, y, hx, hy, hctx fun hc => ?_⟩
  -- the running process is not blocked
  obtain ⟨r, hr⟩ := hs.running_of_caller hc
  obtain rfl := Option.some.inj (hx.symm.trans hr.heap)
  rw [hr.state] at hxb
  cases hxb

theorem Step.awaited (hst : Step s e t) (hs : Ready s) (hk : KillsAtEnd s e) (hp : t.Awaits p n)
    (hread : s.caller = some p → e.reading s = none) : s.Awaits p n := by
  obtain ⟨hmem, y, hy, hyc⟩ := hp
  obtain ⟨hold, x, y', hx, hy', hctx⟩ := hst.waited hs hk hmem hread
  obtain rfl := Option.some.inj (hy.symm.trans hy')
  exact ⟨hold, x, hx, hctx.symm.trans hyc⟩

theorem Process.undead_of_ready (hr : x.state.ready = true) : x.state.dead = false := by
  revert hr
  cases x.state <;> simp [ProcessState.ready, ProcessState.dead]

/-- A reader that was woken stays so until it runs or is killed. -/
theorem Step.woken (hst : Step s e t) (hs : Ready s) (hk : KillsAtEnd s e) (hp : s.Woken p) (hc : s.caller ≠ some p)
    (ht : e.target s ≠ some p) : t.Woken p := by
  obtain ⟨x, n, hx, hxs, hxr, hxc⟩ := hp
  obtain ⟨y, hy, hys, hctx, hstate⟩ := hst.undisturbed hs hk hx hxs (Process.undead_of_ready hxr) hc ht
  refine ⟨y, n, hy, hys, ?_, hctx.trans hxc⟩
  rcases hstate with h | h
  · rw [h, hxr]
  · exact h

/-- The reader that runs goes on before anything else. -/
theorem Step.reading_of_woken (hst : Step s e t) (hs : Ready s) (hp : s.Woken p) (hc : s.caller = some p) :
    e = .resume ∧ ∃ n r, e.reading s = some n ∧ Running s p r ∧ r.context = .consRead n := by
  obtain ⟨x, n, hx, -, -, hctx⟩ := hp
  obtain ⟨r, hr⟩ := hs.running_of_caller hc
  obtain rfl := Option.some.inj (hx.symm.trans hr.heap)
  have huser : s.inUserMode = false := by simp [Kernel.inUserMode, hr.current, hctx]
  have hstore : s.storesRetval = false := by simp [Kernel.storesRetval, hr.current, hctx]
  have he := hst.1
  cases e with
  | resume => exact ⟨rfl, n, x, by simp [Event.reading, hr.current, hctx], hr, hctx⟩
  | _ => simp [Event.enabled, huser, hstore] at he

/-- Waking a reader makes it ready. -/
theorem wakeReader_ready (s : Kernel) : wp (do
      match ← queueOut .blockedIo with
      | none => saveContext (.user none)
      | some next =>
        modifyProc next fun r => { r with state := .activatable }
        queueAdd next .activatable Process.prioField
        schedule (.user none))
    (fun _ t => s.queue .blockedIo = [] ∨ ∃ p ∈ s.queue .blockedIo, ∀ y, t.heap p = some y → y.state.ready = true)
    (fun _ => True) s := by
  rw [wp_bind]
  refine wp_queueOut_any (fun hnil => ?_) fun l p x hq hx => ?_
  · exact wp_mono (keeps_saveContext _ _) (fun _ _ _ _ => .inl hnil) (fun _ _ h => h)
  · have hmem : p ∈ s.queue .blockedIo := by
      rw [hq]
      simp
    dsimp only
    rw [wp_bind]
    refine wp_modifyProc_any trivial fun z hz => ?_
    rw [wp_bind]
    refine wp_queueAdd_any fun l' _ => ?_
    refine wp_mono (schedule_staysReady _ _) (fun _ t _ ht => .inr ⟨p, hmem, fun y hy => ?_⟩) (fun _ _ h => h)
    obtain ⟨w, hw, hwy⟩ := ht p y hy
    refine hwy ?_
    simp only [link_heap, mapProc_heap, Function.update_self, hz, Option.map_some, Option.some.injEq] at hw
    rw [← hw]
    rfl

/-- A key wakes a reader, if there is one. -/
theorem keyboard_wakes (k : UInt8) (hr : s.console.InRange) : wp (step (.keyboard k)) (fun _ t => t.console.InRange ∧
      (s.queue .blockedIo = [] ∨ ∃ p ∈ s.queue .blockedIo, ∀ y, t.heap p = some y → y.state.ready = true))
    (fun _ => True) s := by
  rw [step, handleKeyboardInterrupt, wp_bind, wp_get, wp_bind]
  cases hkey : s.console.key k with
  | none => trivial
  | some c =>
    rw [ofConsole, wp_pure, wp_bind, wp_modify]
    refine wp_mono (wp_and (wakeReader_ring { s with console := c }) (wakeReader_ready { s with console := c }))
      (fun _ t _ ht => ⟨?_, ht.2⟩) (fun _ _ _ => trivial)
    have hring := ht.1.also
    have hc := hr.key hkey
    exact ⟨by rw [hring.last]; exact hc.last, by rw [hring.start]; exact hc.start⟩

/-- `cons_read` waits. -/
theorem consRead_waits (h : ¬ s.console.Satisfies n) (hc : s.caller = some c) :
    wp (consReadLoop n) (fun _ t => SameRing s t ∧ GoesOn t c (.consRead n)) (fun _ => True) s := by
  rw [consReadLoop, wp_bind, wp_get, wp_bind]
  cases heol : s.console.detectedEol with
  | none => trivial
  | some b =>
    simp only [Console.Satisfies, heol, Option.some.injEq, not_or, Bool.not_eq_true, not_le] at h
    rw [ofConsole, wp_pure, if_pos h, wp_bind, wp_getCurrentProcess, show s.pidProcessHashTable _ = some c from hc]
    exact wp_mono (wp_blockReader hc) (fun _ _ _ h => h) (fun _ _ _ => trivial)

/-- `cons_read` reads a line. -/
theorem consRead_reads (h : s.console.Satisfies n) (hn : 0 < n) (hi : s.console.InRange) (hr : Running s c r) :
    wp (consReadLoop n) (fun _ t => t.queue = s.queue ∧
      ∃ q, s.console.Holds q ∧ q ≠ [] ∧ t.console.Holds (readLine n q).2) (fun _ => True) s := by
  by_cases hl : s.console.lastWrittenCharIndex = -1
  · rw [consReadLoop, wp_bind, wp_get, wp_bind]
    cases heol : s.console.detectedEol with
    | none => trivial
    | some b =>
      have hloop : ¬ (b = false ∧ s.console.isBufferFull = false ∧ n > s.console.bufferCurrentSize) := by
        rintro ⟨rfl, h2, h3⟩
        rcases h with h | h | h
        · rw [heol] at h
          cases h
        · rw [h2] at h
          cases h
        · omega
      rw [ofConsole, wp_pure, if_neg hloop, if_pos hl]
      trivial
  · obtain ⟨q, hq⟩ := hi.holds hl
    have hcan := hq.satisfies_iff.1 h
    refine wp_mono (wp_consRead_reads hq hn hcan hr.table hr.heap) (fun _ t _ ht => ?_) (fun _ _ h => h.elim)
    exact ⟨ht.2.2, q, hq, canRead_ne_nil hn hcan, ht.1⟩

/-- Nobody is left waiting, unless a reader was woken that has not looked yet. -/
structure Attended (s : Kernel) : Prop where
  ready : Ready s
  range : s.console.InRange
  asked : ReadsSome s
  readers : ∀ p ∈ s.queue .blockedIo, ∃ n, s.Awaits p n
  served : (∃ p, s.Woken p) ∨ ∀ p n, s.Awaits p n → ¬ s.console.Satisfies n

/-- A step that types nothing and reads nothing. -/
theorem Attended.idle_step (h : Attended s) (hc : HandsOn s e) (hst : Step s e t) (hk : ∀ k, e ≠ .keyboard k)
    (hr : e.reading s = none) : Attended t := by
  have hs := h.ready
  have hring : SameRing s t := (wp_ok (wp_ring_kept hk hr) hst.2).also
  have served : (∀ p n, s.Awaits p n → ¬ s.console.Satisfies n) → ∀ p n, t.Awaits p n → ¬ t.console.Satisfies n := by
    intro hnone p n hp
    rw [hring.satisfies]
    exact hnone p n (hst.awaited hs hc.kills hp fun _ => hr)
  have awake : ∀ {p}, s.Woken p → s.caller ≠ some p := by
    intro p hp hcp
    obtain ⟨-, n, _, hn, -⟩ := hst.reading_of_woken hs hp hcp
    rw [hr] at hn
    cases hn
  refine ⟨hs.step hc.kills hst, ?_, hst.readsSome hs h.asked, fun p hp => ?_, ?_⟩
  · exact ⟨by rw [hring.last]; exact h.range.last, by rw [hring.start]; exact h.range.start⟩
  · obtain ⟨hold, x, y, hx, hy, hctx⟩ := hst.waited hs hc.kills hp fun _ => hr
    obtain ⟨n, -, x', hx', hn⟩ := h.readers p hold
    obtain rfl := Option.some.inj (hx.symm.trans hx')
    exact ⟨n, hp, y, hy, hctx.trans hn⟩
  · rcases h.served with ⟨p, hp⟩ | hnone
    · by_cases ht : e.target s = some p
      · rcases hc.victim p ht hp with ⟨q, hqp, hq⟩ | hnone
        · refine .inl ⟨q, hst.woken hs hc.kills hq (awake hq) ?_⟩
          rw [ht]
          exact fun he => hqp (Option.some.inj he).symm
        · exact .inr (served hnone)
      · exact .inl ⟨p, hst.woken hs hc.kills hp (awake hp) ht⟩
    · exact .inr (served hnone)

/-- A key is typed. -/
theorem Attended.key_step (h : Attended s) (hc : HandsOn s (.keyboard k)) (hst : Step s (.keyboard k) t) : Attended t := by
  have hs := h.ready
  have old : ∀ p ∈ t.queue .blockedIo, p ∈ s.queue .blockedIo ∧
      ∃ x y, s.heap p = some x ∧ t.heap p = some y ∧ y.context = x.context := fun p hp =>
    hst.waited hs hc.kills hp fun _ => rfl
  obtain ⟨hrange, hwake⟩ := wp_ok (keyboard_wakes k h.range) hst.2
  refine ⟨hs.step hc.kills hst, hrange, hst.readsSome hs h.asked, fun p hp => ?_, ?_⟩
  · obtain ⟨hold, x, y, hx, hy, hctx⟩ := old p hp
    obtain ⟨n, -, x', hx', hn⟩ := h.readers p hold
    obtain rfl := Option.some.inj (hx.symm.trans hx')
    exact ⟨n, hp, y, hy, hctx.trans hn⟩
  · rcases hwake with hnil | ⟨p, hp, hready⟩
    · refine .inr fun p n hp => ?_
      have := (old p hp.1).1
      rw [hnil] at this
      cases this
    · obtain ⟨n, -, x, hx, hn⟩ := h.readers p hp
      obtain ⟨x', hx', hxs, hxb⟩ := hs.inv.blockedIo hp
      obtain rfl := Option.some.inj (hx.symm.trans hx')
      have hne : s.caller ≠ some p := by
        intro hcp
        obtain ⟨r, hr⟩ := hs.running_of_caller hcp
        obtain rfl := Option.some.inj (hx.symm.trans hr.heap)
        rw [hr.state] at hxb
        cases hxb
      obtain ⟨y, hy, hys, hctx, -⟩ := hst.undisturbed hs hc.kills hx hxs (by rw [hxb]; rfl) hne fun h => by cases h
      exact .inl ⟨p, y, n, hy, hys, hready y hy, hctx.trans hn⟩

/-- `cons_read` runs. -/
theorem Attended.read_step (h : Attended s) (hc : HandsOn s e) (hst : Step s e t) (hr : e.reading s = some n) :
    Attended t := by
  have hs := h.ready
  obtain ⟨hn, c, r, hcaller, hrec, hrun⟩ := reading_runs hr hst.1 hs h.asked
  obtain ⟨r', hrun'⟩ := hs.running_of_caller hcaller
  obtain rfl := Option.some.inj (hrec.symm.trans hrun'.heap)
  have others : ∀ {p}, p ≠ c → s.caller = some p → e.reading s = none := by
    intro p hpc hp
    exact absurd (Option.some.inj (hp.symm.trans hcaller)) hpc
  have target : e.target s = none := by
    cases e with
    | syscall sc =>
      cases sc with
      | kill pid => cases hr
      | _ => rfl
    | _ => rfl
  have woken : ∀ {p}, p ≠ c → s.Woken p → t.Woken p := by
    intro p hpc hp
    refine hst.woken hs hc.kills hp (fun hcp => hpc ?_) (by simp [target])
    exact Option.some.inj (hcp.symm.trans hcaller)
  -- who is awake, besides the reader that runs
  have awake : (∃ p, p ≠ c ∧ s.Woken p) ∨ ∀ p m, s.Awaits p m →
      (¬ s.console.Satisfies n → ¬ s.console.Satisfies m) ∧
      (s.console.Satisfies n → ∀ q, s.console.Holds q → canRead m (readLine n q).2 = false) := by
    by_cases hself : s.Woken c
    · obtain ⟨he, n', r₁, hn', hr₁, hctx⟩ := hst.reading_of_woken hs hself hcaller
      rw [hr] at hn'
      cases hn'
      exact hc.goesOn c r₁ n he hr₁ hctx
    · rcases h.served with ⟨p, hp⟩ | hnone
      · refine .inl ⟨p, ?_, hp⟩
        rintro rfl
        exact hself hp
      · refine .inr fun p m hp => ⟨fun _ => hnone p m hp, fun hsat q hq => ?_⟩
        have hcan := hq.satisfies_iff.1 hsat
        by_contra hleft
        exact hnone p m hp (hq.satisfies_iff.2 (canRead_readLine (canRead_ne_nil hn hcan) hn hq.length_le (by simpa using hleft)))
  have readers : (c ∈ t.queue .blockedIo → ∃ m, t.Awaits c m) → ∀ p ∈ t.queue .blockedIo, ∃ m, t.Awaits p m := by
    intro hself p hp
    by_cases hpc : p = c
    · subst hpc
      exact hself hp
    · obtain ⟨hold, x, y, hx, hy, hctx⟩ := hst.waited hs hc.kills hp (others hpc)
      obtain ⟨m, -, x', hx', hm⟩ := h.readers p hold
      obtain rfl := Option.some.inj (hx.symm.trans hx')
      exact ⟨m, hp, y, hy, hctx.trans hm⟩
  by_cases hsat : s.console.Satisfies n
  · obtain ⟨hqueue, q, hq, hne, hrest⟩ := wp_ok (hrun (consRead_reads hsat hn h.range hrun')) hst.2
    have hself : c ∉ t.queue .blockedIo := by
      intro hp
      rw [hqueue] at hp
      obtain ⟨x, hx, -, hxb⟩ := hs.inv.blockedIo hp
      obtain rfl := Option.some.inj (hx.symm.trans hrun'.heap)
      rw [hrun'.state] at hxb
      cases hxb
    refine ⟨hs.step hc.kills hst, hrest.inRange, hst.readsSome hs h.asked, readers fun hp => absurd hp hself, ?_⟩
    refine awake.imp (fun ⟨p, hpc, hp⟩ => ⟨p, woken hpc hp⟩) fun hleft p m hp => ?_
    have hpc : p ≠ c := by
      rintro rfl
      exact hself hp.1
    rw [hrest.satisfies_iff, ((hleft p m (hst.awaited hs hc.kills hp (others hpc))).2 hsat q hq)]
    exact Bool.false_ne_true
  · obtain ⟨hring, hgoes⟩ := wp_ok (hrun (consRead_waits hsat hcaller)) hst.2
    refine ⟨hs.step hc.kills hst, ?_, hst.readsSome hs h.asked, readers fun hp => ?_, ?_⟩
    · exact ⟨by rw [hring.last]; exact h.range.last, by rw [hring.start]; exact h.range.start⟩
    · obtain ⟨y, hy, -⟩ := (hs.step hc.kills hst).inv.blockedIo hp
      exact ⟨n, hp, y, hy, hgoes y hy⟩
    · refine awake.imp (fun ⟨p, hpc, hp⟩ => ⟨p, woken hpc hp⟩) fun hleft p m hp => ?_
      rw [hring.satisfies]
      by_cases hpc : p = c
      · subst hpc
        obtain ⟨-, y, hy, hm⟩ := hp
        obtain rfl : m = n := by
          have := (hgoes y hy).symm.trans hm
          cases this
          rfl
        exact hsat
      · exact (hleft p m (hst.awaited hs hc.kills hp (others hpc))).1 hsat

theorem Attended.step (h : Attended s) (hc : HandsOn s e) (hst : Step s e t) : Attended t := by
  cases hr : e.reading s with
  | some n => exact h.read_step hc hst hr
  | none =>
    by_cases hk : ∃ k, e = .keyboard k
    · obtain ⟨k, rfl⟩ := hk
      exact h.key_step hc hst
    · exact h.idle_step hc hst (fun k he => hk ⟨k, he⟩) hr

end step

end Xinul
