import Xinul.Proofs.ConsoleRing
import Xinul.Proofs.FrameSteps
import Xinul.Proofs.Mail
import Xinul.Runs.Base

/-!
# What is typed is read

Along a run the characters in the console ring are noted: a key adds one at the end, a
`cons_read` that returns takes a line from the front, and nothing else in the kernel
touches them.
-/

namespace Xinul

open Prog Machine

/-- The ring is as it was. -/
structure SameRing (s t : Kernel) : Prop where
  buffer : t.console.buffer = s.console.buffer
  last : t.console.lastWrittenCharIndex = s.console.lastWrittenCharIndex
  start : t.console.startOfBufferIndex = s.console.startOfBufferIndex

/-- A key that puts a character in the ring and erases nothing. -/
def PlainKey (k : UInt8) : Prop := Console.isPrintable k = true ∨ k = keyLf ∨ k = keyCr

instance : DecidablePred PlainKey := fun _ => inferInstanceAs (Decidable (_ ∨ _ ∨ _))

/-- The character a key puts in the ring. -/
def charOf (k : UInt8) : UInt8 := if k = keyCr then charNewline else k

/-- No key erases characters. -/
def PlainKeys (_ : Kernel) (e : Event) : Prop := ∀ k, e = .keyboard k → PlainKey k

/-- The characters in the ring after the event. -/
def noteRing (s : Kernel) (e : Event) (q : List UInt8) : List UInt8 :=
  match e with
  | .keyboard k => typed (charOf k) q
  | e => match e.reading s with
    | some length => if canRead length q then (readLine length q).2 else q
    | none => q

section

variable {s t u : Kernel} {e : Event} {q : List UInt8} {c : Ptr} {r : Process} {k : UInt8} {length : Nat}

theorem Console.Holds.congr (h : s.console.Holds q) (ht : SameRing s t) : t.console.Holds q := by
  cases h with
  | empty hl hs => exact .empty (ht.last.trans hl) (ht.start.trans hs)
  | chars hlen hn hs hst hl hw =>
    exact .chars hlen hn hs (ht.start.trans hst) (ht.last.trans hl) (by rw [ht.buffer, hw])

theorem SameRing.of_console (h : t.console = s.console) : SameRing s t := ⟨by rw [h], by rw [h], by rw [h]⟩

instance : HoldsOfWrites SameRing where
  refl _ := ⟨rfl, rfl, rfl⟩
  trans _ _ _ h h' := ⟨h'.buffer.trans h.buffer, h'.last.trans h.last, h'.start.trans h.start⟩
  write _ _ _ _ _ _ _ h := .of_console h.console
  globals _ _ _ _ h := .of_console h.console
  free _ _ _ _ := ⟨rfl, rfl, rfl⟩

theorem SameRing.timeless : Timeless SameRing where
  enlist _ _ := ⟨rfl, rfl, rfl⟩
  pids _ _ _ := ⟨rfl, rfl, rfl⟩
  alloc _ _ _ _ _ _ _ _ h _ := .of_console h
  ignoresAsleep _ _ _ _ _ _ h := .of_console h.console
  asleep _ _ _ := ⟨rfl, rfl, rfl⟩
  clock _ _ := ⟨rfl, rfl, rfl⟩

/-- Only `cons_read` runs into the assertion of `copy`. -/
instance {R : Kernel → Kernel → Prop} : Spares R fun _ f => f ≠ .copyAssert where
  reflects _ h := h
  cause h := by
    rintro rfl
    exact h

/-! ## Keys -/

theorem Console.key_plain {c : Console} (hk : PlainKey k) : c.key k = some (c.kaddtobuffer (charOf k)) := by
  rcases hk with hk | rfl | rfl
  · have hne : k ≠ keyCr := by
      rintro rfl
      exact absurd hk (by decide)
    rw [Console.key, if_pos hk, charOf, if_neg hne]
  · rfl
  · rfl

/-- Waking a reader leaves the ring alone. -/
theorem wakeReader_ring : Guards (Frame False False SameRing) (fun _ f => f ≠ .copyAssert) (do
    match ← queueOut .blockedIo with
    | none => saveContext (.user none)
    | some next =>
      modifyProc next fun r => { r with state := .activatable }
      queueAdd next .activatable Process.prioField
      schedule (.user none)) := by
  refine .bind (apart_queueOut False.elim) fun o => ?_
  split
  · exact apart_saveContext False.elim False.elim (.inl fun _ h => by cases h)
  · exact .bind (frame_write fun _ => .of_eq rfl) fun _ => .bind (apart_queueAdd False.elim (.inl fun h => by cases h)) fun _ =>
      apart_schedule False.elim False.elim (.inl fun _ h => by cases h)

theorem wp_keyboard (h : s.console.Holds q) (hk : PlainKey k) :
    wp (step (.keyboard k)) (fun _ t => t.console.Holds (typed (charOf k) q)) (fun f => f ≠ .copyAssert) s := by
  rw [step, handleKeyboardInterrupt, wp_bind, wp_get, wp_bind, Console.key_plain hk]
  rw [ofConsole, wp_pure, wp_bind, wp_modify]
  refine wp_mono (wakeReader_ring { s with console := s.console.kaddtobuffer (charOf k) }) (fun _ t _ ht => ?_) (fun _ _ h => h)
  exact Console.Holds.congr h.kaddtobuffer ht.also

/-! ## `cons_read` -/

theorem canRead_ne_nil (hlen : 0 < length) (h : canRead length q = true) : q ≠ [] := by
  rintro rfl
  simp [canRead, bufferSize] at h
  omega

/-- The condition of the loop of `cons_read`. -/
theorem waits_iff (h : s.console.Holds q) (length : Nat) :
    (decide (charNewline ∈ q) = false ∧ s.console.isBufferFull = false ∧ length > s.console.bufferCurrentSize) ↔
      canRead length q = false := by
  rw [h.isBufferFull, h.bufferCurrentSize]
  by_cases hfull : q.length = bufferSize
  · simp [canRead, hfull]
  · rw [Nat.mod_eq_of_lt (lt_of_le_of_ne h.length_le hfull)]
    simp [canRead, hfull]

theorem wp_consRead_reads (h : s.console.Holds q) (hlen : 0 < length) (hcan : canRead length q = true)
    (hcur : s.pidProcessHashTable s.currentRunningProcessPid = some c) (hc : s.heap c = some r) :
    wp (consReadLoop length) (fun _ t => t.console.Holds (readLine length q).2 ∧
      Answers t c (readLine length q).1.length ((readLine length q).1.map fun k => (k.toNat : Int)) ∧ t.queue = s.queue)
      (fun _ => False) s := by
  have hq := canRead_ne_nil hlen hcan
  have hlast : s.console.lastWrittenCharIndex ≠ -1 := by
    cases h with
    | empty _ _ => exact absurd rfl hq
    | chars _ _ _ _ hl _ => omega
  obtain ⟨c', hcopy, hholds⟩ := h.copy hq length
  have hloop := (waits_iff h length).not.2 (by simp [hcan])
  simp only [consReadLoop, wp_bind, wp_get, h.detectedEol, ofConsole, wp_pure, if_neg hloop, if_neg hlast, hcopy,
    wp_modify]
  rw [wp_answer (c := c) (r := r) (by exact hcur) (by exact hc)]
  exact ⟨hholds, answers_mapProc (by exact hc), rfl⟩

/-- The reader blocks. -/
theorem wp_blockReader (hcur : s.pidProcessHashTable s.currentRunningProcessPid = some c) :
    wp (do
        modifyProc c fun r => { r with state := .blockedIo }
        queueAdd c .blockedIo Process.prioField
        schedule (.consRead length))
      (fun _ t => SameRing s t ∧ GoesOn t c (.consRead length)) (fun f => f ≠ .copyAssert) s := by
  have ring : Guards (Frame False False SameRing) (fun _ f => f ≠ .copyAssert) (do
      modifyProc c fun r => { r with state := .blockedIo }
      queueAdd c .blockedIo Process.prioField
      schedule (.consRead length)) :=
    .bind (frame_write fun _ => .of_eq rfl) fun _ => .bind (apart_queueAdd False.elim (.inl fun h => by cases h)) fun _ =>
      apart_schedule False.elim False.elim (.inr fun _ _ => ⟨rfl, rfl, rfl⟩)
  have goes : wp (do
      modifyProc c fun r => { r with state := .blockedIo }
      queueAdd c .blockedIo Process.prioField
      schedule (.consRead length)) (fun _ t => GoesOn t c (.consRead length)) (fun _ => True) s := by
    rw [wp_bind]
    refine wp_modifyProc_any trivial fun r hr => ?_
    rw [wp_bind]
    refine wp_queueAdd_any fun l _ => ?_
    exact wp_schedule_mail (M := False) (W := False) (by exact hcur) fun t _ hgo => hgo
  exact wp_mono (wp_and (ring s) goes) (fun _ t _ ht => ⟨ht.1.also, ht.2⟩) (fun _ _ h => h)

theorem wp_consRead_waits (h : s.console.Holds q) (hcan : canRead length q = false)
    (hcur : s.pidProcessHashTable s.currentRunningProcessPid = some c) :
    wp (consReadLoop length) (fun _ t => t.console.Holds q ∧ GoesOn t c (.consRead length))
      (fun f => f ≠ .copyAssert) s := by
  have hloop := (waits_iff h length).2 hcan
  rw [consReadLoop, wp_bind, wp_get, wp_bind, h.detectedEol]
  rw [ofConsole, wp_pure, if_pos hloop, wp_bind, wp_getCurrentProcess, hcur]
  exact wp_mono (wp_blockReader hcur) (fun _ t _ ht => ⟨h.congr ht.1, ht.2⟩) (fun _ _ h => h)

/-! ## Who is in `cons_read` -/

/-- A process in `cons_read` has asked for at least one character. -/
def ReadsSome (s : Kernel) : Prop :=
  ∀ p r n, s.heap p = some r → r.started = true → r.context = .consRead n → 0 < n

theorem ReadsSome.update {f : Process → Process} {p : Ptr} (h : ReadsSome s) (heap : t.heap = (s.mapProc p f).heap)
    (hf : ∀ r n, (f r).started = true → (f r).context = .consRead n → 0 < n ∨ r.started = true ∧ r.context = .consRead n) :
    ReadsSome t := by
  intro q y n hy hs hc
  rw [heap] at hy
  rcases heap_update_cases hy with ⟨rfl, hv⟩ | ⟨_, hy⟩
  · obtain ⟨x, hx, rfl⟩ := Option.map_eq_some_iff.1 hv
    rcases hf x n hs hc with hpos | ⟨hxs, hxc⟩
    · exact hpos
    · exact h q x n hx hxs hxc
  · exact h q y n hy hs hc

instance : HoldsOfWrites fun s t => ReadsSome s → ReadsSome t where
  refl _ h := h
  trans _ _ _ h h' h0 := h' (h h0)
  write _ _ _ _ hf heap _ _ h := h.update heap fun r n hs hc => .inr ((hf r).reading n hs hc)
  globals _ _ heap _ _ h p r n hr := h p r n (heap ▸ hr)
  free s p r _ h q y n hy := by
    rcases heap_update_cases hy with ⟨_, hv⟩ | ⟨_, hy⟩
    · cases hv
    · exact h q y n hy

theorem ReadsSome.timeless : Timeless fun s t => ReadsSome s → ReadsSome t where
  enlist _ _ h := h
  pids _ _ _ h := h
  alloc s t r hr heap _ _ _ _ _ h q y n hy hs := by
    rw [heap] at hy
    rcases heap_update_cases hy with ⟨_, hv⟩ | ⟨_, hy⟩
    · cases hv
      rw [hr] at hs
      cases hs
    · exact h q y n hy hs
  ignoresAsleep _ _ _ _ hf heap _ h := h.update heap fun r n hs hc => .inr ((hf r).reading n hs hc)
  asleep _ _ _ h := h.update rfl fun _ _ hs hc => .inr ⟨hs, hc⟩
  clock _ _ h := h

theorem Step.readsSome (hst : Step s e t) (hs : Ready s) (h : ReadsSome s) : ReadsSome t := by
  have read : ∀ n, 0 < n → wp (consReadLoop n) (fun _ t => Frame False False (fun s t => ReadsSome s → ReadsSome t) s t)
      (fun _ => True) s := fun n hn =>
    Respects.run (apart_consReadLoop n (fun _ _ h => h) (fun _ => trivial) fun _ _ h => h.update rfl fun _ _ _ hc => by
      cases hc
      exact .inl hn) s
  have framed : wp (step e) (fun _ t => Frame False False (fun s t => ReadsSome s → ReadsSome t) s t) (fun _ => True) s := by
    refine frame_step (E := fun _ _ => True) ReadsSome.timeless fun hc => ?_
    cases e with
    | syscall sc =>
      cases sc with
      | consRead n =>
        by_cases hn : n = 0
        · subst hn
          exact Respects.run (apart_answer 0 []) s
        · simpa [step, syscallHandler, consRead, hn] using read n (Nat.pos_of_ne_zero hn)
      | consEcho on => exact Respects.run (apart_consEcho _ fun _ _ h => h) s
      | _ => exact hc.elim
    | keyboard k => exact Respects.run (apart_handleKeyboardInterrupt k fun _ _ h => h) s
    | resume =>
      obtain ⟨x, n, hx, hctx⟩ := hc
      obtain ⟨c, r, hr⟩ := hs.running_of_resume hst
      have hcur : s.current = some r := by simp [Kernel.current, hr.table, hr.heap]
      obtain rfl : r = x := Option.some.inj (hcur.symm.trans hx)
      simp only [step, resume, wp_bind, wp_getCurrentProcess, hr.table, wp_derefOpt hr.heap, hctx]
      exact read n (h c r n hr.heap hr.started hctx)
    | _ => exact hc.elim
  exact (wp_ok framed hst.2).also h

theorem Boot.readsSome (hb : Boot s) : ReadsSome s := by
  intro p r n hr _ hc
  obtain ⟨symbols, virt, idle, shell, rfl⟩ := hb.eq
  rcases bootState_heap hr with ⟨_, rfl⟩ | ⟨_, rfl⟩ <;> cases hc

/-! ## Runs -/

/-- The event runs `cons_read` in the running process. -/
theorem reading_runs (h : e.reading s = some length) (he : e.enabled s = true) (hs : Ready s) (hp : ReadsSome s) :
    0 < length ∧ ∃ c r, s.caller = some c ∧ s.heap c = some r ∧
      ∀ {Q E}, wp (consReadLoop length) Q E s → wp (step e) Q E s := by
  cases e with
  | syscall sc =>
    cases sc with
    | consRead n =>
      simp only [Event.reading] at h
      split at h
      · cases h
      · next hn =>
        cases h
        have hcur : s.current ≠ none := by
          intro hnone
          simp only [Event.enabled, Kernel.inUserMode, hnone] at he
          simp at he
        obtain ⟨r, hr⟩ := Option.ne_none_iff_exists'.1 hcur
        obtain ⟨c, hc, hr⟩ := Option.bind_eq_some_iff.1 hr
        refine ⟨Nat.pos_of_ne_zero hn, c, r, hc, hr, fun hwp => ?_⟩
        simpa only [step, syscallHandler, consRead, if_neg hn] using hwp
    | _ => cases h
  | resume =>
    obtain ⟨r, hr, hctx⟩ := Option.bind_eq_some_iff.1 h
    obtain ⟨c, hc, hr⟩ := Option.bind_eq_some_iff.1 hr
    have hctx : r.context = .consRead length := by
      split at hctx
      · next heq =>
        cases hctx
        exact heq
      · cases hctx
    obtain ⟨r', hr'⟩ := hs.running_of_caller hc
    obtain rfl : r = r' := Option.some.inj (hr.symm.trans hr'.heap)
    refine ⟨hp c r length hr hr'.started hctx, c, r, hc, hr, fun hwp => ?_⟩
    simpa only [step, resume, wp_bind, wp_getCurrentProcess, hr'.table, wp_derefOpt hr, hctx] using hwp
  | _ => cases h

/-- An event that types no key and reads nothing leaves the ring alone. -/
theorem wp_ring_kept (hk : ∀ k, e ≠ .keyboard k) (hr : e.reading s = none) :
    wp (step e) (fun _ t => Frame False False SameRing s t) (fun f => f ≠ .copyAssert) s := by
  refine frame_step (E := fun _ f => f ≠ .copyAssert) SameRing.timeless fun hc => ?_
  cases e with
  | syscall sc =>
    cases sc with
    | consRead n =>
      have hn : n = 0 := by
        by_contra hn
        simp [Event.reading, hn] at hr
      subst hn
      exact apart_answer (R := SameRing) (E := fun _ f => f ≠ .copyAssert) 0 [] s
    | consEcho on => exact apart_consEcho (R := SameRing) (E := fun _ f => f ≠ .copyAssert) _ (fun _ _ => ⟨rfl, rfl, rfl⟩) s
    | _ => exact hc.elim
  | keyboard k => exact absurd rfl (hk k)
  | resume =>
    obtain ⟨r, n, hcur, hctx⟩ := hc
    simp [Event.reading, hcur, hctx] at hr
  | _ => exact hc.elim

/-- Nothing but a key puts a character in the ring and nothing but a read takes one out. -/
theorem Step.holds (hst : Step s e t) (hs : Ready s) (hp : ReadsSome s) (hk : PlainKeys s e) (h : s.console.Holds q) :
    t.console.Holds (noteRing s e q) := by
  by_cases hkey : ∃ k, e = .keyboard k
  · obtain ⟨k, rfl⟩ := hkey
    exact wp_ok (wp_keyboard h (hk k rfl)) hst.2
  · have hnote : noteRing s e q = match e.reading s with
        | some length => if canRead length q then (readLine length q).2 else q
        | none => q := by
      cases e with
      | keyboard k => exact absurd ⟨k, rfl⟩ hkey
      | _ => rfl
    rw [hnote]
    cases hr : e.reading s with
    | none => exact h.congr (wp_ok (wp_ring_kept (fun k hk => hkey ⟨k, hk⟩) hr) hst.2).also
    | some length =>
      obtain ⟨hlen, c, r, hc, hrec, hrun⟩ := reading_runs hr hst.1 hs hp
      dsimp only
      split
      · next hcan => exact (wp_ok (hrun (wp_consRead_reads h hlen hcan hc hrec)) hst.2).1
      · next hcan => exact (wp_ok (hrun (wp_consRead_waits h (by simpa using hcan) hc)) hst.2).1

/-- Runs in which no key erases characters and no process blocked on a semaphore is killed
in the middle of its list. -/
def TypingRun (s : Kernel) (e : Event) : Prop := PlainKeys s e ∧ KillsAtEnd s e

/-- A run to `s` in which the ring holds `q` at the end. -/
abbrev Typed (s : Kernel) (q : List UInt8) : Prop := Noted Boot Step TypingRun [] noteRing s q

theorem Typed.holds (h : Typed s q) : Ready s ∧ ReadsSome s ∧ s.console.Holds q := by
  induction h with
  | init hb =>
    refine ⟨hb.ready, hb.readsSome, ?_⟩
    obtain ⟨symbols, virt, idle, shell, rfl⟩ := hb.eq
    exact .empty rfl rfl
  | step _ hc hst ih =>
    obtain ⟨hs, hp, hq⟩ := ih
    exact ⟨hs.step hc.2 hst, hst.readsSome hs hp, hst.holds hs hp hc.1 hq⟩

end

end Xinul
