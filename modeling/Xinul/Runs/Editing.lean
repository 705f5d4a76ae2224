import Xinul.Proofs.Erasing
import Xinul.Runs.Readers

/-!
# The editing keys

The handler of the keyboard ends but for the key that deletes a word while the echo is
off. What its editing keys erase is told along the runs of the ring by itself: keys are
typed, `cons_read` takes lines out, and the echo is turned on and off.
-/

namespace Xinul

open Prog Machine

/-! ## The rest of the handler returns -/

/-- The program does not stop in a loop that does not end. -/
abbrev Ends {α : Type} (m : KernelM α) : Prop := Guards (fun _ _ => True) (fun _ f => f ≠ .hang) m

instance : ReflectsFaults (fun _ _ : Kernel => True) fun _ f => f ≠ Fault.hang where
  reflects _ h := h

section

variable {α : Type} {s : Kernel} {p : Ptr} {hd : QueueHead} {n : Nat}

theorem ends_deref (p : Ptr) : Ends (deref p) := fun _ => wp_deref_any (by simp) fun _ _ => trivial

theorem ends_modifyProc (p : Ptr) (f : Process → Process) : Ends (modifyProc p f) :=
  fun _ => wp_modifyProc_any (by simp) fun _ _ => trivial

theorem ends_getCurrentProcess : Ends getCurrentProcess := fun _ => trivial

/-- The walk along a queue ends and writes nothing. -/
theorem queueWalk_same {f : Process → Int} {v : Int} (l : List Ptr) : wp (queueWalk f p v l) (fun _ t => t = s) (· ≠ .hang) s := by
  induction l with
  | nil => rfl
  | cons d l ih =>
    rw [queueWalk, wp_bind]
    apply wp_deref_any (by simp)
    intro r _
    rw [wp_ite]
    constructor
    · intro _
      rw [wp_bind]
      exact wp_mono ih (fun _ _ _ h => h) (fun _ _ h => h)
    · intro _
      rfl

/-- `queue_out` of a queue with an element in it makes it shorter. -/
theorem queueOut_shorter : wp (queueOut hd) (fun o t => o ≠ none → ∀ n, (s.queue hd).length < n + 1 → (t.queue hd).length < n)
    (· ≠ .hang) s := by
  rw [queueOut, wp_bind, wp_get]
  cases hlast : (s.queue hd).getLast? with
  | none => exact fun h => absurd rfl h
  | some p =>
    have hp := List.mem_of_getLast? hlast
    dsimp only
    rw [wp_bind]
    apply wp_deref_any (by simp)
    intro x _
    rw [wp_bind, wp_modify, wp_pure]
    intro _ n hn
    have hpos := List.length_pos_of_mem hp
    rw [unlink_queue, Function.update_self, List.length_erase_of_mem hp]
    omega

theorem ends_queueOut (hd : QueueHead) : Ends (queueOut hd) := fun _ =>
  wp_mono queueOut_shorter (fun _ _ _ _ => trivial) (fun _ _ h => h)

/-- Putting a process in another queue leaves this one alone. -/
theorem queueAdd_other {hd' : QueueHead} {f : Process → Int} (hne : hd ≠ hd') :
    wp (queueAdd p hd' f) (fun _ t => t.queue hd = s.queue hd) (· ≠ .hang) s := by
  rw [queueAdd, wp_bind]
  apply wp_deref_any (by simp)
  intro r _
  dsimp only
  rw [wp_ite]
  constructor
  · intro _
    simp
  · intro _
    rw [wp_bind, wp_get, wp_bind]
    refine wp_mono (queueWalk_same _) (fun l t _ ht => ?_) (fun _ _ h => h)
    rw [wp_modify, ht, link_queue, Function.update_of_ne hne]

theorem ends_queueAdd (p : Ptr) (hd : QueueHead) (f : Process → Int) : Ends (queueAdd p hd f) := by
  intro s
  obtain ⟨hd', hne⟩ : ∃ hd', hd' ≠ hd := ⟨if hd = .dead then .asleep else .dead, by split <;> simp_all [eq_comm]⟩
  exact wp_mono (queueAdd_other hne) (fun _ _ _ _ => trivial) (fun _ _ h => h)

theorem ends_getNextWakeTime : wp getNextWakeTime (fun _ t => t = s) (· ≠ .hang) s := by
  rw [getNextWakeTime, wp_bind, wp_queueTop]
  cases (s.queue .asleep).getLast? with
  | none => rfl
  | some p =>
    rw [wp_bind]
    apply wp_deref_any (by simp)
    intro r _
    dsimp only
    rw [wp_ite]
    constructor
    · intro _
      rw [wp_bind, wp_throw]
      exact fun h => by cases h
    · intro _
      rfl

/-- Each turn takes one off the queue of those asleep. -/
theorem ends_awakeSleepingProcess : Ends awakeSleepingProcess := by
  have loop : ∀ n s, (Kernel.queue s .asleep).length < n → wp (awakeSleepingLoop n) (fun _ _ => True) (· ≠ .hang) s := by
    intro n
    induction n with
    | zero => exact fun s hn => absurd hn (Nat.not_lt_zero _)
    | succ n ih =>
      intro s hn
      rw [awakeSleepingLoop, wp_bind]
      refine wp_mono ends_getNextWakeTime (fun wakeTime t _ ht => ?_) (fun _ _ h => h)
      rw [ht, wp_bind, wp_get, wp_ite]
      refine ⟨fun _ => ?_, fun _ => trivial⟩
      rw [wp_bind]
      refine wp_mono queueOut_shorter (fun o u _ hu => ?_) (fun _ _ h => h)
      cases o with
      | none => simp
      | some awake =>
        rw [wp_bind]
        have hother : QueueHead.asleep ≠ .activatable := by simp
        refine wp_mono (queueAdd_other hother) (fun _ v _ hv => ?_) (fun _ _ h => h)
        apply ih
        rw [hv]
        exact hu (by simp) n hn
  exact fun s => loop _ s (Nat.lt_succ_self _)

/-- Each turn takes one off the queue of the dead. -/
theorem ends_freeDeadProcess : Ends freeDeadProcess := by
  have loop : ∀ n s, (Kernel.queue s .dead).length < n → wp (freeDeadLoop n) (fun _ _ => True) (· ≠ .hang) s := by
    intro n
    induction n with
    | zero => exact fun s hn => absurd hn (Nat.not_lt_zero _)
    | succ n ih =>
      intro s hn
      rw [freeDeadLoop, wp_bind]
      refine wp_mono queueOut_shorter (fun o t _ ht => ?_) (fun _ _ h => h)
      cases o with
      | none => trivial
      | some top =>
        rw [wp_bind, freeProcessMemory, wp_bind]
        apply wp_deref_any (by simp)
        intro r _
        rw [wp_bind, wp_modify, wp_pure]
        exact ih _ (ht (by simp) n hn)
  exact fun s => loop _ s (Nat.lt_succ_self _)

theorem ends_dispatch {whenSet : KernelM Unit} (h : Ends whenSet) : Ends (dispatch p whenSet) := by
  have hset : ∀ k, Ends (setpid k) := by
    intro k
    refine .bind (.bind .get fun _ => .pure _) fun o => ?_
    split
    · exact .pure _
    · exact .bind (.modify fun _ => trivial) fun _ => .pure _
  exact .bind (ends_queueOut _) fun _ => .bind (ends_deref p) fun _ => .bind (hset _) fun _ => .ite (.pure _) h

theorem ends_scheduleNext : Ends scheduleNext := by
  have user : Ends (modify fun s : Kernel => { s with startedUserProcess := true }) := .modify fun _ => trivial
  have top : ∀ hd, Ends (queueTop hd) := fun _ _ => trivial
  refine .bind (.bind .get fun _ => .pure _) fun pid => .ite ?_ (.bind .get fun s => .ite ?_ ?_)
  · refine .bind (top _) fun o => ?_
    split
    · exact .pure _
    · exact ends_dispatch (.bind (ends_modifyProc _ _) fun _ => user)
  · refine .bind ends_getCurrentProcess fun o => ?_
    split
    · exact .pure _
    · exact user
  · refine .bind ends_getCurrentProcess fun o => .bind (top _) fun o' => ?_
    split
    · refine .bind (ends_deref _) fun c => .ite ?_ (.ite ?_ ?_)
      · refine .bind (ends_deref _) fun r => .ite ?_ (.pure _)
        exact ends_dispatch (.bind (ends_modifyProc _ _) fun _ => .bind (ends_modifyProc _ _) fun _ => ends_queueAdd _ _ _)
      · exact .bind (ends_queueAdd _ _ _) fun _ => ends_dispatch (ends_modifyProc _ _)
      · exact ends_dispatch (ends_modifyProc _ _)
    · exact .pure _

theorem ends_saveContext (k : Context) : Ends (saveContext k) := by
  refine .bind ends_getCurrentProcess fun o => ?_
  split
  · exact .pure _
  · exact ends_modifyProc _ _

theorem ends_schedule (k : Context) : Ends (schedule k) :=
  .bind (ends_saveContext k) fun _ => .bind ends_awakeSleepingProcess fun _ => .bind ends_freeDeadProcess fun _ => ends_scheduleNext

/-- The handler ends if its loops do. -/
theorem handleKeyboardInterrupt_ends {k : UInt8} {after : Context} (h : s.console.key k ≠ none) :
    wp (handleKeyboardInterrupt k after) (fun _ _ => True) (· ≠ .hang) s := by
  obtain ⟨c, hc⟩ := Option.ne_none_iff_exists'.1 h
  rw [handleKeyboardInterrupt, wp_bind, wp_get, wp_bind, hc, ofConsole, wp_pure, wp_bind, wp_modify, wp_bind]
  refine wp_mono (ends_queueOut .blockedIo _) (fun o t _ _ => ?_) (fun _ _ h => h)
  cases o with
  | none => exact ends_saveContext after t
  | some next =>
    exact Guards.bind (ends_modifyProc _ _) (fun _ => .bind (ends_queueAdd _ _ _) fun _ => ends_schedule after) t

end

/-! ## The loops -/

/-- The state in which a key makes the handler go round for ever: the word is to be deleted,
and nothing is shown. -/
def Spins (c : Console) (k : UInt8) : Prop := k = keyDw ∧ c.echo = false ∧ c.lastWrittenCharIndex ≠ -1

section

variable {c : Console} {k : UInt8} {turns : Nat}

/-- Without the echo neither loop of the key that deletes a word does anything. -/
theorem Spins.not_ended (h : Spins c k) : (c.handle turns k).ended = false := by
  obtain ⟨rfl, he, hl⟩ := h
  rw [Console.handle_word, he, Bool.not_false]
  generalize hfirst : (⟨c, [], true⟩ : Handling).eraseWhile (· = charSpace) true turns = first
  have hring : first.ring = c := by
    rw [← hfirst]
    exact Handling.eraseWhile_keeps.1
  by_cases hend : first.ended = true
  · have hsp : c.byteAt (c.lastWrittenCharIndex - 1) ≠ charSpace := by
      intro hsp
      have hnot := Handling.eraseWhile_spins (h := ⟨c, [], true⟩) (p := (· = charSpace)) (t := turns) hl (by simpa using hsp)
      rw [hfirst, hend] at hnot
      cases hnot
    rw [if_pos hend, hring, he, Bool.not_false]
    exact Handling.eraseWhile_spins (by rw [hring]; exact hl) (by rw [hring]; simpa using hsp)
  · rw [if_neg hend]
    simpa using hend

/-- Every other key comes to the end of its loops. -/
theorem handle_ended (hl : -1 ≤ c.lastWrittenCharIndex) (ht : c.lastWrittenCharIndex + 1 < turns) (hn : ¬ Spins c k) :
    (c.handle turns k).ended = true := by
  by_cases hk : k = keyDw
  · subst hk
    rw [Console.handle_word]
    by_cases he : c.echo = true
    · rw [he, Bool.not_true]
      obtain ⟨hend, hlow, hhigh⟩ := Handling.eraseWhile_ends (h := ⟨c, [], true⟩) (p := (· = charSpace)) hl ht
      rw [if_pos hend, Handling.echo_eraseWhile, he, Bool.not_true,
        (Handling.eraseWhile_ends hlow (by dsimp only at hhigh; omega)).1]
      exact hend
    · -- the ring is empty
      have hempty : c.lastWrittenCharIndex = -1 := by
        by_contra hne
        exact hn ⟨rfl, by simpa using he, hne⟩
      rw [Handling.eraseWhile_empty (h := ⟨c, [], true⟩) hempty (by omega), if_pos rfl,
        Handling.eraseWhile_empty (h := ⟨c, [], true⟩) hempty (by omega)]
  · have hline := (Handling.eraseWhile_ends (h := ⟨c, [], true⟩) (p := (· ≠ charReturn)) hl ht).1
    simp only [Console.handle, if_neg hk, apply_ite Handling.ended, Handling.kaddtobuffer_ended, Handling.addSpaces_ended,
      Handling.deleteLast_ended, Handling.touch_ended, hline, ite_self]

end

/-- The handler of the keyboard ends, for every key and every state of the ring, but when it
is to delete a word without the echo. -/
theorem handler_ends_iff (s : Kernel) (k : UInt8) (after : Context) (hl : -1 ≤ s.console.lastWrittenCharIndex)
    (hb : s.console.lastWrittenCharIndex < bufferSize) :
    ((∃ turns, (s.console.handle turns k).ended = true) ↔ ¬ Spins s.console k) ∧
      (handleKeyboardInterrupt k after s ≠ .error .hang ↔ ¬ Spins s.console k) := by
  constructor
  · constructor
    · rintro ⟨turns, hend⟩ hspins
      rw [hspins.not_ended] at hend
      cases hend
    · intro hn
      refine ⟨bufferSize + 1, handle_ended hl ?_ hn⟩
      unfold bufferSize at hb ⊢
      omega
  · constructor
    · intro hne hspins
      have hkey : s.console.key k = none := by
        rw [Console.key_eq, Handling.result, hspins.not_ended, if_neg (by simp)]
      have hhang : wp (handleKeyboardInterrupt k after) (fun _ _ => False) (· = .hang) s := by
        rw [handleKeyboardInterrupt, wp_bind, wp_get, wp_bind, hkey]
        rfl
      cases hm : handleKeyboardInterrupt k after s with
      | ok v => exact wp_ok hhang hm
      | error f =>
        apply hne
        rw [hm, wp_error hhang hm]
    · intro hn heq
      have hkey : s.console.key k ≠ none := by
        rw [Console.key_eq, Handling.result, if_pos (handle_ended hl (by unfold bufferSize at hb ⊢; omega) hn)]
        simp
      exact wp_error (handleKeyboardInterrupt_ends hkey) heq rfl

/-- The second of two characters is deleted with the word it is in. -/
theorem handler_ends_iff_word : let s := { boot with console := (boot.console.kaddtobuffer 97).kaddtobuffer 98 }
    (∃ turns, (s.console.handle turns keyDw).ended = true) ∧ handleKeyboardInterrupt keyDw (.user none) s ≠ .error .hang :=
  have hn : ¬ Spins ((boot.console.kaddtobuffer 97).kaddtobuffer 98) keyDw := fun h => by cases h.2.1
  have h := handler_ends_iff { boot with console := (boot.console.kaddtobuffer 97).kaddtobuffer 98 } keyDw (.user none)
    (by decide) (by decide)
  ⟨h.1.2 hn, h.2.2 hn⟩

/-- The echo is turned off, a character is typed, and the word is to be deleted. -/
theorem handler_hangs : ¬ ∀ s, Reached (fun _ _ => True) s → ∀ k, ∃ turns, (s.console.handle turns k).ended = true := by
  have hrun : (run boot [.timer, .syscall (.consEcho 0), .keyboard 97]).bind
      (fun s => some (s.console.echo, s.console.lastWrittenCharIndex)) = some (false, 0) := by decide +kernel
  obtain ⟨s, hs, hval⟩ := reached_of_run (C := fun _ _ => True) (fun _ _ _ => trivial) hrun
  simp only [Option.some.injEq, Prod.mk.injEq] at hval
  obtain ⟨hecho, hlast⟩ := hval
  intro h
  obtain ⟨turns, hend⟩ := h s hs keyDw
  have hspins : Spins s.console keyDw := ⟨rfl, hecho, by omega⟩
  rw [hspins.not_ended] at hend
  cases hend

/-! ## The ring as a machine -/

/-- What happens to the ring. -/
inductive ConsoleEvent where
  /-- A key is typed. -/
  | key (k : UInt8)
  /-- `cons_read` looks at the ring. -/
  | read (length : Nat)
  /-- `cons_echo`. -/
  | echo (on : Int)

/-- The ring after the event; `none` if the handler does not end or `copy` is called on an
empty ring. -/
def Console.react (c : Console) : ConsoleEvent → Option Console
  | .key k => c.key k
  | .read length =>
    if length = 0 then some c
    else do
      let eol ← c.detectedEol
      if eol = false ∧ c.isBufferFull = false ∧ length > c.bufferCurrentSize then some c
      else if c.lastWrittenCharIndex = -1 then none
      else (c.copy length).map Prod.fst
  | .echo on => some { c with echo := on ≠ 0 }

/-- The ring after `register_console`. -/
def registered : Console := ⟨fun _ => 0, -1, 0, true⟩

/-- The rings reached by events that meet `C`. -/
abbrev Edited (C : Console → ConsoleEvent → Prop) : Console → Prop :=
  Reach (· = registered) (fun c e c' => c.react e = some c') C

/-- The keys are typed in states in which they erase what they should. -/
def CarefulKeys (c : Console) (e : ConsoleEvent) : Prop := ∀ k, e = .key k → Careful c k

section

variable {c c' : Console} {q : List UInt8} {e : ConsoleEvent} {k : UInt8} {length : Nat}

theorem registered_tidy : registered.Tidy [] := by
  have hcell : ∀ i, registered.buffer i = 0 := fun _ => rfl
  refine ⟨.empty rfl rfl, fun i => ?_, fun i _ h => ?_⟩
  · rw [hcell]
    decide
  · rw [hcell] at h
    cases h

theorem Console.Tidy.key (h : c.Tidy q) (hc : Careful c k) (hk : c.key k = some c') : ∃ q', c'.Tidy q' := by
  rw [Console.key_eq, Handling.result] at hk
  split at hk
  · next hend =>
    cases hk
    obtain ⟨q', hq', -⟩ := (h.edits hc).text hend
    exact ⟨q', hq'⟩
  · cases hk

theorem Console.Tidy.read (h : c.Tidy q) (hr : c.react (.read length) = some c') : ∃ q', c'.Tidy q' := by
  rw [Console.react] at hr
  by_cases hlen : length = 0
  · rw [if_pos hlen] at hr
    cases hr
    exact ⟨q, h⟩
  · rw [if_neg hlen, h.holds.detectedEol, Option.bind_eq_bind, Option.bind_some] at hr
    split_ifs at hr with hwait hl
    · cases hr
      exact ⟨q, h⟩
    · have hq : q ≠ [] := by
        rintro rfl
        cases h.holds with
        | empty hl' _ => exact hl hl'
        | chars hlen' _ _ _ _ _ => cases hlen'
      obtain ⟨⟨c₁, out⟩, hcopy, rfl⟩ := Option.map_eq_some_iff.1 hr
      exact h.copy hq hcopy

theorem Console.Tidy.react (h : c.Tidy q) (hc : CarefulKeys c e) (hr : c.react e = some c') : ∃ q', c'.Tidy q' := by
  cases e with
  | key k => exact h.key (hc k rfl) hr
  | read length => exact h.read hr
  | echo on =>
    cases hr
    obtain ⟨hholds, hreturn, hblank⟩ := h
    refine ⟨q, ?_, hreturn, hblank⟩
    cases hholds with
    | empty hl hs => exact .empty hl hs
    | chars hlen hn hs hst hl hw => exact .chars hlen hn hs hst hl hw

theorem Edited.tidy (h : Edited CarefulKeys c) : ∃ q, c.Tidy q := by
  induction h with
  | init h0 =>
    subst h0
    exact ⟨[], registered_tidy⟩
  | step _ hc hst ih =>
    obtain ⟨q, hq⟩ := ih
    exact hq.react hc hst

/-- The indices of a ring that holds a text. -/
theorem Console.Holds.indices (h : c.Holds q) : (c.lastWrittenCharIndex = -1 ↔ q = []) ∧ (q = [] → c.startOfBufferIndex = 0) ∧
    (0 ≤ c.startOfBufferIndex ∧ c.startOfBufferIndex < bufferSize) ∧
    (-1 ≤ c.lastWrittenCharIndex ∧ c.lastWrittenCharIndex < bufferSize) := by
  refine ⟨?_, ?_, ?_, h.last_range⟩
  · cases h with
    | empty hl _ => simp [hl]
    | chars hlen _ _ _ hl _ =>
      constructor
      · intro hl'
        omega
      · rintro rfl
        cases hlen
  · rintro rfl
    cases h with
    | empty _ hs => exact hs
    | chars hlen _ _ _ _ _ => cases hlen
  · cases h with
    | empty _ hs =>
      rw [hs]
      decide
    | chars _ _ hs hst _ _ => omega

/-! ## The ring of the kernel -/

/-- The kernel changes the echo and nothing else. -/
theorem Edited.sameRing {s t : Kernel} (h : Edited CarefulKeys s.console) (hst : SameRing s t) : Edited CarefulKeys t.console := by
  have heq : t.console = { s.console with echo := t.console.echo } := by
    obtain ⟨hb, hl, hs⟩ := hst
    dsimp only
    rw [← hb, ← hl, ← hs]
  have hreact : s.console.react (.echo (if t.console.echo then 1 else 0)) = some t.console := by
    rw [heq, Console.react]
    cases t.console.echo <;> rfl
  exact h.step (fun k hk => by cases hk) hreact

/-- A key of the keyboard is a key typed in the ring. -/
theorem keyboard_reacts {s : Kernel} (k : UInt8) : wp (step (.keyboard k)) (fun _ t => ∃ c, s.console.react (.key k) = some c ∧
    SameRing { s with console := c } t) (fun _ => True) s := by
  rw [step, handleKeyboardInterrupt, wp_bind, wp_get, wp_bind]
  cases hkey : s.console.key k with
  | none => trivial
  | some c =>
    rw [ofConsole, wp_pure, wp_bind, wp_modify]
    exact wp_mono (wakeReader_ring { s with console := c }) (fun _ t _ ht => ⟨c, hkey, ht.also⟩) (fun _ _ _ => trivial)

/-- A turn of `cons_read` is a read of the ring. -/
theorem consReadLoop_reacts {s : Kernel} {n : Nat} {c : Ptr} (hn : 0 < n) (hc : s.caller = some c) :
    wp (consReadLoop n) (fun _ t => ∃ c, s.console.react (.read n) = some c ∧ SameRing { s with console := c } t)
      (fun _ => True) s := by
  rw [consReadLoop, wp_bind, wp_get, wp_bind]
  cases heol : s.console.detectedEol with
  | none => trivial
  | some b =>
    have hreact : ∀ o, (if b = false ∧ s.console.isBufferFull = false ∧ n > s.console.bufferCurrentSize then some s.console
        else if s.console.lastWrittenCharIndex = -1 then none else (s.console.copy n).map Prod.fst) = o →
        s.console.react (.read n) = o := by
      rintro o rfl
      rw [Console.react, if_neg (by omega), heol]
      rfl
    rw [ofConsole, wp_pure]
    by_cases hwait : b = false ∧ s.console.isBufferFull = false ∧ n > s.console.bufferCurrentSize
    · rw [if_pos hwait, wp_bind, wp_getCurrentProcess, show s.pidProcessHashTable _ = some c from hc]
      refine wp_mono (wp_blockReader hc) (fun _ t _ ht => ⟨s.console, ?_, ht.1⟩) (fun _ _ _ => trivial)
      rw [hreact _ rfl, if_pos hwait]
    · rw [if_neg hwait]
      by_cases hl : s.console.lastWrittenCharIndex = -1
      · rw [if_pos hl]
        trivial
      · rw [if_neg hl, wp_bind]
        cases hcopy : s.console.copy n with
        | none => trivial
        | some r =>
          rw [ofConsole, wp_pure]
          dsimp only
          rw [wp_bind, wp_modify]
          have hanswer := apart_answer (M := False) (W := False) (R := SameRing) (E := fun _ _ => True) r.2.length
            (r.2.map fun k => (k.toNat : Int)) { s with console := r.1 }
          refine wp_mono hanswer (fun _ t _ ht => ⟨r.1, ?_, ht.also⟩) (fun _ _ _ => trivial)
          rw [hreact _ rfl, if_neg hwait, if_neg hl, hcopy]
          rfl

/-- Keys are typed in states in which they erase what they should, and no process blocked
on a semaphore is killed in the middle of its list. -/
def CarefulRun (s : Kernel) (e : Event) : Prop := (∀ k, e = .keyboard k → Careful s.console k) ∧ KillsAtEnd s e

/-- What the kernel does to the ring is a run of the ring. -/
theorem Reached.edited {s : Kernel} (h : Reached CarefulRun s) : Ready s ∧ ReadsSome s ∧ Edited CarefulKeys s.console := by
  induction h with
  | init hb =>
    refine ⟨hb.ready, hb.readsSome, .init ?_⟩
    obtain ⟨symbols, virt, idle, shell, rfl⟩ := hb.eq
    rfl
  | @step s t e _ hc hst ih =>
    obtain ⟨hs, hp, hring⟩ := ih
    refine ⟨hs.step hc.2 hst, hst.readsSome hs hp, ?_⟩
    by_cases hkey : ∃ k, e = .keyboard k
    · obtain ⟨k, rfl⟩ := hkey
      obtain ⟨c, hreact, hsame⟩ := wp_ok (keyboard_reacts k) hst.2
      have hnext : Edited CarefulKeys c := hring.step (fun k' hk' => by cases hk'; exact hc.1 k rfl) hreact
      exact Edited.sameRing (s := { s with console := c }) hnext hsame
    · cases hr : e.reading s with
      | none => exact hring.sameRing (wp_ok (wp_ring_kept (fun k hk => hkey ⟨k, hk⟩) hr) hst.2).also
      | some n =>
        obtain ⟨hn, c, r, hcaller, -, hrun⟩ := reading_runs hr hst.1 hs hp
        obtain ⟨c', hreact, hsame⟩ := wp_ok (hrun (consReadLoop_reacts hn hcaller)) hst.2
        have hnext : Edited CarefulKeys c' := hring.step (fun k hk => by cases hk) hreact
        exact Edited.sameRing (s := { s with console := c' }) hnext hsame

end

/-- In every run of the ring whose keys are typed in states in which they erase what they
should, the ring is in order in every state, and a key erases what it should there exactly
when the state is such a state for it. -/
theorem erase_keys_iff {c : Console} (h : Edited CarefulKeys c) : ∃ q, c.Holds q ∧
    ((c.lastWrittenCharIndex = -1 ↔ q = []) ∧ (q = [] → c.startOfBufferIndex = 0) ∧
      (0 ≤ c.startOfBufferIndex ∧ c.startOfBufferIndex < bufferSize) ∧
      (-1 ≤ c.lastWrittenCharIndex ∧ c.lastWrittenCharIndex < bufferSize)) ∧
    ∀ k, EditsLine c q k ↔ Careful c k := by
  obtain ⟨q, hq⟩ := h.tidy
  refine ⟨q, hq.holds, hq.holds.indices, fun k => ⟨hq.careful, fun hc => ⟨?_, ?_⟩⟩⟩
  · intro turns
    exact (hq.edits hc).within
  · intro turns hend
    obtain ⟨q', hq', hgone⟩ := (hq.edits hc).text hend
    exact ⟨q', hq'.holds, hgone⟩

theorem registered_edited {C : Console → ConsoleEvent → Prop} : Edited C registered := .init rfl

/-- Two characters are typed, and the second one is erased. -/
theorem erase_keys_iff_last : ∃ c, Edited CarefulKeys c ∧ c.Holds [97, 98] ∧ EditsLine c [97, 98] keyBs := by
  have hplain : ∀ c k, ¬ EraseKey k → CarefulKeys c (.key k) := by
    rintro c k hk _ ⟨⟩
    exact ⟨fun h => absurd (h.elim .inl fun h => .inr (.inl h)) hk, fun h => absurd (.inr (.inr (.inl h))) hk,
      fun h => absurd (.inr (.inr (.inr h))) hk, fun h => absurd (.inr (.inr (.inr h))) hk⟩
  have ha : ¬ EraseKey 97 := by unfold EraseKey; decide
  have hb : ¬ EraseKey 98 := by unfold EraseKey; decide
  have h1 : Edited CarefulKeys (registered.kaddtobuffer 97) := registered_edited.step (hplain _ 97 ha) rfl
  have h2 : Edited CarefulKeys ((registered.kaddtobuffer 97).kaddtobuffer 98) := h1.step (hplain _ 98 hb) rfl
  have hq : ((registered.kaddtobuffer 97).kaddtobuffer 98).Holds [97, 98] :=
    registered_tidy.holds.kaddtobuffer.kaddtobuffer
  obtain ⟨q, hq', -, hiff⟩ := erase_keys_iff h2
  obtain rfl := hq.unique hq'
  have hcareful : Careful ((registered.kaddtobuffer 97).kaddtobuffer 98) keyBs := by
    refine ⟨fun _ => .inr (by decide), fun h => absurd h (by decide), fun h => absurd h (by decide), fun h => absurd h (by decide)⟩
  exact ⟨_, h2, hq, (hiff keyBs).2 hcareful⟩

/-- A character and the end of a line are typed, and the end of the line is erased. -/
theorem erase_key_joins_lines : ¬ ∀ c, Edited (fun _ _ => True) c → ∃ q, c.Holds q ∧ ∀ k, EditsLine c q k := by
  intro h
  have h1 : Edited (fun _ _ => True) (registered.kaddtobuffer 97) := registered_edited.step (e := .key 97) trivial rfl
  have h2 : Edited (fun _ _ => True) ((registered.kaddtobuffer 97).kaddtobuffer charNewline) :=
    h1.step (e := .key keyCr) trivial rfl
  obtain ⟨q, hq, hedits⟩ := h _ h2
  have htidy : ((registered.kaddtobuffer 97).kaddtobuffer charNewline).Tidy [97, charNewline] :=
    (registered_tidy.kaddtobuffer (k := 97) (by decide)).kaddtobuffer (by decide)
  obtain rfl := hq.unique htidy.holds
  rcases (htidy.careful (hedits keyBs)).last (.inl rfl) with hl | ⟨-, -, hnl⟩
  · exact absurd hl (by decide)
  · exact hnl rfl

end Xinul
