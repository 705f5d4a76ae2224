import Xinul.Runs.Grants

/-!
# What `wait` answers

A call of `wait` that was admitted is noted with whether it blocked its process and
with the calls that woke the process since. The signal the process reads when it runs
again is the one of the call that woke it.
-/

namespace Xinul

open Prog Machine

/-- The calls that wake a process blocked on a semaphore. -/
inductive Wake where
  | signal
  | sdelete
  | sreset
  deriving DecidableEq, Repr

/-- The `awake_signal_t` of the call. -/
def Wake.code : Wake → Int
  | .signal => signalCall
  | .sdelete => sdeleteCall
  | .sreset => sresetCall

/-- A call of `wait` that was admitted. -/
structure WaitCall where
  blocked : Bool
  wakes : List Wake
  deriving DecidableEq, Repr

/-- The processes in `l` are woken. -/
def WaitCall.rouse (l : List Ptr) (w : Wake) (n : Ptr → Option WaitCall) (p : Ptr) : Option WaitCall :=
  if p ∈ l then (n p).map fun k => { k with wakes := k.wakes ++ [w] } else n p

/-- A call of the process at `c` took the kernel from `s` to `t`. -/
def WaitCall.call (s t : Kernel) (c : Ptr) (n : Ptr → Option WaitCall) : Syscall → Ptr → Option WaitCall
  | .wait i => if tookUnit s t (toInt32 i) then Function.update n c (some ⟨t.waitsFor (toInt32 i) c, []⟩) else n
  | .signal i => rouse (woken s t (toInt32 i)) .signal n
  | .signaln i _ => rouse (woken s t (toInt32 i)) .signal n
  | .sdelete i => rouse (woken s t (toInt32 i)) .sdelete n
  | .sreset i _ => rouse (woken s t (toInt32 i)) .sreset n
  | _ => n

/-- The notes after an event. -/
def WaitCall.note (s : Kernel) (e : Event) (n : Ptr → Option WaitCall) : Ptr → Option WaitCall :=
  match e, s.caller, step e s with
  | .syscall sc, some c, .ok (_, t) => call s t c n sc
  | _, _, _ => n

/-- A run in which no process that waits is killed, with the calls of `wait` noted. -/
abbrev Called (s : Kernel) (n : Ptr → Option WaitCall) : Prop :=
  Noted Boot Step SparesWaiters (fun _ => none) WaitCall.note s n

/-- The record of a process in a call of `wait` tells what became of the call. -/
structure WaitCall.Tells (k : WaitCall) (x : Process) : Prop where
  blocked : x.state = .blockedSemaphore → k = ⟨true, []⟩
  awake : x.state ≠ .blockedSemaphore →
    k = ⟨false, []⟩ ∧ x.semSignal = signalCall ∨ ∃ w, k = ⟨true, [w]⟩ ∧ x.semSignal = w.code

/-- The notes are about the calls processes are in. -/
def WaitCall.Sound (s : Kernel) (n : Ptr → Option WaitCall) : Prop :=
  ∀ p x, s.heap p = some x → x.Parked False True → ∃ k, n p = some k ∧ k.Tells x

/-- The id was given to a semaphore that is no more. -/
structure Gone (s : Kernel) (sem : Int) : Prop where
  none : s.semaphoreTable sem = none
  used : sem ≤ s.semaphoreIdCounter

section

variable {s t u : Kernel} {e : Event} {sem : Int} {p c : Ptr} {x y r : Process} {st st' : Semaphore} {ps ps' ws l : List Ptr}
  {k : WaitCall} {n : Ptr → Option WaitCall} {w : Wake}

theorem WaitCall.rouse_nil : rouse [] w n = n := by
  funext p
  simp [rouse]

theorem WaitCall.note_call {sc : Syscall} (hr : Running s c r) (hst : Step s (.syscall sc) t) :
    note s (.syscall sc) n = call s t c n sc := by
  simp only [note, Kernel.caller, hr.table, hst.2]

/-- The record is as it was. -/
theorem WaitCall.Tells.since (h : k.Tells x) (hxy : x.Since False True y)
    (hb : x.state = .blockedSemaphore → y.state = .blockedSemaphore) : k.Tells y where
  blocked hy := h.blocked (hxy.blocked trivial hy)
  awake hy := by
    rw [(hxy.signal trivial).1]
    exact h.awake fun hx => hy (hb hx)

/-- Nobody left the list. -/
theorem WaitsFor.of_list (ht : Inv ∅ t) (hst' : t.semaphoreTable sem = some st') {ns : List NodePtr}
    (hb : Blocked t st' ns ps') (hw : Waiters ∅ s sem st ps) (hsub : ps ⊆ ps') (h : WaitsFor ∅ s p sem) :
    WaitsFor ∅ t p sem :=
  ((ht.waiters hst' hb).mem p).1 (hsub ((hw.mem p).2 h))

/-- Nobody left a list of a semaphore that is as it was. -/
theorem WaitsFor.keep (hs : Inv ∅ s) (ht : Inv ∅ t) (hst : ∀ st, s.semaphoreTable sem = some st → t.semaphoreTable sem = some st)
    (hlist : ∀ st ns ps, s.semaphoreTable sem = some st → Blocked s st ns ps → Blocked t st ns ps)
    (h : WaitsFor ∅ s p sem) : WaitsFor ∅ t p sem := by
  obtain ⟨st, hsem⟩ := Option.isSome_iff_exists.1 (hs.sems.waiting p sem h)
  obtain ⟨ps, hw⟩ := hs.sems.lists sem st hsem
  obtain ⟨ns, hb⟩ := hw.list
  exact .of_list ht (hst st hsem) (hlist st ns ps hsem hb) hw (List.Subset.refl ps) h

theorem WaitsFor.apart (hs : Inv ∅ s) (ht : Inv ∅ t) (ha : Apart False True s t) (h : WaitsFor ∅ s p sem) :
    WaitsFor ∅ t p sem :=
  h.keep hs ht (fun st hst => by rw [(ha.sems trivial).1, hst]) fun _ _ _ _ hb => hb.apart ha

theorem woken_eq_nil (h : ∀ p, WaitsFor ∅ s p sem → WaitsFor ∅ t p sem) : woken s t sem = [] := by
  refine List.filter_eq_nil_iff.2 fun p _ hp => ?_
  simp only [Bool.and_eq_true, Bool.not_eq_true', ← Bool.not_eq_true, Kernel.waitsFor_iff] at hp
  exact hp.2 (h p hp.1)

theorem mem_woken (hs : Inv ∅ s) : p ∈ woken s t sem ↔ WaitsFor ∅ s p sem ∧ ¬ WaitsFor ∅ t p sem := by
  simp only [woken, List.mem_filter, List.mem_range, Bool.and_eq_true, Bool.not_eq_true', ← Bool.not_eq_true,
    Kernel.waitsFor_iff]
  refine ⟨And.right, fun h => ⟨?_, h⟩⟩
  obtain ⟨-, x, hx, -⟩ := h.1
  exact hs.fresh p x hx

/-- A call about another semaphore. -/
theorem WaitsFor.signals {i : Int} {g : Ptr → Process → Process} (h : WaitsFor ∅ s p i) (hs : Inv ∅ s) (ht : Inv ∅ t)
    (hsig : Signals s t sem g) (hi : i ≠ sem) : WaitsFor ∅ t p i :=
  h.keep hs ht (fun st hst => by rw [hsig.others i hi, hst]) fun st ns ps hst hb => hsig.lists i st ns ps hi hst hb

/-- A process whose record is as it was. -/
theorem WaitCall.Sound.since (h : Sound s n) (hx : s.heap p = some x) (hy : t.heap p = some y) (hxy : x.Since False True y)
    (hp : y.Parked False True) (hw : ∀ sem, WaitsFor ∅ s p sem → WaitsFor ∅ t p sem) : ∃ k, n p = some k ∧ k.Tells y := by
  obtain ⟨k, hk, htells⟩ := h p x hx (hxy.parked hp)
  refine ⟨k, hk, htells.since hxy fun hblocked => ?_⟩
  exact (hw x.semaphoreId ⟨by simp, x, hx, hxy.started, hblocked, rfl⟩).state hy

/-- The records of the processes that wait are as they were. -/
theorem WaitCall.Sound.keep (h : Sound s n) (hw : ∀ p sem, WaitsFor ∅ s p sem → WaitsFor ∅ t p sem)
    (hrec : ∀ p y, t.heap p = some y → y.Parked False True → ∃ x, s.heap p = some x ∧ x.Since False True y) :
    Sound t n := by
  intro p y hy hparked
  obtain ⟨x, hx, hxy⟩ := hrec p y hy hparked
  exact h.since hx hy hxy hparked (hw p)

/-- The processes that left the list of the semaphore were woken. -/
theorem WaitCall.Sound.rouse (h : Sound s n) (hs : Inv ∅ s) (ht : Inv ∅ t) (hsig : Signals s t sem (rousing ws w.code))
    (hws : ∀ p, p ∈ ws ↔ WaitsFor ∅ s p sem ∧ ¬ WaitsFor ∅ t p sem) : Sound t (rouse (woken s t sem) w n) := by
  intro p y hy hparked
  obtain ⟨x, hx, hxy⟩ := hsig.records p y hy hparked
  unfold WaitCall.rouse
  by_cases hp : p ∈ ws
  · rw [if_pos ((mem_woken hs).2 ((hws p).1 hp))]
    rw [rousing, if_pos hp] at hxy
    have hstate := ((hws p).1 hp).1.state hx
    obtain ⟨k, hk, htells⟩ := h p x hx ⟨hxy.started, .inr ⟨trivial, .inl hstate⟩⟩
    obtain rfl := htells.blocked hstate
    refine ⟨_, by rw [hk]; rfl, fun hy => absurd (hxy.blocked trivial hy) (fun h => by cases h), fun _ => .inr ⟨w, rfl, ?_⟩⟩
    exact (hxy.signal trivial).1
  · rw [if_neg fun hp' => hp ((hws p).2 ((mem_woken hs).1 hp'))]
    rw [rousing, if_neg hp] at hxy
    refine h.since hx hy hxy hparked fun i hwaits => ?_
    by_cases hi : i = sem
    · subst hi
      by_contra hno
      exact hp ((hws p).2 ⟨hwaits, hno⟩)
    · exact hwaits.signals hs ht hsig hi

/-- A call of `wait` took a unit. -/
theorem WaitCall.Sound.wait {ns : List NodePtr} (h : Sound s n) (hs : Inv ∅ s) (ht : Inv ∅ t) (hr : Running s c r)
    (hw : Waiters ∅ s sem st ps) (hsem' : t.semaphoreTable sem = some st') (hb : Blocked t st' ns ps') (hsub : ps ⊆ ps')
    (hsig : Signals s t sem (writing c (·.waits sem (decide (st.count - 1 < 0))))) :
    Sound t (Function.update n c (some ⟨t.waitsFor sem c, []⟩)) := by
  intro p y hy hparked
  obtain ⟨x, hx, hxy⟩ := hsig.records p y hy hparked
  by_cases hp : p = c
  · subst hp
    obtain rfl : r = x := Option.some.inj (hr.heap.symm.trans hx)
    rw [writing, if_pos rfl] at hxy
    refine ⟨_, Function.update_self .., fun hstate => ?_, fun hstate => .inl ⟨?_, ?_⟩⟩
    · -- the call that left the process blocked wrote the id of this semaphore
      have hblocked := hxy.blocked trivial hstate
      have hid := (hxy.signal trivial).2
      rw [Process.waits] at hblocked hid
      split at hblocked
      · next hneg =>
        rw [if_pos hneg] at hid
        have : t.waitsFor sem p = true := Kernel.waitsFor_iff.2 ⟨by simp, y, hy, hparked.1, hstate, hid⟩
        rw [this]
      · exact absurd (hr.state.symm.trans hblocked) fun h => by cases h
    · have : t.waitsFor sem p = false := by
        rw [← Bool.not_eq_true, Kernel.waitsFor_iff]
        exact fun hwaits => hstate (hwaits.state hy)
      rw [this]
    · rw [(hxy.signal trivial).1, Process.waits]
      split <;> rfl
  · rw [Function.update_of_ne hp]
    rw [writing, if_neg hp] at hxy
    refine h.since hx hy hxy hparked fun i hwaits => ?_
    by_cases hi : i = sem
    · subst hi
      exact .of_list ht hsem' hb hw hsub hwaits
    · exact hwaits.signals hs ht hsig hi

/-- Nobody waits for a semaphore that is no more, or whose list is empty. -/
theorem Inv.nobody_waits (ht : Inv ∅ t)
    (h : t.semaphoreTable sem = none ∨ ∃ st ns, t.semaphoreTable sem = some st ∧ Blocked t st ns []) : ¬ WaitsFor ∅ t p sem := by
  intro hp
  rcases h with hnone | ⟨st, ns, hst, hb⟩
  · have := ht.sems.waiting p sem hp
    rw [hnone] at this
    cases this
  · cases ((ht.waiters hst hb).mem p).2 hp

theorem WaitCall.Sound.step (h : Sound s n) (hs : Ready s) (hk : SparesWaiters s e) (hst : Step s e t) :
    Sound t (note s e n) := by
  have ht := hs.step hk.killsAtEnd hst
  have hsems := hst.sems hs hk
  have apart : Apart False True s t → Sound t n := fun ha =>
    h.keep (fun p sem hw => hw.apart hs.inv ht.inv ha) fun p y hy hp => ha.records p y hy hp
  cases e with
  | syscall sc =>
    obtain ⟨c, r, hr⟩ := hs.running_of_syscall hst
    rw [note_call hr hst]
    cases hsems with
    | other hsc ha =>
      have hcall : call s t c n sc = n := by
        cases sc <;> first | rfl | cases hsc
      rw [hcall]
      exact apart ha
    | created hpos hnext htable hnode hnextNode hrec =>
      refine h.keep (fun p sem hw => hw.keep hs.inv ht.inv (fun st hst => ?_) fun st ns ps _ hb => ?_) hrec
      · have := hs.inv.sems.ids sem st hst
        rw [htable, Function.update_of_ne (by omega), hst]
      · exact hb.congr (fun _ _ => by rw [hnode]) hnextNode.symm.le
    | read _ ha => exact apart ha
    | @refused _ i c' r' v hsc hr' hv _ ha hgo =>
      have hcall : call s t c n sc = n := by
        have hnil : woken s t i = [] := woken_eq_nil fun p hw => hw.apart hs.inv ht.inv ha
        cases sc with
        | wait j => exact if_neg (not_tookUnit (by rw [(ha.sems trivial).1]))
        | signal j =>
          cases hsc
          simp only [call, hnil, rouse_nil]
        | signaln j count =>
          cases hsc
          simp only [call, hnil, rouse_nil]
        | sdelete j =>
          cases hsc
          simp only [call, hnil, rouse_nil]
        | sreset j count =>
          cases hsc
          simp only [call, hnil, rouse_nil]
        | _ => rfl
      rw [hcall]
      exact apart ha
    | @waited i c' r' st st' ps ps' ns hr' hsem hw hsem' hc hb hsub hsig _ =>
      obtain ⟨rfl, rfl⟩ := hr.unique hr'
      rw [call, if_pos (tookUnit_of hsem hsem' hc)]
      exact h.wait hs.inv ht.inv hr hw hsem' hb hsub hsig
    | @tried i c' r' st st' ps ns hr' hsem hpos hw hsem' hc hb hsig _ =>
      refine h.keep (fun p sem hwaits => ?_) hsig.records
      by_cases hi : sem = toInt32 i
      · subst hi
        exact .of_list ht.inv hsem' hb hw (List.Subset.refl ps) hwaits
      · exact hwaits.signals hs.inv ht.inv hsig hi
    | @signalled _ i c' r' st st' ws l ns m hsc hm hr' hsem hw hsem' hc hb hsig hgo =>
      have hcall : call s t c n sc = WaitCall.rouse (woken s t i) .signal n := by
        cases sc with
        | signal j =>
          cases hsc
          rfl
        | signaln j count =>
          cases hsc
          rfl
        | _ => cases hm
      rw [hcall]
      refine h.rouse hs.inv ht.inv hsig fun p => ?_
      rw [← hw.mem p, ← (ht.inv.waiters hsem' hb).mem p, List.mem_append]
      have hdisjoint := (List.nodup_append.1 hw.nodup).2.2
      constructor
      · exact fun hp => ⟨.inl hp, fun hl => hdisjoint p hp p hl rfl⟩
      · exact fun hp => hp.1.resolve_right hp.2
    | @deleted i c' r' st ps hr' hsem hw hnone hsig _ _ =>
      refine h.rouse hs.inv ht.inv hsig fun p => ?_
      rw [← hw.mem p]
      exact ⟨fun hp => ⟨hp, ht.inv.nobody_waits (.inl hnone)⟩, And.left⟩
    | @reset i count c' r' st st' ps ns hr' hsem hw _ hsem' _ hb hsig _ _ =>
      refine h.rouse hs.inv ht.inv hsig fun p => ?_
      rw [← hw.mem p]
      exact ⟨fun hp => ⟨hp, ht.inv.nobody_waits (.inr ⟨st', ns, hsem', hb⟩)⟩, And.left⟩
  | _ => exact apart ((hst.apart hs (by simp)).weaken False.elim id)

theorem Called.sound (h : Called s n) : Ready s ∧ WaitCall.Sound s n := by
  induction h with
  | init hb =>
    refine ⟨hb.ready, fun p x hx hparked => ?_⟩
    rcases hparked.2 with ⟨hf, -⟩ | ⟨-, hstate | hctx⟩
    · exact hf.elim
    · rw [(hb.booting.processes p x hx).2] at hstate
      cases hstate
    · rw [(hb.record hx).2.2.2] at hctx
      cases hctx
  | step _ hk hst ih => exact ⟨ih.1.step hk.killsAtEnd hst, ih.2.step ih.1 hk hst⟩

/-! ## Going on after `scheduler` -/

theorem Gone.step (h : Gone s sem) (hs : Ready s) (hk : SparesWaiters s e) (hst : Step s e t) : Gone t sem := by
  have there : ∀ {i st}, s.semaphoreTable i = some st → sem ≠ i := by
    rintro i st hi rfl
    rw [h.none] at hi
    cases hi
  have apart : Apart False True s t → Gone t sem := fun ha =>
    ⟨by rw [(ha.sems trivial).1, h.none], by rw [(ha.sems trivial).2.2.2]; exact h.used⟩
  have signals : ∀ {i g st}, s.semaphoreTable i = some st → Signals s t i g → Gone t sem := fun hi hsig =>
    ⟨by rw [hsig.others sem (there hi), h.none], by rw [hsig.counter]; exact h.used⟩
  cases hst.sems hs hk with
  | other _ ha => exact apart ha
  | created _ hnext htable _ _ _ =>
    have := h.used
    exact ⟨by rw [htable, Function.update_of_ne (by omega), h.none], by omega⟩
  | read _ ha => exact apart ha
  | refused _ _ _ _ ha _ => exact apart ha
  | waited _ hsem _ _ _ _ _ hsig _ => exact signals hsem hsig
  | tried _ hsem _ _ _ _ _ hsig _ => exact signals hsem hsig
  | signalled _ _ _ hsem _ _ _ _ hsig _ => exact signals hsem hsig
  | deleted _ hsem _ _ hsig _ _ => exact signals hsem hsig
  | reset _ hsem _ _ _ _ _ hsig _ _ => exact signals hsem hsig

theorem Gone.path (h : Gone s sem) (hs : Ready s) (path : Path Step SparesWaiters s t) : Ready t ∧ Gone t sem := by
  induction path with
  | refl => exact ⟨hs, h⟩
  | step _ hk hst ih => exact ⟨ih.1.step hk.killsAtEnd hst, ih.2.step ih.1 hk hst⟩

/-- A call about it is answered -1. -/
theorem Gone.refused {sc : Syscall} (h : Gone s sem) (hs : Ready s) (hsc : sc.semaphore = some sem)
    (he : (Event.syscall sc).enabled s = true) : ∃ t c, Step s (.syscall sc) t ∧ s.caller = some c ∧ Answers t c (-1) [] := by
  obtain ⟨c, r, hr⟩ : ∃ c r, Running s c r := by
    refine hs.stage.resolve_left fun hb => ?_
    simp [Event.enabled, hb.running] at he
  have hanswer : wp (answer (-1) []) (fun _ t => Answers t c (-1) []) (fun _ => False) s := by
    simp only [answer, saveContext, wp_bind, wp_getCurrentProcess, hr.table, wp_modifyProc hr.heap]
    simp [Answers, hr.heap]
  have hwp : wp (syscallHandler sc) (fun _ t => Answers t c (-1) []) (fun _ => False) s := by
    cases sc with
    | scount i =>
      cases hsc
      simpa only [syscallHandler, scount, wp_bind, wp_getSemaphoreStruct, h.none] using hanswer
    | sdelete i =>
      cases hsc
      simpa only [syscallHandler, sdelete, wp_bind, wp_getSemaphoreStruct, h.none] using hanswer
    | signal i =>
      cases hsc
      simp only [syscallHandler, signal, signalStep, wp_bind, wp_getSemaphoreStruct, h.none, wp_pure]
      rw [if_pos (by decide)]
      exact hanswer
    | signaln i count =>
      cases hsc
      simpa only [syscallHandler, signaln, wp_bind, wp_getSemaphoreStruct, h.none] using hanswer
    | sreset i count =>
      cases hsc
      simpa only [syscallHandler, sreset, wp_bind, wp_getSemaphoreStruct, h.none] using hanswer
    | tryWait i =>
      cases hsc
      simpa only [syscallHandler, tryWait, wp_bind, wp_getSemaphoreStruct, h.none] using hanswer
    | wait i =>
      cases hsc
      simpa only [syscallHandler, wait, wp_bind, wp_getSemaphoreStruct, h.none] using hanswer
    | _ => cases hsc
  obtain ⟨_, t, hrun, ht⟩ := wp_returns hwp
  exact ⟨t, c, ⟨he, hrun⟩, hr.table, ht⟩

/-! ## The calls that wake everybody -/

/-- The semaphore a call of `sdelete` or `sreset` is about, and what it wakes with. -/
def Syscall.flush : Syscall → Option (Int × Wake)
  | .sdelete sem => some (toInt32 sem, .sdelete)
  | .sreset sem _ => some (toInt32 sem, .sreset)
  | _ => none

/-- Nobody waits for the semaphore any more, and everybody who did was woken once. -/
structure Flushed (s t : Kernel) (sem : Int) (w : Wake) (n : Ptr → Option WaitCall) : Prop where
  none : ∀ p, t.waitsFor sem p = false
  woken : ∀ p, s.waitsFor sem p = true → n p = some ⟨true, [w]⟩ ∧ ∃ y, t.heap p = some y ∧
    (y.state = .activatable ∧ (t.queue .activatable).count p = 1 ∨ y.state = .actif ∧ t.caller = some p)

theorem Answers.of_goesOn {v v' : Int} {l l' : List Int} (h : Answers t c v l) (hgo : GoesOn t c (.user (some ⟨v', l'⟩))) :
    v = v' := by
  obtain ⟨y, hy, hctx⟩ := Option.map_eq_some_iff.1 h
  rw [hgo y hy] at hctx
  simp only [Context.user.injEq, Option.some.injEq, Answer.mk.injEq] at hctx
  exact hctx.1.symm

/-- A process that is ready is in the activatable queue once, or has the processor. -/
theorem Inv.ready_place (ht : Inv ∅ t) (hy : t.heap p = some y) (hst : y.started = true) (hr : y.state.ready = true) :
    y.state = .activatable ∧ (t.queue .activatable).count p = 1 ∨ y.state = .actif ∧ t.caller = some p := by
  have hf := ht.fits p y hy (by simp)
  cases hstate : y.state with
  | activatable =>
    refine .inl ⟨rfl, List.count_eq_one_of_mem (ht.nodup _) ((ht.mem _ p).2 ⟨y, hy, ?_⟩)⟩
    simpa [Process.Fits, hst, hstate] using hf
  | actif =>
    have hpid : y.pid = t.currentRunningProcessPid := by
      simp only [Process.Fits, hst, hstate] at hf
      exact hf.2
    exact .inr ⟨rfl, by rw [Kernel.caller, ← hpid, ht.pidOf p y hy]⟩
  | _ =>
    rw [hstate] at hr
    cases hr

theorem Syscall.flush_semaphore {sc : Syscall} (h : sc.flush = some (sem, w)) : sc.semaphore = some sem ∧ sc.units = none := by
  cases sc with
  | sdelete i =>
    cases h
    exact ⟨rfl, rfl⟩
  | sreset i count =>
    cases h
    exact ⟨rfl, rfl⟩
  | _ => cases h

theorem SparesWaiters.of_flush {sc : Syscall} (h : sc.flush = some (sem, w)) : SparesWaiters s (.syscall sc) := by
  cases sc <;> first | exact .of_none rfl | cases h

theorem WaitCall.Sound.flushed (h : Sound s n) (hs : Inv ∅ s) (ht : Inv ∅ t) (hnone : ∀ p, ¬ WaitsFor ∅ t p sem)
    (hw : Waiters ∅ s sem st ps) (hlives : ∀ p, Lives s p → Lives t p) (hroused : Roused t ps) :
    Flushed s t sem w (WaitCall.rouse (woken s t sem) w n) where
  none p := by
    rw [← Bool.not_eq_true, Kernel.waitsFor_iff]
    exact hnone p
  woken p hp := by
    have hwaits := Kernel.waitsFor_iff.1 hp
    have hmem := (hw.mem p).2 hwaits
    obtain ⟨-, x, hx, hstarted, hstate, -⟩ := hwaits
    obtain ⟨k, hk, htells⟩ := h p x hx ⟨hstarted, .inr ⟨trivial, .inl hstate⟩⟩
    obtain rfl := htells.blocked hstate
    constructor
    · rw [WaitCall.rouse, if_pos ((mem_woken hs).2 ⟨Kernel.waitsFor_iff.1 hp, hnone p⟩), hk]
      rfl
    · obtain ⟨y, hy, hys, -⟩ := hlives p ⟨x, hx, hstarted, by rw [hstate]; rfl⟩
      exact ⟨y, hy, ht.ready_place hy hys (hroused p hmem y hy)⟩

/-- `sdelete` and `sreset` wake everybody who waits for the semaphore. -/
theorem Step.flushes {sc : Syscall} (hst : Step s (.syscall sc) t) (hs : Ready s) (h : WaitCall.Sound s n)
    (hf : sc.flush = some (sem, w)) (hc : s.caller = some c) (ha : Answers t c 0 []) :
    Flushed s t sem w (WaitCall.note s (.syscall sc) n) := by
  have hk : SparesWaiters s (.syscall sc) := .of_flush hf
  have ht := hs.step hk.killsAtEnd hst
  obtain ⟨r, hr⟩ := hs.running_of_caller hc
  obtain ⟨hsem, hunits⟩ := Syscall.flush_semaphore hf
  have hlives : ∀ p, Lives s p → Lives t p := fun p hp => hst.lives_sem hs hr hsem hp
  rw [WaitCall.note_call hr hst]
  cases hst.sems hs hk with
  | other hsc _ =>
    rw [Event.semaphore, hsem] at hsc
    cases hsc
  | refused _ hr' hv _ _ hgo =>
    obtain ⟨rfl, rfl⟩ := hr.unique hr'
    have := ha.of_goesOn hgo
    omega
  | signalled _ hm _ _ _ _ _ _ _ _ =>
    rw [hunits] at hm
    cases hm
  | deleted _ _ hw hnone _ hroused _ =>
    cases hf
    exact h.flushed hs.inv ht.inv (fun p => ht.inv.nobody_waits (.inl hnone)) hw hlives hroused
  | reset _ _ hw _ hsem' _ hb _ hroused _ =>
    cases hf
    exact h.flushed hs.inv ht.inv (fun p => ht.inv.nobody_waits (.inr ⟨_, _, hsem', hb⟩)) hw hlives hroused
  | _ => cases hf

/-- A semaphore whose deletion succeeded is no more. -/
theorem Step.gone (hst : Step s (.syscall (.sdelete sem)) t) (hs : Ready s) (hc : s.caller = some c)
    (ha : Answers t c 0 []) : Gone t (toInt32 sem) := by
  obtain ⟨r, hr⟩ := hs.running_of_caller hc
  cases hst.sems hs (.of_none rfl) with
  | other hsc _ => cases hsc
  | refused _ hr' hv _ _ hgo =>
    obtain ⟨rfl, rfl⟩ := hr.unique hr'
    have := ha.of_goesOn hgo
    omega
  | signalled _ hm _ _ _ _ _ _ _ _ => cases hm
  | deleted _ hsem _ hnone hsig _ _ =>
    refine ⟨hnone, ?_⟩
    rw [hsig.counter]
    exact hs.inv.sems.ids _ _ hsem

end

end Xinul
