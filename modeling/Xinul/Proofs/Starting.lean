import Xinul.Proofs.Reaping

/-!
# `start_virtual`

A record is allocated and entered in the table, becomes the last child of the
running process and is chained into the activatable queue. A call that fails
after the record is in the table leaves it there, unstarted, for ever.
-/

namespace Xinul

open Prog Linked

/-! ## Unfinished records -/

/-- Every record was filled in. -/
def AllStarted (s : Kernel) : Prop := ∀ p r, s.heap p = some r → r.started = true

section started

variable {K : Kind} {H H' : Set Ptr} {s s₀ t : Kernel} {c p : Ptr} {r : Process} {k : Context}

theorem AllStarted.congr (h : AllStarted s) (heap : t.heap = s.heap) : AllStarted t := by
  intro p r hp
  rw [heap] at hp
  exact h p r hp

theorem AllStarted.map {f : Process → Process} (h : AllStarted s) (hp : s.heap p = some r)
    (hf : r.started = true → (f r).started = true) : AllStarted (s.mapProc p f) := by
  intro q x hx
  rw [mapProc_heap, hp] at hx
  rcases heap_update_cases hx with ⟨_, hv⟩ | ⟨_, hx⟩
  · cases hv
    exact hf (h p r hp)
  · exact h q x hx

/-- The records of `t` are records of `s`, started or not as they were there. -/
def Kernel.StartedAs (s t : Kernel) : Prop :=
  ∀ q y, t.heap q = some y → ∃ x, s.heap q = some x ∧ y.started = x.started

theorem Kernel.StartedAs.refl (s : Kernel) : s.StartedAs s := fun _ y hy => ⟨y, hy, rfl⟩

theorem Kernel.StartedAs.map {f : Process → Process} (h : s.StartedAs t)
    (hf : ∀ z : Process, (f z).started = z.started) : s.StartedAs (t.mapProc p f) := by
  intro q y hy
  by_cases hq : q = p
  · subst hq
    rw [mapProc_heap, Function.update_self, Option.map_eq_some_iff] at hy
    obtain ⟨z, hz, rfl⟩ := hy
    obtain ⟨x, hx, he⟩ := h q z hz
    exact ⟨x, hx, (hf z).trans he⟩
  · exact h q y (by simpa [hq] using hy)

theorem Act.allStarted (a : Act K H s H' t) (hK : ¬ K.spawn) (h : AllStarted s) : AllStarted t := by
  cases a with
  | write hp same => exact h.map hp same.started.trans
  | set _ hp _ _ _ started => exact h.map hp started.trans
  | link _ hp => exact (h.map hp id).congr rfl
  | unlink hp => exact (h.map hp id).congr rfl
  | reprio hp => exact h.map hp id
  | free =>
    intro q x hx
    rcases heap_update_cases hx with ⟨_, hv⟩ | ⟨_, hx⟩
    · cases hv
    · exact h q x hx
  | alloc _ hsp => exact absurd hsp hK
  | birth _ hp _ hnew => exact h.map hp fun _ => hnew
  | block _ hp => exact AllStarted.congr (h.map hp id) rfl
  | other same => exact h.congr same.heap
  | _ => exact h

theorem Chain.allStarted (ch : Chain K s₀ H s) (hK : ¬ K.spawn) (h : AllStarted s₀) : AllStarted s :=
  ch.induct (P := fun _ s => AllStarted s) h fun _ _ _ _ _ h a => a.allStarted hK h

/-- `scheduler` makes no record. -/
theorem schedule_started (hi : Inv ∅ s) (hc : Caller s c r) (hund : r.nextPrev ≠ some .dead)
    (hk : Saves .any s c r k) (h : AllStarted s) :
    wp (schedule k) (fun _ t => AllStarted t) (fun _ => True) s := by
  refine wp_mono (schedule_done (K := { Kind.any with spawn := False }) (.refl hi) trivial hc hund
    (fun _ _ _ _ _ => trivial) ⟨hk.pointers, hk.final, hk.idle, trivial⟩) ?_ (fun _ _ _ => trivial)
  exact fun _ t _ ht => ht.chain.allStarted id h

end started

section alloc

variable {K : Kind} {H : Set Ptr} {s s₀ t : Kernel} {c p q : Ptr} {r x : Process}

/-- The state with a new record `x` in the table. -/
def Kernel.allocate (s : Kernel) (pids : List Int) (it : Int) (x : Process) : Kernel :=
  { s with
    processIdList := pids
    pidIterator := it
    heap := Function.update s.heap s.nextPtr (some x)
    nextPtr := s.nextPtr + 1
    pidProcessHashTable := Function.update s.pidProcessHashTable x.pid (some s.nextPtr) }

/-- The pid of a new record was recycled or is a new one. -/
structure Kernel.NewPid (s : Kernel) (pids : List Int) (it pid : Int) : Prop where
  range : 1 ≤ pid ∧ pid ≤ it
  iterator : s.pidIterator ≤ it
  unused : s.pidProcessHashTable pid = none
  pool : pids.Sublist s.processIdList
  taken : pid ∉ pids

theorem wp_newRecord {Q : Ptr → Kernel → Prop} {E : Fault → Prop} {garbage : Process} {prio : Int}
    (hi : Inv H s) (hQ : ∀ pids it pid, s.NewPid pids it pid → Q s.nextPtr (s.allocate pids it
      { garbage with pid := pid, prio := prio.toNat, nextPrev := none, started := false })) :
    wp (newRecord garbage prio) Q E s := by
  simp only [newRecord, incrementPidAndGetNewPid, wp_bind, wp_get]
  cases hpids : s.processIdList with
  | nil =>
    simp only [wp_bind, wp_modify, wp_get, wp_pure]
    have hpos := hi.pool.pos
    have hnew : s.NewPid s.processIdList (s.pidIterator + 1) (s.pidIterator + 1) := by
      refine ⟨⟨by omega, le_rfl⟩, by omega, ?_, List.Sublist.refl _, by simp [hpids]⟩
      cases hk : s.pidProcessHashTable (s.pidIterator + 1) with
      | none => rfl
      | some p =>
        obtain ⟨x, hx, hpid⟩ := hi.table _ _ hk
        have := (hi.pool.used p x hx).2
        omega
    exact hQ _ _ _ hnew
  | cons k rest =>
    simp only [wp_bind, wp_modify, wp_pure]
    have hnd := hi.pool.nodup
    rw [hpids, List.nodup_cons] at hnd
    obtain ⟨h1, h2, h3⟩ := hi.pool.free k (by simp [hpids])
    exact hQ _ _ _ ⟨⟨h1, h2⟩, le_rfl, h3, by simp [hpids], hnd.1⟩

theorem Core.ne_next (h : Core H s) (hp : s.heap p = some x) : p ≠ s.nextPtr :=
  (h.fresh p x hp).ne

/-- A new record does not touch the running process. -/
theorem Mid.allocate {pids : List Int} {it : Int} (m : Mid K s₀ H s c r) (ht : K.family) (hsp : K.spawn)
    (hnew : s.NewPid pids it x.pid) (hst : x.started = false) (hn : x.nextPrev = none) :
    Mid K s₀ H (s.allocate pids it x) c r := by
  have hc := m.inv.ne_next m.running.heap
  have hpid : s.currentRunningProcessPid ≠ x.pid := by
    intro he
    have := m.running.table
    rw [he, hnew.unused] at this
    cases this
  refine m.step (.alloc ht hsp hst hn hnew.range hnew.iterator hnew.unused hnew.pool hnew.taken)
    (by simp [Kernel.allocate, hc]) (by simp [Kernel.allocate, hpid]) rfl rfl m.mine ?_
  intro q y hy hyn hyo
  rcases heap_update_cases hy with ⟨_, hv⟩ | ⟨_, hy⟩
  · cases hv
    rw [hn] at hyn
    cases hyn
  · exact m.wakes q y hy hyn hyo

section born

variable {pids : List Int} {it : Int} {q : Ptr} {y : Process}

theorem allocate_heap (hi : Core H s) (hq : s.heap q = some y) : (s.allocate pids it x).heap q = some y := by
  simp [Kernel.allocate, hi.ne_next hq, hq]

theorem heap_of_allocate (hst : x.started = false) (hq : (s.allocate pids it x).heap q = some y) (hy : y.started = true) :
    s.heap q = some y := by
  rcases heap_update_cases hq with ⟨_, hv⟩ | ⟨_, hq⟩
  · cases hv
    rw [hst] at hy
    cases hy
  · exact hq

/-- A new record is nobody's child before it is started. -/
theorem childOf_allocate {a u : Ptr} (hi : Core H s) (hst : x.started = false) :
    (s.allocate pids it x).ChildOf a u ↔ s.ChildOf a u := by
  constructor
  · rintro ⟨y, hy, hys, hyp⟩
    exact ⟨y, heap_of_allocate hst hy hys, hys, hyp⟩
  · rintro ⟨y, hy, hys, hyp⟩
    exact ⟨y, allocate_heap hi hy, hys, hyp⟩

theorem Children.allocate {u : Ptr} {z : Process} {cs : List Ptr} (h : Children s u z cs) (hi : Core H s)
    (hst : x.started = false) : Children (s.allocate pids it x) u z cs := by
  refine ⟨h.chain.congr fun a ha => ?_, h.tail, fun a => by rw [childOf_allocate hi hst, h.mem]⟩
  obtain ⟨y, hy, _⟩ := (h.mem a).1 ha
  simp [Kernel.sibling, allocate_heap hi hy, hy]

theorem Children.not_next {u : Ptr} {z : Process} {cs : List Ptr} (h : Children s u z cs) (hi : Core H s) :
    s.nextPtr ∉ cs := by
  intro hmem
  obtain ⟨y, hy, _⟩ := (h.mem _).1 hmem
  exact hi.ne_next hy rfl

end born

/-- A record that is not started is no member of the family. -/
theorem Family.allocate {pids : List Int} {it : Int} (h : Family s) (hi : Core H s)
    (hst : x.started = false) : Family (s.allocate pids it x) := by
  have back : ∀ q y, (s.allocate pids it x).heap q = some y → y.started = true → s.heap q = some y :=
    fun _ _ hy hys => heap_of_allocate hst hy hys
  have child : ∀ a u, (s.allocate pids it x).ChildOf a u ↔ s.ChildOf a u := fun _ _ => childOf_allocate hi hst
  refine ⟨?_, ?_, ?_, ?_, ?_, ?_, ?_⟩
  · intro u z hz hzs hzd
    obtain ⟨cs, hcs⟩ := h.children u z (back u z hz hzs) hzs hzd
    exact ⟨cs, hcs.allocate hi hst⟩
  · intro a u hau
    obtain ⟨y, hy, hys⟩ := h.parents a u ((child a u).1 hau)
    exact ⟨y, allocate_heap hi hy, hys⟩
  · exact fun a u hau => h.older a u ((child a u).1 hau)
  · exact fun u z hz hzs => h.killed u z (back u z hz hzs) hzs
  · intro u z a hz hzs hzd ha
    obtain ⟨hnone, hlt⟩ := h.swept u z a (back u z hz hzs) hzs hzd ha
    have hne : a ≠ s.nextPtr := hlt.ne
    exact ⟨by simp [Kernel.allocate, hne, hnone], Nat.lt_succ_of_lt hlt⟩
  · exact fun u z a hz hzs hzd hctx => (child a u).2 (h.starts u z a (back u z hz hzs) hzs hzd hctx)
  · intro u z a b v hz hzs hzd hctx
    obtain ⟨cs, hcs, hb⟩ := h.waits u z a b v (back u z hz hzs) hzs hzd hctx
    exact ⟨cs, hcs.allocate hi hst, hb⟩

end alloc

/-! ## Tree management -/

section attach

variable {K : Kind} {F : Prop} {s s₀ u t : Kernel} {c p q : Ptr} {r r' x z : Process} {cs : List Ptr}

/-- The process at `p` was put at the end of the list of the children `cs` of the
one at `c`, whose record is `r'` now; what comes after `p` is not written yet. -/
structure Appended (u t : Kernel) (c : Ptr) (cs : List Ptr) (p : Ptr) (r' : Process) : Prop where
  kin : Relinked u t c cs p
  chain : Seg t.sibling r'.childrenHead cs (some p)
  tail : r'.childrenTail = some p
  next : t.nextPtr = u.nextPtr

/-- The state `t` after the unstarted record `x` at `p` was made the last child of
the running process, whose record is `r'` now. -/
structure Attached (K : Kind) (s₀ u t : Kernel) (c : Ptr) (r r' : Process) (p : Ptr) (x z : Process) : Prop where
  mid : Mid K s₀ ∅ t c r'
  table : t.pidProcessHashTable = u.pidProcessHashTable
  prio : r'.prio = r.prio
  heap : t.heap p = some z
  started : z.started = false
  pid : z.pid = x.pid
  prio' : z.prio = x.prio
  link : z.nextPrev = x.nextPrev
  parent : z.parent = some c
  records : u.StartedAs t

theorem Relinked.map {f : Process → Process} (hq : u.heap q = some x) (hk : Process.Kin c cs q x (f x)) :
    Relinked u (u.mapProc q f) c cs p := by
  have := KinState.map hq hk
  exact ⟨fun a y _ hy => this.here a y hy, fun a y _ hy => this.back a y hy⟩

theorem Relinked.trans (h : Relinked s u c cs p) (h' : Relinked u t c cs p) : Relinked s t c cs p where
  here q x hq hx := by
    obtain ⟨y, hy, hk⟩ := h.here q x hq hx
    obtain ⟨w, hw, hk'⟩ := h'.here q y hq hy
    exact ⟨w, hw, hk.trans hk'⟩
  back q w hq hw := by
    obtain ⟨y, hy, hk'⟩ := h'.back q w hq hw
    obtain ⟨x, hx, hk⟩ := h.back q y hq hy
    exact ⟨x, hx, hk.trans hk'⟩

/-- What is written in the record at `p` itself does not matter. -/
theorem Relinked.write {f : Process → Process} : Relinked u (u.mapProc p f) c cs p where
  here q x hq hx := ⟨x, by simp [hq, hx], .refl⟩
  back q x hq hx := ⟨x, by simpa [hq] using hx, .refl⟩

theorem Mid.wp_attachToParent {Q : Unit → Kernel → Prop} (m : Mid K s₀ ∅ u c r) (ht : K.family)
    (hp : u.heap p = some x) (hst : x.started = false) (hsafe : K.usesFreed ∨ F)
    (hcs : F → Children u c r cs ∧ p ∉ cs ∧ ∀ q ∈ cs, c < q)
    (hQ : ∀ t r' z, Attached K s₀ u t c r r' p x z → (F → Appended u t c cs p r') → Q () t) :
    wp (attachToParent p) Q K.Allows u := by
  have hpc : p ≠ c := by
    rintro rfl
    rw [m.running.heap] at hp
    cases hp
    rw [m.running.started] at hst
    cases hst
  simp only [attachToParent, wp_bind, wp_getCurrentProcess, m.running.table, wp_modifyProc hp]
  have m1 : Mid K s₀ ∅ (u.mapProc p fun r => { r with parent := some c }) c r :=
    m.write hp hpc.symm ⟨rfl, rfl, rfl, rfl, rfl, rfl⟩ rfl rfl rfl
      (.inl ⟨ht, fun h => by rw [hst] at h; cases h⟩) rfl
  have hp1 : (u.mapProc p fun r => { r with parent := some c }).heap p = some { x with parent := some c } := by
    simp [hp]
  rw [wp_deref m1.running.heap]
  have hsib : ∀ q ∈ cs, F → (u.mapProc p fun r => { r with parent := some c }).sibling q = u.sibling q := by
    intro q hq hf
    have hqp : q ≠ p := by
      rintro rfl
      exact (hcs hf).2.1 hq
    simp [Kernel.sibling, hqp]
  cases htail : r.childrenTail with
  | none =>
    rw [wp_modifyProc m1.running.heap]
    refine hQ _ _ { x with parent := some c } ⟨m1.writeSelf ⟨rfl, rfl, rfl, rfl, rfl, rfl⟩ rfl rfl rfl
      (.inl ⟨ht, fun _ => rfl⟩) rfl, rfl, rfl, by simp [hpc, hp], hst, rfl, rfl, rfl, rfl,
      .map (.map (.refl u) fun _ => rfl) fun _ => rfl⟩ fun hf => ?_
    obtain rfl : cs = [] := List.getLast?_eq_none_iff.1 ((hcs hf).1.tail.symm.trans htail)
    refine ⟨.trans .write (.map m1.running.heap ⟨rfl, rfl, rfl, fun h => absurd rfl h, fun _ => rfl⟩), rfl, rfl, rfl⟩
  | some tail =>
    simp only [wp_bind]
    have hlive : K.usesFreed ∨ ∃ y, (u.mapProc p fun r => { r with parent := some c }).heap tail = some y := by
      refine hsafe.imp id fun hf => ?_
      have hmem : tail ∈ cs := List.mem_of_getLast? ((hcs hf).1.tail.symm.trans htail)
      obtain ⟨y, hy, _⟩ := ((hcs hf).1.mem tail).1 hmem
      exact ⟨_, mapProc_heap_some hy⟩
    refine wp_modifyProc_or hlive fun y hy => ?_
    have m2 := m1.writeLinks (f := fun r => { r with nextSibling := some p }) ht hy fun _ => rfl
    rw [wp_modifyProc m2.running.heap]
    refine hQ _ _ _ ⟨m2.writeSelf ⟨rfl, rfl, rfl, rfl, rfl, rfl⟩ rfl rfl rfl (.inl ⟨ht, fun _ => rfl⟩) rfl, rfl, ?_,
      (mapProc_heap_some (mapProc_heap_some hp1)).trans (by rw [if_neg hpc]), ?_, ?_, ?_, ?_, ?_,
      .map (.map (.map (.refl u) fun _ => rfl) fun _ => rfl) fun _ => rfl⟩ fun hf => ?_
    · split <;> rfl
    · split <;> exact hst
    · split <;> rfl
    · split <;> rfl
    · split <;> rfl
    · split <;> rfl
    · obtain ⟨hc, hpcs, hold⟩ := hcs hf
      have hlast := hc.tail.symm.trans htail
      obtain ⟨l, rfl⟩ := List.getLast?_eq_some_iff.1 hlast
      have hct : c ≠ tail := (hold tail (by simp)).ne
      rw [if_neg hct.symm] at m2 ⊢
      refine ⟨.trans .write (.trans (.map hy ⟨rfl, rfl, rfl, fun _ => ⟨rfl, rfl, rfl⟩, fun h => absurd (by simp) h⟩)
        (.map m2.running.heap ⟨rfl, rfl, rfl, fun h => absurd rfl h, fun _ => rfl⟩)), ?_, rfl, rfl⟩
      have hnd := hc.chain.nodup
      obtain ⟨b, hl, rfl, hend⟩ := seg_append.1 hc.chain
      rw [sibling_mapProc m2.running.heap, sibling_mapProc hy]
      refine seg_append.2 ⟨some tail, hl.congr fun e he => ?_, rfl, ?_⟩
      · have het : e ≠ tail := by
          rintro rfl
          rw [List.nodup_append] at hnd
          exact hnd.2.2 e he e (by simp) rfl
        have hec : e ≠ c := (hold e (by simp [he])).ne'
        simp only [Function.update_of_ne hec, Function.update_of_ne het]
        exact hsib e (by simp [he]) hf
      · simp [hct.symm]

/-- The family after the new process was started. -/
theorem Appended.family {k : Context} (h : Appended u t c cs p r') (hfam : Family s)
    (heap : ∀ q, q ≠ p → u.heap q = s.heap q) (hnew : s.heap p = none) (hnext : s.nextPtr = p)
    (hle : s.nextPtr ≤ u.nextPtr) (hc : s.heap c = some r) (hcd : r.started = true ∧ r.state.dead = false)
    (hcs : Children s c r cs) (hcp : c < p) (hr : t.heap c = some r')
    (hp : t.heap p = some x) (hst : x.started = true) (hd : x.state.dead = false) (hpar : x.parent = some c)
    (hempty : x.childrenHead = none ∧ x.childrenTail = none) (hlast : x.nextSibling = none)
    (hctx : x.context.pointers = []) (hk : k.pointers = [] ∨ k = .start p) :
    Family (t.mapProc c fun r => { r with context := k }) := by
  have hkin : Relinked s (t.mapProc c fun r => { r with context := k }) c cs p := by
    have hsu : Relinked s u c cs p :=
      ⟨fun q y hq hy => ⟨y, by rw [heap q hq, hy], .refl⟩, fun q y hq hy => ⟨y, by rw [← heap q hq, hy], .refl⟩⟩
    exact hsu.trans (h.kin.trans (.map hr ⟨rfl, rfl, rfl, fun h => absurd rfl h, fun _ => rfl⟩))
  have hsib : (t.mapProc c fun r => { r with context := k }).sibling = t.sibling := by
    rw [sibling_mapProc hr, Function.update_eq_self_iff]
    simp [Kernel.sibling, hr]
  exact hfam.attach (x := x) (y := { r' with context := k })
    { others := hkin
      parent := hc
      alive := hcd
      children := hcs
      fresh := hnew
      older := hcp
      record := by simp [hcp.ne', hp]
      started := hst
      living := hd
      child := hpar
      empty := hempty
      context := hctx
      new := hnext
      next := by
        rw [mapProc_nextPtr, h.next]
        exact hle
      written := by simp [hr]
      starting := hk
      chain := by
        rw [hsib]
        exact seg_append.2 ⟨some p, h.chain, rfl, by simp [Kernel.sibling, hp, hlast]⟩
      tail := h.tail }

end attach

/-! ## The system call -/

section start

variable {K : Kind} {F G : Prop} {s s₀ u t : Kernel} {c p q : Ptr} {r r' x z : Process} {cs : List Ptr}

theorem Appended.alike {f : Process → Process} (h : Appended u t c cs p r') (hp : t.heap p = some z)
    (hpcs : p ∉ cs) {w : Kernel} (heap : w.heap = (t.mapProc p f).heap) (next : w.nextPtr = t.nextPtr) :
    Appended u w c cs p r' where
  kin := by
    have h1 : Relinked u (t.mapProc p f) c cs p := h.kin.trans .write
    exact ⟨fun q y hq hy => by rw [heap]; exact h1.here q y hq hy,
      fun q y hq hy => by rw [heap] at hy; exact h1.back q y hq hy⟩
  chain := by
    refine h.chain.congr fun q hq => ?_
    have hqp : q ≠ p := by
      rintro rfl
      exact hpcs hq
    simp [Kernel.sibling, heap, hqp]
  tail := h.tail
  next := next.trans h.next

/-- The record of a process that was just started by the one at `c`. -/
structure Fledgling (c : Ptr) (y : Process) : Prop where
  started : y.started = true
  state : y.state = .activatable
  parent : y.parent = some c
  head : y.childrenHead = none
  tail : y.childrenTail = none
  sibling : y.nextSibling = none
  context : y.context = .user none

theorem Fledgling.alive {y : Process} (h : Fledgling c y) : y.state.dead = false := by
  rw [h.state]
  rfl

/-- The state `w` after the unstarted record `x` at `p` was filled in and chained into
the activatable queue. -/
structure Born (K : Kind) (s₀ u w : Kernel) (c : Ptr) (r' : Process) (p : Ptr) (x y : Process) : Prop where
  resched : Mid K s₀ ∅ w c r'
  quiet : x.prio ≤ r'.prio → Mid K.quiet s₀ ∅ w c r'
  heap : w.heap p = some y
  young : Fledgling c y
  table : w.pidProcessHashTable = u.pidProcessHashTable
  records : ∀ q e, q ≠ p → w.heap q = some e → ∃ e', u.heap q = some e' ∧ e.started = e'.started

/-- What `start_virtual` writes in the record once it is on the list of its parent. -/
def Process.born (r : Process) : Process :=
  { r with
    context := .user none
    childrenHead := none
    childrenTail := none
    nextSibling := none
    returnValue := 0
    semSignal := 0
    state := .activatable
    started := true }

/-- `start_virtual`, up to its choice of who runs next. -/
theorem Mid.wp_startBorn {k : KernelM Unit} {Q : Unit → Kernel → Prop} (m : Mid K.quiet s₀ ∅ u c r) (hl : K.resched)
    (ht : K.family) (hp : u.heap p = some x) (hst : x.started = false) (hn : x.nextPrev = none) (hsafe : K.usesFreed ∨ F)
    (hcs : F → Children u c r cs ∧ p ∉ cs ∧ ∀ q ∈ cs, c < q)
    (hQ : ∀ w r' y, Born K s₀ u w c r' p x y → (F → Appended u w c cs p r') → wp k Q K.Allows w) :
    wp (do
      attachToParent p
      modifyProc p Process.born
      queueAdd p .activatable Process.prioField
      k) Q K.Allows u := by
  have hpc : p ≠ c := by
    rintro rfl
    rw [m.running.heap] at hp
    cases hp
    rw [m.running.started] at hst
    cases hst
  rw [wp_bind]
  refine m.wp_attachToParent (F := F) ht hp hst hsafe hcs fun t r' z hat happ => ?_
  have m2 : Mid K.quiet s₀ (insert p ∅) (t.mapProc p Process.born) c r' := by
    refine hat.mid.step (.birth ht hat.heap hat.started rfl rfl rfl rfl rfl (fun h => by cases h) fun q hq => ?_) (by simp [hpc.symm]) rfl rfl
      rfl (by simp [hpc.symm]) (hat.mid.wakes.mapProc fun y _ => ⟨rfl, rfl⟩)
    obtain rfl : c = q := Option.some.inj (hat.parent.symm.trans hq)
    refine ⟨hat.mid.inv.fresh c r' hat.mid.running.heap, fun y hy => ?_⟩
    rw [hat.mid.running.heap] at hy
    cases hy
    exact hat.mid.running.started
  have hp2 : (t.mapProc p Process.born).heap p = some z.born := by simp [hat.heap]
  have hfit : ({ z.born with nextPrev := some .activatable, stamp := (t.mapProc p Process.born).insertions } :
      Process).Fits (t.mapProc p Process.born).currentRunningProcessPid := by simp [Process.Fits, Process.born]
  rw [wp_bind, wp_modifyProc hat.heap, wp_bind]
  refine wp_queueAdd m2.inv.toCore hp2 (hat.link.trans hn) rfl ?_
  generalize hw : (t.mapProc p Process.born).link p .activatable ((t.mapProc p Process.born).inserted p z.born
    .activatable) = w
  refine hQ w r' { z.born with nextPrev := some .activatable, stamp := (t.mapProc p Process.born).insertions } ?_ ?_
  · refine ⟨?_, fun hle => ?_, ?_, ⟨rfl, rfl, hat.parent, rfl, rfl, rfl, rfl⟩, ?_, fun q e hq he => ?_⟩
    · rw [← hw]
      exact (m2.mono (Kind.quiet_le hl)).enqueue (by simp) hp2 hfit (.inl rfl) (.inl hl)
    · rw [← hw]
      exact m2.enqueue (by simp) hp2 hfit (.inl rfl) (.inr (hat.prio'.trans_le hle))
    · rw [← hw]
      simp [hat.heap]
    · rw [← hw]
      exact hat.table
    · rw [← hw] at he
      exact hat.records q e (by simpa [hq] using he)
  · intro hF
    have hpcs := (hcs hF).2.1
    have h1 := (happ hF).alike (f := Process.born) hat.heap hpcs (w := t.mapProc p Process.born) rfl rfl
    exact h1.alike (f := fun r => { r with
      nextPrev := some .activatable, stamp := (t.mapProc p Process.born).insertions }) hp2 hpcs (w := w)
      (by rw [← hw]; rfl) (by rw [← hw]; rfl)

/-- The end of `start_virtual`. -/
theorem Mid.wp_startFinish {prio : Int} (m : Mid K.quiet s₀ ∅ u c r) (cs : List Ptr) (hl : K.resched) (ht : K.family)
    (hu : u.pidProcessHashTable idleId ≠ some c) (hp : u.heap p = some x) (hst : x.started = false)
    (hn : x.nextPrev = none) (hprio : x.prio = prio.toNat) (hsafe : K.usesFreed ∨ F)
    (hcs : F → Children u c r cs ∧ p ∉ cs ∧ ∀ q ∈ cs, c < q)
    (hG : G → ∀ q y, u.heap q = some y → q ≠ p → y.started = true)
    (hfam : ∀ t r' y k, F → Appended u t c cs p r' → t.heap c = some r' → t.heap p = some y → Fledgling c y →
      (k.pointers = [] ∨ k = .start p) → Family (t.mapProc c fun r => { r with context := k })) :
    wp (startFinish p prio) (fun _ t => Done K s₀ t ∧ (F → Family t) ∧ (G → AllStarted t)) K.Allows u := by
  refine m.wp_startBorn (F := F) hl ht hp hst hn hsafe hcs fun w r' y hb happ => ?_
  have hrun := hb.resched.running
  have hidle : w.pidProcessHashTable idleId ≠ some c := hb.table ▸ hu
  have hwF : ∀ k : Context, (k.pointers = [] ∨ k = .start p) → F → Family (w.mapProc c fun r => { r with context := k }) :=
    fun k hk hF => hfam w r' y k hF (happ hF) hrun.heap hb.heap hb.young hk
  have hstarted : G → AllStarted w := by
    intro hg q e he
    by_cases hq : q = p
    · subst hq
      rw [hb.heap] at he
      cases he
      exact hb.young.started
    · obtain ⟨e', he', heq⟩ := hb.records q e hq he
      exact heq.trans (hG hg q e' he' hq)
  -- who runs next depends on the priorities
  simp only [wp_bind, wp_getpid, getprio, wp_getProcessStructOfPid, hrun.table, wp_validate hrun.heap,
    hrun.state, ProcessState.dead, Bool.false_eq_true, if_false, show ¬ ((0 : Int) < 0) by decide,
    wp_derefOpt hrun.heap, wp_pure]
  by_cases hlt : (r'.prio : Int) < prio
  · rw [if_pos ⟨by omega, hlt⟩]
    have hnd : r'.nextPrev ≠ some .dead := by rw [hb.resched.unlinked]; exact fun h => by cases h
    have hk : ∀ L : Kind, L.family → L.acts c → Saves L w c r' (.start p) :=
      fun L hL ha => ⟨.inl hL, (fun h => by cases h), fun hi => absurd hi hidle, ha⟩
    have hdone := hb.resched.wp_schedule hl (hk K ht hb.resched.acts)
    have family : wp (schedule (.start p)) (fun _ t => F → Family t) (fun _ => True) w := wp_imp fun hF =>
      schedule_family hb.resched.inv hrun.caller hnd (hk _ trivial trivial) (hwF (.start p) (.inr rfl) hF)
    have started : wp (schedule (.start p)) (fun _ t => G → AllStarted t) (fun _ => True) w := wp_imp fun hg =>
      schedule_started hb.resched.inv hrun.caller hnd (hk _ trivial trivial) (hstarted hg)
    exact wp_and hdone (wp_and family started)
  · rw [if_neg (by omega), wp_bind, wp_deref hb.heap]
    have family : wp (answer y.pid []) (fun _ t => F → Family t) (fun _ => True) w := by
      simp only [answer, saveContext, wp_bind, wp_getCurrentProcess, hrun.table, wp_modifyProc hrun.heap]
      exact hwF _ (.inl rfl)
    have started : wp (answer y.pid []) (fun _ t => G → AllStarted t) (fun _ => True) w := by
      simp only [answer, saveContext, wp_bind, wp_getCurrentProcess, hrun.table, wp_modifyProc hrun.heap]
      exact fun hg => (hstarted hg).map hrun.heap id
    exact wp_and ((hb.quiet (by omega)).wp_answer hl _ _) (wp_and family started)

/-- `start_virtual`, once it has its record and all its memory. -/
theorem Mid.wp_startNew {pids : List Int} {it prio : Int} (m : Mid K.quiet s₀ ∅ u c r) (hl : K.resched) (ht : K.family)
    (hsp : K.spawn) (hnew : u.NewPid pids it x.pid) (hst : x.started = false) (hn : x.nextPrev = none)
    (hprio : x.prio = prio.toNat) (hu : u.pidProcessHashTable idleId ≠ some c) (hsafe : K.usesFreed ∨ F)
    (hfam : F → Family u) (hG : G → AllStarted u) :
    wp (startFinish u.nextPtr prio) (fun _ t => Done K s₀ t ∧ (F → Family t) ∧ (G → AllStarted t)) K.Allows
      (u.allocate pids it x) := by
  obtain ⟨cs, hcs⟩ := exists_list_of_imp fun hf =>
    (hfam hf).children c r m.running.heap m.running.started (by rw [m.running.state]; rfl)
  have hi := m.inv.toCore
  have hnone : u.heap u.nextPtr = none := by
    cases hx : u.heap u.nextPtr with
    | none => rfl
    | some y => exact absurd rfl (hi.ne_next hx)
  have hheap : ∀ q, q ≠ u.nextPtr → (u.allocate pids it x).heap q = u.heap q := fun q hq => by simp [Kernel.allocate, hq]
  have hidle : (u.allocate pids it x).pidProcessHashTable idleId ≠ some c := by
    have hne : idleId ≠ x.pid := by
      intro he
      obtain ⟨i, _, hi', _⟩ := hi.idle
      rw [he, hnew.unused] at hi'
      cases hi'
    simpa [Kernel.allocate, hne] using hu
  refine (m.allocate ht hsp hnew hst hn).wp_startFinish (F := F) cs hl ht hidle (by simp [Kernel.allocate]) hst hn hprio
    hsafe (fun hf => ?_) (fun hg q y hy hq => hG hg q y ((hheap q hq).symm.trans hy))
    (fun t r' y k hf happ hc hy hyoung hk => ?_)
  · exact ⟨(hcs hf).allocate hi hst, (hcs hf).not_next hi, fun q hq => (hfam hf).older q c (((hcs hf).mem q).1 hq)⟩
  · refine happ.family (hfam hf) hheap hnone rfl (Nat.le_succ _) m.running.heap
      ⟨m.running.started, by rw [m.running.state]; rfl⟩ (hcs hf) (hi.fresh c r m.running.heap) hc hy
      hyoung.started hyoung.alive hyoung.parent ⟨hyoung.head, hyoung.tail⟩ hyoung.sibling
      (by rw [hyoung.context]; rfl) hk

/-- A call of `start_virtual` that fails once the record is in the table. -/
def Kernel.Stillborn (s : Kernel) (name : List UInt8) (ssize : Nat) (prio : Int) (env : StartEnv) : Prop :=
  s.nbProcRunning + 1 ≤ maxNbProcess ∧ (prio ≤ maxPrio ∧ prio ≥ minPrio) ∧ ssize ≠ 0 ∧ name ∈ s.symbolsTable ∧
    env.record ≠ none ∧ startAllocs name ssize env = false

/-- `start_virtual`. -/
theorem startVirtual_done (m : Mid K.quiet s₀ ∅ s c r) (hl : K.resched) (ht : K.family) (hn : K.spawn)
    (hu : s.pidProcessHashTable idleId ≠ some c) (hsafe : K.usesFreed ∨ F) (hfam : F → Family s)
    (name : Option (List UInt8)) (ssize : Nat) (prio : Int) (env : StartEnv)
    (hG : G → AllStarted s ∧ ∀ n, name = some n → ¬ s.Stillborn n ssize prio env) :
    wp (startVirtual name ssize prio env) (fun _ t => Done K s₀ t ∧ (F → Family t) ∧ (G → AllStarted t))
      K.Allows s := by
  have fail : ∀ {u : Kernel}, Mid K.quiet s₀ ∅ u c r → (F → Family u) → (G → AllStarted u) →
      wp (answer (-1) []) (fun _ t => Done K s₀ t ∧ (F → Family t) ∧ (G → AllStarted t)) K.Allows u := by
    intro u m1 hfam1 hst
    have started : wp (answer (-1) []) (fun _ t => G → AllStarted t) (fun _ => True) u := by
      simp only [answer, saveContext, wp_bind, wp_getCurrentProcess, m1.running.table, wp_modifyProc m1.running.heap]
      exact fun hg => (hst hg).map m1.running.heap id
    refine wp_mono (wp_and (m1.wp_answerFamily hl hfam1 _ _) started) ?_ (fun _ _ h => h)
    exact fun _ _ _ h => ⟨h.1.1, h.1.2, h.2⟩
  rw [startVirtual.eq_def]
  cases name with
  | none => exact fail m hfam fun hg => (hG hg).1
  | some name =>
    simp only [wp_bind, wp_get]
    by_cases hmany : s.nbProcRunning + 1 > maxNbProcess
    · rw [if_pos hmany]
      exact fail m hfam fun hg => (hG hg).1
    rw [if_neg hmany]
    generalize hs1 : ({ s with nbProcRunning := s.nbProcRunning + 1 } : Kernel) = s1
    have m1 : Mid K.quiet s₀ ∅ s1 c r := by
      subst hs1
      exact m.other (by constructor <;> rfl) rfl rfl
    have hfam1 : F → Family s1 := fun hf => (hfam hf).alike (.of_heap (by subst hs1; rfl) (by subst hs1; rfl))
    have hu1 : s1.pidProcessHashTable idleId ≠ some c := by
      subst hs1
      exact hu
    have hG1 : G → AllStarted s1 := fun hg => (hG hg).1.congr (by subst hs1; rfl)
    have fails := fail m1 hfam1 hG1
    rw [wp_bind, wp_modify, hs1]
    simp only [wp_bind, wp_getpid, wp_getCurrentProcess, m1.running.table,
      wp_validate m1.running.heap, m1.running.state, ProcessState.dead, Bool.false_eq_true, if_false,
      show ¬ ((0 : Int) < 0) by decide, and_false]
    by_cases hp : prio ≤ maxPrio ∧ prio ≥ minPrio
    swap
    · rw [if_pos hp]
      exact fails
    rw [if_neg (not_not.2 hp)]
    by_cases hsize : ssize = 0
    · rw [if_pos hsize]
      exact fails
    rw [if_neg hsize]
    simp only [wp_bind, wp_get]
    by_cases hname : name ∉ s1.symbolsTable
    · rw [if_pos hname]
      exact fails
    rw [if_neg hname]
    cases hrec : env.record with
    | none => exact fails
    | some garbage =>
      rw [wp_bind]
      refine wp_newRecord m1.inv fun pids it pid hnew => ?_
      have m2 := m1.allocate (x := { garbage with pid := pid, prio := prio.toNat, nextPrev := none, started := false })
        ht hn hnew rfl rfl
      by_cases hok : startAllocs name ssize env = true
      swap
      · rw [if_neg hok]
        refine fail m2 (fun hf => (hfam1 hf).allocate m1.inv.toCore rfl) fun hg => absurd ?_ ((hG hg).2 name rfl)
        refine ⟨by omega, hp, hsize, ?_, by simp [hrec], by simpa using hok⟩
        subst hs1
        exact not_not.1 hname
      rw [if_pos hok]
      exact m1.wp_startNew hl ht hn hnew rfl rfl rfl hu1 hsafe hfam1 hG1

/-- `start_virtual`, after the `scheduler` at its end. -/
theorem startResume_done (m : Mid K.quiet s₀ ∅ s c r) (hl : K.resched) (hfam : F → Family s)
    (hp : K.usesFreed ∨ ∃ x, s.heap p = some x) :
    wp (startResume p) (fun _ t => Done K s₀ t ∧ (F → Family t)) K.Allows s := by
  rw [startResume, wp_bind]
  exact wp_deref_or hp fun x _ => m.wp_answerFamily hl hfam _ _

end start

end Xinul
