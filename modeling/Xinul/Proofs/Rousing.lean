import Xinul.Proofs.Apart

/-!
# Processes woken from a semaphore

How a call of `semaphore_api.c` changes the semaphore it is about and the records of
the processes in `wait`.
-/

namespace Xinul

open Prog

/-- The record `y` is `x` as far as calls go. -/
theorem Process.Since.of_call {M W : Prop} {x y : Process} (h : y.call = x.call) (hs : y.started = true) :
    x.Since M W y := by
  simp only [Process.call, Prod.mk.injEq] at h
  obtain ⟨h1, h2, h3, h4, h5, h6⟩ := h
  exact ⟨h1 ▸ hs, fun _ => h4, fun _ h => h2 ▸ h, fun _ _ => h3.symm, fun _ => ⟨h5, h6.1⟩, fun _ h => h2 ▸ h,
    fun _ h => h3 ▸ h⟩

/-- Only the record at `b` changes. -/
def writing (b : Ptr) (f : Process → Process) (p : Ptr) (x : Process) : Process := if p = b then f x else x

/-- The processes in `l` are woken with the signal `v`. -/
def rousing (l : List Ptr) (v : Int) (p : Ptr) (x : Process) : Process :=
  if p ∈ l then { x with state := .activatable, semSignal := v } else x

/-- No semaphore but `sem` changed, and the records were written as `g` tells. -/
structure Wrote (s t : Kernel) (sem : Int) (g : Ptr → Process → Process) : Prop where
  others : ∀ i, i ≠ sem → t.semaphoreTable i = s.semaphoreTable i
  lists : ∀ i st ns ps, i ≠ sem → s.semaphoreTable i = some st → Blocked s st ns ps → Blocked t st ns ps
  counter : t.semaphoreIdCounter = s.semaphoreIdCounter
  heap : ∀ p y, t.heap p = some y → ∃ x, s.heap p = some x ∧ y.call = (g p x).call

/-- No semaphore but `sem` changed, and the records in `wait` were written as `g` tells. -/
structure Signals (s t : Kernel) (sem : Int) (g : Ptr → Process → Process) : Prop where
  others : ∀ i, i ≠ sem → t.semaphoreTable i = s.semaphoreTable i
  lists : ∀ i st ns ps, i ≠ sem → s.semaphoreTable i = some st → Blocked s st ns ps → Blocked t st ns ps
  counter : t.semaphoreIdCounter = s.semaphoreIdCounter
  records : ∀ p y, t.heap p = some y → y.Parked False True → ∃ x, s.heap p = some x ∧ (g p x).Since False True y

section

variable {s t u : Kernel} {p : Ptr} {x y : Process} {sem v : Int} {l l' : List Ptr} {g : Ptr → Process → Process}

/-- One record was written. -/
theorem heap_writing {b : Ptr} {f : Process → Process} (hb : s.heap b = some x)
    (others : ∀ p, p ≠ b → t.heap p = s.heap p) (call : (t.heap b).map Process.call = some (f x).call) :
    ∀ p z, t.heap p = some z → ∃ x, s.heap p = some x ∧ z.call = (writing b f p x).call := by
  intro p z hz
  by_cases hp : p = b
  · subst hp
    rw [hz] at call
    exact ⟨x, hb, by rw [writing, if_pos rfl]; exact Option.some.inj call⟩
  · exact ⟨z, others p hp ▸ hz, by rw [writing, if_neg hp]⟩

/-- The blocked lists are as they were. -/
theorem Blocked.apart {M : Prop} {st : Semaphore} {ns : List NodePtr} {ps : List Ptr} (h : Blocked s st ns ps)
    (ha : Apart M True s t) : Blocked t st ns ps := by
  obtain ⟨-, hnode, hnext, -⟩ := ha.sems trivial
  exact h.congr (fun n _ => by rw [hnode]) hnext.symm.le

/-- The nodes are as they were. -/
theorem Wrote.of_nodes (node : t.node = s.node) (next : t.nextNode = s.nextNode)
    (others : ∀ i, i ≠ sem → t.semaphoreTable i = s.semaphoreTable i) (counter : t.semaphoreIdCounter = s.semaphoreIdCounter)
    (heap : ∀ p y, t.heap p = some y → ∃ x, s.heap p = some x ∧ y.call = (g p x).call) : Wrote s t sem g :=
  ⟨others, fun _ _ _ _ _ _ hb => hb.congr (fun n _ => by rw [node]) next.symm.le, counter, heap⟩

theorem Wrote.refl : Wrote s s sem fun _ x => x :=
  .of_nodes rfl rfl (fun _ _ => rfl) rfl fun _ y hy => ⟨y, hy, rfl⟩

theorem rousing_nil : rousing [] v = fun _ x => x := by
  funext p x
  simp [rousing]

theorem rousing_call (h : y.call = (rousing l v p x).call) :
    (rousing l' v p y).call = (rousing (l ++ l') v p x).call := by
  by_cases hl' : p ∈ l'
  · by_cases hl : p ∈ l
    · simp_all [rousing, Process.call]
    · simp_all [rousing, Process.call]
  · simpa [rousing, hl'] using h

/-- Some processes are woken, then some others. -/
theorem Wrote.rouse (h : Wrote s u sem (rousing l v)) (h' : Wrote u t sem (rousing l' v)) :
    Wrote s t sem (rousing (l ++ l') v) where
  others i hi := (h'.others i hi).trans (h.others i hi)
  lists i st ns ps hi hst hb := h'.lists i st ns ps hi ((h.others i hi).trans hst) (h.lists i st ns ps hi hst hb)
  counter := h'.counter.trans h.counter
  heap p z hz := by
    obtain ⟨y, hy, hyz⟩ := h'.heap p z hz
    obtain ⟨x, hx, hxy⟩ := h.heap p y hy
    exact ⟨x, hx, hyz.trans (rousing_call hxy)⟩

/-- Something else was written before. -/
theorem Wrote.before (h : Wrote u t sem g) (heap : u.heap = s.heap) (node : u.node = s.node)
    (next : u.nextNode = s.nextNode) (counter : u.semaphoreIdCounter = s.semaphoreIdCounter)
    (table : u.semaphoreTable = s.semaphoreTable) : Wrote s t sem g where
  others i hi := by rw [h.others i hi, table]
  lists i st ns ps hi hst hb :=
    h.lists i st ns ps hi (by rw [table, hst]) (hb.congr (fun n _ => by rw [node]) next.symm.le)
  counter := h.counter.trans counter
  heap p y hy := heap ▸ h.heap p y hy

/-- Something else was written afterwards, which may be of the semaphore. -/
theorem Wrote.after (h : Wrote s u sem g) (heap : t.heap = u.heap) (node : t.node = u.node)
    (next : t.nextNode = u.nextNode) (counter : t.semaphoreIdCounter = u.semaphoreIdCounter)
    (table : ∀ i, i ≠ sem → t.semaphoreTable i = u.semaphoreTable i) : Wrote s t sem g where
  others i hi := by rw [table i hi, h.others i hi]
  lists i st ns ps hi hst hb := (h.lists i st ns ps hi hst hb).congr (fun n _ => by rw [node]) next.symm.le
  counter := counter.trans h.counter
  heap p y hy := h.heap p y (heap ▸ hy)

/-- From `u` on nothing changed. -/
theorem Wrote.apart (h : Wrote s u sem g) (ha : Apart False True u t) : Signals s t sem g where
  others i hi := by rw [(ha.sems trivial).1, h.others i hi]
  lists i st ns ps hi hst hb := (h.lists i st ns ps hi hst hb).apart ha
  counter := (ha.sems trivial).2.2.2.trans h.counter
  records p y hy hp := by
    obtain ⟨z, hz, hzy⟩ := ha.records p y hy hp
    obtain ⟨x, hx, hxz⟩ := h.heap p z hz
    exact ⟨x, hx, (Process.Since.of_call hxz (hzy.parked hp).1).trans hzy⟩

end

end Xinul
