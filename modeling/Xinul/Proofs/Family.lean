import Xinul.Proofs.Scheduling

/-!
# Parents and children

`Family s` says that the links between processes mean something: a process that
has not ended knows all its children, a child's parent has not ended, and what
an ended process still points to was freed. It does not hold of every reachable
state; `process_api.c` keeps it as long as a process that ends leaves no living
child behind.

`Lineage s` does: a parent pointer leads to a record that was started or freed.
-/

namespace Xinul

open Prog Linked

/-- `next_sibling` of the record at `p`. -/
def Kernel.sibling (s : Kernel) (p : Ptr) : Option Ptr := (s.heap p).bind (·.nextSibling)

/-- The process at `c` names the one at `p` as its parent. -/
def Kernel.ChildOf (s : Kernel) (c p : Ptr) : Prop :=
  ∃ x, s.heap c = some x ∧ x.started = true ∧ x.parent = some p

/-- The children list of the process at `p`, whose record is `r`. -/
structure Children (s : Kernel) (p : Ptr) (r : Process) (cs : List Ptr) : Prop where
  chain : Seg s.sibling r.childrenHead cs none
  tail : r.childrenTail = cs.getLast?
  mem : ∀ c, c ∈ cs ↔ s.ChildOf c p

/-- `b` is the child before `q`, or `q` itself when it is the first. -/
def Before (cs : List Ptr) (b q : Ptr) : Prop :=
  (∃ l, cs = q :: l ∧ b = q) ∨ ∃ l k, cs = l ++ b :: q :: k

/-- The links between parents and children are sound. -/
structure Family (s : Kernel) : Prop where
  children : ∀ p r, s.heap p = some r → r.started = true → r.state.dead = false → ∃ cs, Children s p r cs
  parents : ∀ c p, s.ChildOf c p → ∃ r, s.heap p = some r ∧ r.started = true ∧ r.state.dead = false
  older : ∀ c p, s.ChildOf c p → p < c
  killed : ∀ p r, s.heap p = some r → r.started = true → r.state = .killed → r.parent = none
  swept : ∀ p r q, s.heap p = some r → r.started = true → r.state.dead = true →
    r.childrenHead = some q → s.heap q = none ∧ q < s.nextPtr
  starts : ∀ p r q, s.heap p = some r → r.started = true → r.state.dead = false →
    r.context = .start q → s.ChildOf q p
  waits : ∀ p r q b v, s.heap p = some r → r.started = true → r.state.dead = false →
    r.context = .waitpidChild q b v → ∃ cs, Children s p r cs ∧ Before cs b q

/-- What the family asks of a process that was started. -/
structure Relative (s : Kernel) (p : Ptr) (r : Process) : Prop where
  children : r.state.dead = false → ∃ cs, Children s p r cs
  killed : r.state = .killed → r.parent = none
  swept : r.state.dead = true → ∀ q, r.childrenHead = some q → s.heap q = none ∧ q < s.nextPtr
  starts : r.state.dead = false → ∀ q, r.context = .start q → s.ChildOf q p
  waits : r.state.dead = false → ∀ q b v, r.context = .waitpidChild q b v → ∃ cs, Children s p r cs ∧ Before cs b q

/-- A parent pointer leads to a record that was started or freed. -/
def Lineage (s : Kernel) : Prop :=
  ∀ p r, s.heap p = some r → r.started = true → ∀ q, r.parent = some q →
    q < s.nextPtr ∧ ∀ x, s.heap q = some x → x.started = true

/-- A record was written in a way the family does not see. -/
structure Process.Alike (r r' : Process) : Prop where
  started : r'.started = r.started
  parent : r'.parent = r.parent
  head : r'.childrenHead = r.childrenHead
  tail : r'.childrenTail = r.childrenTail
  sibling : r'.nextSibling = r.nextSibling
  dead : r'.state.dead = r.state.dead
  context : r'.state.dead = false → r'.context = r.context ∨ r'.context.pointers = []
  killed : r'.state = .killed → r.state = .killed ∨ r.parent = none

theorem Process.SameTree.alike {r r' : Process} (h : r.SameTree r') (started : r'.started = r.started)
    (killed : r'.state = .killed → r.state = .killed) : r.Alike r' :=
  ⟨started, h.parent, h.head, h.tail, h.sibling, h.dead, fun _ => h.context, fun hk => .inl (killed hk)⟩

theorem Process.Alike.refl (r : Process) : r.Alike r :=
  ⟨rfl, rfl, rfl, rfl, rfl, rfl, fun _ => .inl rfl, .inl⟩

section alike

variable {s t : Kernel} {p q c : Ptr} {r x y : Process} {cs : List Ptr}

theorem Family.relative (h : Family s) (hp : s.heap p = some r) (hst : r.started = true) : Relative s p r where
  children := h.children p r hp hst
  killed := h.killed p r hp hst
  swept hd q := h.swept p r q hp hst hd
  starts hd q := h.starts p r q hp hst hd
  waits hd q b v := h.waits p r q b v hp hst hd

theorem Family.of_relatives (parents : ∀ c p, s.ChildOf c p → ∃ r, s.heap p = some r ∧ r.started = true ∧ r.state.dead = false)
    (older : ∀ c p, s.ChildOf c p → p < c) (each : ∀ p r, s.heap p = some r → r.started = true → Relative s p r) :
    Family s where
  children p r hp hst := (each p r hp hst).children
  parents := parents
  older := older
  killed p r hp hst := (each p r hp hst).killed
  swept p r q hp hst hd := (each p r hp hst).swept hd q
  starts p r q hp hst hd := (each p r hp hst).starts hd q
  waits p r q b v hp hst hd := (each p r hp hst).waits hd q b v

/-- A process that lives and is in no call with other processes. -/
theorem Relative.of_pointers_nil (hd : r.state.dead = false) (hcs : ∃ cs, Children s p r cs) (hctx : r.context.pointers = []) :
    Relative s p r where
  children _ := hcs
  killed hk := by
    rw [hk] at hd
    cases hd
  swept hdead := by
    rw [hd] at hdead
    cases hdead
  starts _ q hq := by
    rw [hq] at hctx
    cases hctx
  waits _ q b v hq := by
    rw [hq] at hctx
    cases hctx

/-- The records of two states are alike. -/
structure Kernel.Alike (s t : Kernel) : Prop where
  here : ∀ p r, s.heap p = some r → ∃ y, t.heap p = some y ∧ r.Alike y
  back : ∀ p y, t.heap p = some y → ∃ r, s.heap p = some r ∧ r.Alike y
  next : t.nextPtr = s.nextPtr

theorem Kernel.Alike.of_heap (h : t.heap = s.heap) (hn : t.nextPtr = s.nextPtr) : s.Alike t where
  here p r hr := ⟨r, by rw [h, hr], .refl r⟩
  back p y hy := ⟨y, by rw [← h, hy], .refl y⟩
  next := hn

theorem Kernel.Alike.update (hp : s.heap p = some r) (hy : r.Alike y)
    (h : t.heap = Function.update s.heap p (some y)) (hn : t.nextPtr = s.nextPtr) : s.Alike t where
  here q x hx := by
    by_cases hq : q = p
    · subst hq
      rw [hp] at hx
      cases hx
      exact ⟨y, by simp [h], hy⟩
    · exact ⟨x, by simp [h, hq, hx], .refl x⟩
  back q x hx := by
    rw [h] at hx
    rcases heap_update_cases hx with ⟨rfl, hv⟩ | ⟨_, hx⟩
    · cases hv
      exact ⟨r, hp, hy⟩
    · exact ⟨x, hx, .refl x⟩
  next := hn

theorem Kernel.Alike.map {f : Process → Process} (hp : s.heap p = some r) (hy : r.Alike (f r))
    (h : t.heap = (s.mapProc p f).heap) (hn : t.nextPtr = s.nextPtr) : s.Alike t :=
  .update hp hy (by rw [h, mapProc_heap, hp]; rfl) hn

theorem Kernel.Alike.sibling (h : s.Alike t) (p : Ptr) : t.sibling p = s.sibling p := by
  unfold Kernel.sibling
  cases hp : s.heap p with
  | some r =>
    obtain ⟨y, hy, ha⟩ := h.here p r hp
    rw [hy]
    exact ha.sibling
  | none =>
    cases hq : t.heap p with
    | none => rfl
    | some y =>
      obtain ⟨r, hr, _⟩ := h.back p y hq
      rw [hp] at hr
      cases hr

theorem Kernel.Alike.childOf (h : s.Alike t) (c p : Ptr) : t.ChildOf c p ↔ s.ChildOf c p := by
  constructor
  · rintro ⟨y, hy, hst, hpar⟩
    obtain ⟨r, hr, ha⟩ := h.back c y hy
    exact ⟨r, hr, ha.started.symm.trans hst, ha.parent.symm.trans hpar⟩
  · rintro ⟨r, hr, hst, hpar⟩
    obtain ⟨y, hy, ha⟩ := h.here c r hr
    exact ⟨y, hy, ha.started.trans hst, ha.parent.trans hpar⟩

theorem Children.alike (h : Children s p r cs) (ha : s.Alike t) (hr : r.Alike y) :
    Children t p y cs where
  chain := by
    rw [hr.head]
    exact h.chain.congr fun c _ => ha.sibling c
  tail := hr.tail.trans h.tail
  mem c := by rw [ha.childOf, h.mem]

theorem Children.unique {cs' : List Ptr} (h : Children s p r cs) (h' : Children s p r cs') : cs = cs' :=
  h.chain.unique h'.chain

/-- A change that leaves the records alike leaves the family sound. -/
theorem Family.alike (h : Family s) (ha : s.Alike t) : Family t where
  children p y hy hst hd := by
    obtain ⟨r, hr, hry⟩ := ha.back p y hy
    obtain ⟨cs, hcs⟩ := h.children p r hr (hry.started.symm.trans hst) (hry.dead.symm.trans hd)
    exact ⟨cs, hcs.alike ha hry⟩
  parents c p hc := by
    obtain ⟨r, hr, hst, hd⟩ := h.parents c p ((ha.childOf c p).1 hc)
    obtain ⟨y, hy, hry⟩ := ha.here p r hr
    exact ⟨y, hy, hry.started.trans hst, hry.dead.trans hd⟩
  older c p hc := h.older c p ((ha.childOf c p).1 hc)
  killed p y hy hst hk := by
    obtain ⟨r, hr, hry⟩ := ha.back p y hy
    rw [hry.parent]
    exact (hry.killed hk).elim (h.killed p r hr (hry.started.symm.trans hst)) id
  swept p y q hy hst hd hq := by
    obtain ⟨r, hr, hry⟩ := ha.back p y hy
    obtain ⟨hnone, hlt⟩ := h.swept p r q hr (hry.started.symm.trans hst) (hry.dead.symm.trans hd)
      (hry.head.symm.trans hq)
    refine ⟨?_, ha.next ▸ hlt⟩
    cases hv : t.heap q with
    | none => rfl
    | some z =>
      obtain ⟨z', hz', _⟩ := ha.back q z hv
      rw [hnone] at hz'
      cases hz'
  starts p y q hy hst hd hctx := by
    obtain ⟨r, hr, hry⟩ := ha.back p y hy
    rw [ha.childOf]
    refine h.starts p r q hr (hry.started.symm.trans hst) (hry.dead.symm.trans hd) ?_
    rcases hry.context hd with hc | hc
    · rw [← hc, hctx]
    · rw [hctx] at hc
      cases hc
  waits p y q b v hy hst hd hctx := by
    obtain ⟨r, hr, hry⟩ := ha.back p y hy
    have hctx' : r.context = .waitpidChild q b v := by
      rcases hry.context hd with hc | hc
      · rw [← hc, hctx]
      · rw [hctx] at hc
        cases hc
    obtain ⟨cs, hcs, hb⟩ := h.waits p r q b v hr (hry.started.symm.trans hst)
      (hry.dead.symm.trans hd) hctx'
    exact ⟨cs, hcs.alike ha hry, hb⟩

/-- Records that nobody's list holds go, and with them nothing the family needs. -/
theorem Family.remove (h : Family s) {G : Ptr → Prop} (heap : ∀ q, ¬ G q → t.heap q = s.heap q)
    (gone : ∀ q, G q → t.heap q = none) (next : t.nextPtr = s.nextPtr)
    (alone : ∀ q, G q → ∀ p, s.ChildOf q p → G p) (childless : ∀ p c, G p → s.ChildOf c p → G c) :
    Family t := by
  have back : ∀ p y, t.heap p = some y → ¬ G p ∧ s.heap p = some y := by
    intro p y hy
    have hG : ¬ G p := fun hG => by
      rw [gone p hG] at hy
      cases hy
    exact ⟨hG, by rw [← heap p hG, hy]⟩
  have child : ∀ c p, t.ChildOf c p ↔ s.ChildOf c p ∧ ¬ G c := by
    intro c p
    constructor
    · rintro ⟨y, hy, hst, hpar⟩
      obtain ⟨hG, hy⟩ := back c y hy
      exact ⟨⟨y, hy, hst, hpar⟩, hG⟩
    · rintro ⟨⟨y, hy, hst, hpar⟩, hG⟩
      exact ⟨y, by rw [heap c hG, hy], hst, hpar⟩
  have kids : ∀ p r cs, ¬ G p → Children s p r cs → Children t p r cs := by
    intro p r cs hG hcs
    have hcsG : ∀ c ∈ cs, ¬ G c := fun c hc hGc => hG (alone c hGc p ((hcs.mem c).1 hc))
    refine ⟨hcs.chain.congr fun c hc => ?_, hcs.tail, fun c => ?_⟩
    · simp [Kernel.sibling, heap c (hcsG c hc)]
    · rw [child, ← hcs.mem]
      exact ⟨fun hc => ⟨hc, hcsG c hc⟩, And.left⟩
  refine ⟨?_, ?_, ?_, ?_, ?_, ?_, ?_⟩
  · intro p r hr hst hd
    obtain ⟨hG, hr⟩ := back p r hr
    obtain ⟨cs, hcs⟩ := h.children p r hr hst hd
    exact ⟨cs, kids p r cs hG hcs⟩
  · intro c p hc
    obtain ⟨hc, hG⟩ := (child c p).1 hc
    obtain ⟨r, hr, hst, hd⟩ := h.parents c p hc
    exact ⟨r, by rw [heap p (fun hGp => hG (childless p c hGp hc)), hr], hst, hd⟩
  · exact fun c p hc => h.older c p ((child c p).1 hc).1
  · intro p r hr
    exact h.killed p r (back p r hr).2
  · intro p r q hr hst hd hq
    obtain ⟨hnone, hlt⟩ := h.swept p r q (back p r hr).2 hst hd hq
    refine ⟨?_, next ▸ hlt⟩
    by_cases hG : G q
    · exact gone q hG
    · rw [heap q hG, hnone]
  · intro p r q hr hst hd hctx
    obtain ⟨hG, hr⟩ := back p r hr
    have hq := h.starts p r q hr hst hd hctx
    exact (child q p).2 ⟨hq, fun hGq => hG (alone q hGq p hq)⟩
  · intro p r q b v hr hst hd hctx
    obtain ⟨hG, hr⟩ := back p r hr
    obtain ⟨cs, hcs, hb⟩ := h.waits p r q b v hr hst hd hctx
    exact ⟨cs, kids p r cs hG hcs, hb⟩

end alike

/-! ## What process_api.c does to the family -/

section changes

variable {s t : Kernel} {p q c : Ptr} {r x y : Process} {cs : List Ptr}

/-- In `t` the process at `p`, whose record was `r` and is `y`, has ended; its children `cs`,
who all ended before, were freed. -/
structure Dies (s t : Kernel) (p : Ptr) (r y : Process) (cs : List Ptr) : Prop where
  record : s.heap p = some r
  started : r.started = true
  alive : r.state.dead = false
  children : Children s p r cs
  ended : ∀ c ∈ cs, ∀ x, s.heap c = some x → x.state.dead = true
  fresh : ∀ q x, s.heap q = some x → q < s.nextPtr
  parent : y.parent = r.parent
  still : y.started = true
  head : y.childrenHead = r.childrenHead
  sibling : y.nextSibling = r.nextSibling
  dead : y.state.dead = true
  killed : y.state = .killed → y.parent = none
  heap : ∀ q, t.heap q = if q ∈ cs then none else if q = p then some y else s.heap q
  next : t.nextPtr = s.nextPtr

section dies

variable (d : Dies s t p r y cs)

include d

theorem Dies.gone (hq : q ∈ cs) : t.heap q = none := by rw [d.heap, if_pos hq]

theorem Dies.here : t.heap p = some y := by
  have hpcs : p ∉ cs := fun hc => by
    have := d.alive
    rw [d.ended p hc r d.record] at this
    cases this
  rw [d.heap, if_neg hpcs, if_pos rfl]

theorem Dies.others (hq : q ∉ cs) (hqp : q ≠ p) : t.heap q = s.heap q := by rw [d.heap, if_neg hq, if_neg hqp]

theorem Dies.back (hx : t.heap q = some x) : q ∉ cs ∧ (q = p ∧ x = y ∨ q ≠ p ∧ s.heap q = some x) := by
  have hq : q ∉ cs := fun hc => by
    rw [d.gone hc] at hx
    cases hx
  refine ⟨hq, ?_⟩
  by_cases hqp : q = p
  · subst hqp
    rw [d.here] at hx
    exact .inl ⟨rfl, (Option.some.inj hx).symm⟩
  · exact .inr ⟨hqp, by rw [← d.others hq hqp, hx]⟩

theorem Dies.childOf {u : Ptr} (hu : u ≠ p) : t.ChildOf c u ↔ s.ChildOf c u := by
  constructor
  · rintro ⟨x, hx, hxs, hxp⟩
    obtain ⟨_, ⟨rfl, rfl⟩ | ⟨_, hx⟩⟩ := d.back hx
    · exact ⟨r, d.record, d.started, d.parent.symm.trans hxp⟩
    · exact ⟨x, hx, hxs, hxp⟩
  · rintro ⟨x, hx, hxs, hxp⟩
    -- the children that were freed are those of `p`
    have hc : c ∉ cs := by
      intro hc
      obtain ⟨x', hx', _, hxp'⟩ := (d.children.mem c).1 hc
      rw [hx] at hx'
      cases hx'
      rw [hxp] at hxp'
      exact hu (Option.some.inj hxp')
    by_cases hcp : c = p
    · subst hcp
      rw [d.record] at hx
      cases hx
      exact ⟨y, d.here, d.still, d.parent.trans hxp⟩
    · exact ⟨x, by rw [d.others hc hcp, hx], hxs, hxp⟩

theorem Dies.childless : ¬ t.ChildOf c p := by
  rintro ⟨x, hx, hxs, hxp⟩
  obtain ⟨hc, ⟨rfl, rfl⟩ | ⟨_, hx⟩⟩ := d.back hx
  · exact hc ((d.children.mem c).2 ⟨r, d.record, d.started, d.parent.symm.trans hxp⟩)
  · exact hc ((d.children.mem c).2 ⟨x, hx, hxs, hxp⟩)

/-- The lists of the others stay as they are. -/
theorem Dies.children_of {u : Ptr} {z : Process} {k : List Ptr} (hu : u ≠ p) (hk : Children s u z k) : Children t u z k := by
  refine ⟨hk.chain.congr fun c hc => ?_, hk.tail, fun c => by rw [d.childOf hu, hk.mem]⟩
  obtain ⟨x, hx, _, _⟩ := (d.childOf hu).2 ((hk.mem c).1 hc)
  obtain ⟨hcc, ⟨rfl, rfl⟩ | ⟨hcp, _⟩⟩ := d.back hx
  · simp [Kernel.sibling, d.here, d.record, d.sibling]
  · simp [Kernel.sibling, d.others hcc hcp]

/-- The process itself. -/
theorem Dies.relative : Relative t p y where
  children hd := by
    rw [d.dead] at hd
    cases hd
  killed := d.killed
  swept _ q hq := by
    rw [d.head] at hq
    have hqm : q ∈ cs := by
      have := d.children.chain.head
      rw [hq] at this
      exact List.mem_of_head? this.symm
    obtain ⟨x, hx, _⟩ := (d.children.mem q).1 hqm
    exact ⟨d.gone hqm, d.next ▸ d.fresh q x hx⟩
  starts hd := by
    rw [d.dead] at hd
    cases hd
  waits hd := by
    rw [d.dead] at hd
    cases hd

/-- Another process. -/
theorem Dies.relative_of {u : Ptr} {z : Process} (hu : u ≠ p) (h : Relative s u z) : Relative t u z where
  children hd := by
    obtain ⟨k, hk⟩ := h.children hd
    exact ⟨k, d.children_of hu hk⟩
  killed := h.killed
  swept hd q hq := by
    obtain ⟨hnone, hlt⟩ := h.swept hd q hq
    refine ⟨?_, d.next ▸ hlt⟩
    have hqp : q ≠ p := by
      rintro rfl
      rw [d.record] at hnone
      cases hnone
    rw [d.heap, if_neg hqp, hnone]
    split <;> rfl
  starts hd q hctx := (d.childOf hu).2 (h.starts hd q hctx)
  waits hd q b v hctx := by
    obtain ⟨k, hk, hb⟩ := h.waits hd q b v hctx
    exact ⟨k, d.children_of hu hk, hb⟩

end dies

/-- A process ends; its children, who all ended before, were freed. -/
theorem Family.die (h : Family s) (d : Dies s t p r y cs) : Family t := by
  have other : ∀ c u, t.ChildOf c u → u ≠ p := by
    rintro c u hc rfl
    exact d.childless hc
  refine .of_relatives (fun c u hc => ?_) (fun c u hc => h.older c u ((d.childOf (other c u hc)).1 hc)) fun u z hz hzs => ?_
  · have hu := other c u hc
    obtain ⟨z, hz, hzs, hzd⟩ := h.parents c u ((d.childOf hu).1 hc)
    have hucs : u ∉ cs := fun hm => by
      rw [d.ended u hm z hz] at hzd
      cases hzd
    exact ⟨z, by rw [d.others hucs hu, hz], hzs, hzd⟩
  · obtain ⟨_, ⟨rfl, rfl⟩ | ⟨hu, hz⟩⟩ := d.back hz
    · exact d.relative
    · exact d.relative_of hu (h.relative hz hzs)

/-- The record of a process while the list of the children `cs` of `c` is edited. -/
structure Process.Kin (c : Ptr) (cs : List Ptr) (q : Ptr) (x y : Process) : Prop where
  started : y.started = x.started
  parent : y.parent = x.parent
  state : y.state = x.state
  lists : q ≠ c → y.childrenHead = x.childrenHead ∧ y.childrenTail = x.childrenTail ∧ y.context = x.context
  sibling : q ∉ cs → y.nextSibling = x.nextSibling

/-- The list of the children of `c` is edited: one record `a` comes or goes, and
links change in the records of `c` and of its children. -/
structure Relinked (s t : Kernel) (c : Ptr) (cs : List Ptr) (a : Ptr) : Prop where
  here : ∀ q x, q ≠ a → s.heap q = some x → ∃ y, t.heap q = some y ∧ Process.Kin c cs q x y
  back : ∀ q y, q ≠ a → t.heap q = some y → ∃ x, s.heap q = some x ∧ Process.Kin c cs q x y

section relinked

variable {a : Ptr}

theorem Relinked.childOf (h : Relinked s t c cs a) (hq : q ≠ a) (p : Ptr) :
    t.ChildOf q p ↔ s.ChildOf q p := by
  constructor
  · rintro ⟨y, hy, hst, hpar⟩
    obtain ⟨x, hx, hk⟩ := h.back q y hq hy
    exact ⟨x, hx, hk.started.symm.trans hst, hk.parent.symm.trans hpar⟩
  · rintro ⟨x, hx, hst, hpar⟩
    obtain ⟨y, hy, hk⟩ := h.here q x hq hx
    exact ⟨y, hy, hk.started.trans hst, hk.parent.trans hpar⟩

/-- The lists of the others stay as they are. -/
theorem Relinked.children {z z' : Process} {k : List Ptr} (h : Relinked s t c cs a)
    (hcs : Children s c r cs) (hu : p ≠ c) (ha : ∀ u, t.ChildOf a u ∨ s.ChildOf a u → u = c)
    (hz : Process.Kin c cs p z z') (hk : Children s p z k) : Children t p z' k where
  chain := by
    rw [(hz.lists hu).1]
    refine hk.chain.congr fun d hd => ?_
    have hdp := (hk.mem d).1 hd
    have hda : d ≠ a := by
      rintro rfl
      exact hu (ha p (.inr hdp))
    have hdcs : d ∉ cs := by
      intro hc
      obtain ⟨x, hx, _, hxp⟩ := hdp
      obtain ⟨x', hx', _, hxp'⟩ := (hcs.mem d).1 hc
      rw [hx] at hx'
      cases hx'
      rw [hxp] at hxp'
      exact hu (Option.some.inj hxp')
    obtain ⟨x, hx, _, _⟩ := hdp
    obtain ⟨y, hy, hkin⟩ := h.here d x hda hx
    simp [Kernel.sibling, hx, hy, hkin.sibling hdcs]
  tail := (hz.lists hu).2.1.trans hk.tail
  mem d := by
    by_cases hda : d = a
    · subst hda
      rw [hk.mem]
      exact ⟨fun hc => absurd (ha p (.inr hc)) hu, fun hc => absurd (ha p (.inl hc)) hu⟩
    · rw [h.childOf hda, hk.mem]

theorem Relinked.gone (h : Relinked s t c cs a) (hq : q ≠ a) (hnone : s.heap q = none) : t.heap q = none := by
  cases hv : t.heap q with
  | none => rfl
  | some y =>
    obtain ⟨x, hx, _⟩ := h.back q y hq hv
    rw [hnone] at hx
    cases hx

/-- A process whose list was not edited. -/
theorem Relinked.relative {z z' : Process} (h : Relinked s t c cs a) (hcs : Children s c r cs) (hp : p ≠ c)
    (only : ∀ u, t.ChildOf a u ∨ s.ChildOf a u → u = c) (gone : ∀ q, q < s.nextPtr → s.heap q = none → t.heap q = none)
    (next : s.nextPtr ≤ t.nextPtr) (hk : Process.Kin c cs p z z') (hz : Relative s p z) : Relative t p z' where
  children hd := by
    obtain ⟨k, hchildren⟩ := hz.children (hk.state ▸ hd)
    exact ⟨k, h.children hcs hp only hk hchildren⟩
  killed hkilled := by
    rw [hk.parent]
    exact hz.killed (hk.state ▸ hkilled)
  swept hd q hq := by
    obtain ⟨hnone, hlt⟩ := hz.swept (hk.state ▸ hd) q ((hk.lists hp).1.symm.trans hq)
    exact ⟨gone q hlt hnone, lt_of_lt_of_le hlt next⟩
  starts hd q hctx := by
    have hq := hz.starts (hk.state ▸ hd) q ((hk.lists hp).2.2.symm.trans hctx)
    have hqa : q ≠ a := by
      rintro rfl
      exact hp (only p (.inr hq))
    exact (h.childOf hqa p).2 hq
  waits hd q b v hctx := by
    obtain ⟨k, hchildren, hb⟩ := hz.waits (hk.state ▸ hd) q b v ((hk.lists hp).2.2.symm.trans hctx)
    exact ⟨k, h.children hcs hp only hk hchildren, hb⟩

/-- A child that has ended is taken off the list of its parent and freed. -/
theorem Family.reap {cs' : List Ptr} (h : Family s) (hr : Relinked s t c cs a) (hc : s.heap c = some r)
    (hcs : Children s c r cs) (ha : s.heap a = some x) (hst : x.started = true) (hd : x.state.dead = true)
    (hpar : x.parent = some c) (gone : t.heap a = none) (next : t.nextPtr = s.nextPtr)
    (hy : t.heap c = some y) (ctx : y.context.pointers = []) (chain : Seg t.sibling y.childrenHead cs' none)
    (tail : y.childrenTail = cs'.getLast?) (mem : ∀ q, q ∈ cs' ↔ q ∈ cs ∧ q ≠ a) : Family t := by
  have ne_of : ∀ q z, t.heap q = some z → q ≠ a := by
    rintro q z hz rfl
    rw [gone] at hz
    cases hz
  have only : ∀ u, t.ChildOf a u ∨ s.ChildOf a u → u = c := by
    rintro u (⟨z, hz, _⟩ | ⟨z, hz, _, hzp⟩)
    · exact absurd rfl (ne_of a z hz)
    · rw [ha] at hz
      cases hz
      rw [hpar] at hzp
      exact (Option.some.inj hzp).symm
  have child : ∀ q u, t.ChildOf q u ↔ s.ChildOf q u ∧ q ≠ a := by
    intro q u
    by_cases hqa : q = a
    · subst hqa
      refine ⟨?_, fun hq => absurd rfl hq.2⟩
      rintro ⟨z, hz, _⟩
      exact absurd rfl (ne_of q z hz)
    · rw [hr.childOf hqa]
      simp [hqa]
  have hlive : y.state.dead = false := by
    obtain ⟨w, hw, _, hwd⟩ := h.parents a c ⟨x, ha, hst, hpar⟩
    obtain ⟨w', hw', hkin⟩ := hr.back c y (ne_of c y hy) hy
    rw [hw] at hw'
    cases hw'
    rw [hkin.state, hwd]
  refine .of_relatives (fun q u hq => ?_) (fun q u hq => h.older q u ((child q u).1 hq).1) fun u z hz hzs => ?_
  · obtain ⟨z, hz, hzs, hzd⟩ := h.parents q u ((child q u).1 hq).1
    have hua : u ≠ a := by
      rintro rfl
      rw [ha] at hz
      cases hz
      rw [hd] at hzd
      cases hzd
    obtain ⟨z', hz', hkin⟩ := hr.here u z hua hz
    exact ⟨z', hz', hkin.started.trans hzs, hkin.state ▸ hzd⟩
  · by_cases hu : u = c
    · subst hu
      rw [hy] at hz
      cases hz
      exact .of_pointers_nil hlive ⟨cs', chain, tail, fun q => by rw [mem, hcs.mem, child]⟩ ctx
    · obtain ⟨z', hz', hkin⟩ := hr.back u z (ne_of u z hz) hz
      refine hr.relative hcs hu only (fun q _ hq => ?_) next.ge hkin (h.relative hz' (hkin.started.symm.trans hzs))
      by_cases hqa : q = a
      · subst hqa
        exact gone
      · exact hr.gone hqa hq

/-- In `t` a new process `a`, with the record `x`, is the last child of the one at `c`, whose
record was `r` and is `y`. -/
structure Joins (s t : Kernel) (c : Ptr) (cs : List Ptr) (a : Ptr) (r x y : Process) : Prop where
  others : Relinked s t c cs a
  parent : s.heap c = some r
  alive : r.started = true ∧ r.state.dead = false
  children : Children s c r cs
  fresh : s.heap a = none
  older : c < a
  record : t.heap a = some x
  started : x.started = true
  living : x.state.dead = false
  child : x.parent = some c
  empty : x.childrenHead = none ∧ x.childrenTail = none
  context : x.context.pointers = []
  new : s.nextPtr = a
  next : s.nextPtr ≤ t.nextPtr
  written : t.heap c = some y
  starting : y.context.pointers = [] ∨ y.context = .start a
  chain : Seg t.sibling y.childrenHead (cs ++ [a]) none
  tail : y.childrenTail = some a

theorem Joins.childOf (j : Joins s t c cs a r x y) (q u : Ptr) : t.ChildOf q u ↔ s.ChildOf q u ∨ q = a ∧ u = c := by
  by_cases hqa : q = a
  · subst hqa
    constructor
    · rintro ⟨z, hz, _, hzp⟩
      rw [j.record] at hz
      cases hz
      rw [j.child] at hzp
      exact .inr ⟨rfl, (Option.some.inj hzp).symm⟩
    · rintro (⟨z, hz, _⟩ | ⟨_, rfl⟩)
      · rw [j.fresh] at hz
        cases hz
      · exact ⟨x, j.record, j.started, j.child⟩
  · rw [j.others.childOf hqa]
    simp [hqa]

theorem Joins.only (j : Joins s t c cs a r x y) : ∀ u, t.ChildOf a u ∨ s.ChildOf a u → u = c := by
  have hfresh : ∀ u, ¬ s.ChildOf a u := by
    rintro u ⟨z, hz, _⟩
    rw [j.fresh] at hz
    cases hz
  rintro u (hu | hu)
  · obtain hu | ⟨_, hu⟩ := (j.childOf a u).1 hu
    · exact absurd hu (hfresh u)
    · exact hu
  · exact absurd hu (hfresh u)

theorem Joins.childless (j : Joins s t c cs a r x y) (h : Family s) (q : Ptr) : ¬ t.ChildOf q a := by
  intro hq
  obtain hq | ⟨_, hc⟩ := (j.childOf q a).1 hq
  · obtain ⟨z, hz, _⟩ := h.parents q a hq
    rw [j.fresh] at hz
    cases hz
  · exact absurd hc j.older.ne'

/-- The new process. -/
theorem Joins.relative_new (j : Joins s t c cs a r x y) (h : Family s) : Relative t a x :=
  .of_pointers_nil j.living ⟨[], j.empty.1, j.empty.2, fun q => by simp [j.childless h q]⟩ j.context

/-- The one that started it. -/
theorem Joins.relative_parent (j : Joins s t c cs a r x y) : Relative t c y := by
  obtain ⟨y', hy, hkin⟩ := j.others.here c r j.older.ne j.parent
  rw [j.written] at hy
  cases hy
  have hlive : y.state.dead = false := hkin.state ▸ j.alive.2
  have hchildren : Children t c y (cs ++ [a]) := by
    refine ⟨j.chain, by simp [j.tail], fun q => ?_⟩
    rw [j.childOf, List.mem_append, j.children.mem]
    simp
  obtain hctx | hctx := j.starting
  · exact .of_pointers_nil hlive ⟨_, hchildren⟩ hctx
  · refine ⟨fun _ => ⟨_, hchildren⟩, fun hk => ?_, fun hd => ?_, fun _ q hq => ?_, fun _ q b v hq => ?_⟩
    · rw [hk] at hlive
      cases hlive
    · rw [hlive] at hd
      cases hd
    · rw [hctx] at hq
      cases hq
      exact (j.childOf _ c).2 (.inr ⟨rfl, rfl⟩)
    · rw [hctx] at hq
      cases hq

/-- A new process becomes the last child of the process that started it. -/
theorem Family.attach (h : Family s) (j : Joins s t c cs a r x y) : Family t := by
  refine .of_relatives (fun q u hq => ?_) (fun q u hq => ?_) fun u z hz hzs => ?_
  · obtain hq | ⟨_, rfl⟩ := (j.childOf q u).1 hq
    · obtain ⟨z, hz, hzs, hzd⟩ := h.parents q u hq
      have hua : u ≠ a := by
        rintro rfl
        rw [j.fresh] at hz
        cases hz
      obtain ⟨z', hz', hkin⟩ := j.others.here u z hua hz
      exact ⟨z', hz', hkin.started.trans hzs, hkin.state ▸ hzd⟩
    · obtain ⟨z', hz', hkin⟩ := j.others.here u r j.older.ne j.parent
      exact ⟨z', hz', hkin.started.trans j.alive.1, hkin.state ▸ j.alive.2⟩
  · obtain hq | ⟨rfl, rfl⟩ := (j.childOf q u).1 hq
    · exact h.older q u hq
    · exact j.older
  · by_cases hua : u = a
    · subst hua
      rw [j.record] at hz
      cases hz
      exact j.relative_new h
    by_cases hu : u = c
    · subst hu
      rw [j.written] at hz
      cases hz
      exact j.relative_parent
    · obtain ⟨z', hz', hkin⟩ := j.others.back u z hua hz
      exact j.others.relative j.children hu j.only (fun q hlt => j.others.gone (ne_of_lt (j.new ▸ hlt))) j.next hkin
        (h.relative hz' (hkin.started.symm.trans hzs))

end relinked

end changes

/-! ## What leaves the family alone -/

section chain

variable {K : Kind} {H H' : Set Ptr} {s s₀ t : Kernel}

/-- An action that may not touch the family does not. -/
theorem Act.family (a : Act K H s H' t) (hi : Inv H s) (hK : ¬ K.family) (h : Family s) : Family t := by
  cases a with
  | hold => exact h
  | release => exact h
  | write hp same _ _ _ ht _ _ =>
    refine h.alike (.map hp ((ht.resolve_left fun hc => hK hc.1).alike same.started ?_) rfl rfl)
    rw [same.state]
    exact id
  | set _ hp _ _ _ started _ ht hk _ _ =>
    exact h.alike (.map hp ((ht.resolve_left fun hc => hK hc.1).alike started
      fun hc => absurd hc (hk.resolve_left hK)) rfl rfl)
  | @link _ _ _ _ d _ hp _ _ _ _ =>
    exact h.alike (.map (f := fun r => { r with nextPrev := some d, stamp := s.insertions }) hp
      ⟨rfl, rfl, rfl, rfl, rfl, rfl, fun _ => .inl rfl, .inl⟩ rfl rfl)
  | unlink hp _ =>
    exact h.alike (.map (f := fun r => { r with nextPrev := none }) hp
      ⟨rfl, rfl, rfl, rfl, rfl, rfl, fun _ => .inl rfl, .inl⟩ rfl rfl)
  | @reprio _ _ _ _ v hp _ _ _ =>
    exact h.alike (.map (f := fun r => { r with prio := v }) hp
      ⟨rfl, rfl, rfl, rfl, rfl, rfl, fun _ => .inl rfl, .inl⟩ rfl rfl)
  | run => exact h.alike (.of_heap rfl rfl)
  | @free _ _ p r hp _ hd hk _ =>
    obtain ⟨hst, hstate⟩ := hk.resolve_right hK
    have hpar := h.killed p r hp hst hstate
    -- a killed process has no parent, and whoever has it as parent is gone
    refine h.remove (G := (· = p)) (fun q hq => ?_) ?_ rfl ?_ ?_
    · simp [Kernel.freeRecord, hq]
    · rintro q rfl
      simp [Kernel.freeRecord]
    · rintro q rfl u ⟨x, hx, _, hxp⟩
      rw [hp] at hx
      cases hx
      rw [hpar] at hxp
      cases hxp
    · rintro u c rfl hc
      obtain ⟨x, hx, _, hxd⟩ := h.parents c u hc
      rw [hp] at hx
      cases hx
      rw [hd] at hxd
      cases hxd
  | alloc ht => exact absurd ht hK
  | birth ht => exact absurd ht hK
  | @block _ _ p r sem st st' _ _ _ N _ hp hd _ _ _ _ _ _ _ =>
    exact h.alike (.map (f := fun r => { r with
      semaphoreId := sem, state := .blockedSemaphore, stamp := s.insertions }) hp
      ⟨rfl, rfl, rfl, rfl, rfl, hd.symm, fun _ => .inl rfl, fun h => by cases h⟩ rfl rfl)
  | unblock => exact h.alike (.of_heap rfl rfl)
  | count => exact h.alike (.of_heap rfl rfl)
  | semNew => exact h.alike (.of_heap rfl rfl)
  | semDrop => exact h.alike (.of_heap rfl rfl)
  | msgQueue => exact h.alike (.of_heap rfl rfl)
  | parentBlock => exact h.alike (.of_heap rfl rfl)
  | other same => exact h.alike (.of_heap same.heap same.nextPtr)

theorem Chain.family (ch : Chain K s₀ H s) (hK : ¬ K.family) (h : Family s₀) : Family s :=
  ch.induct (P := fun _ s => Family s) h fun _ _ _ _ hi hs a => a.family hi hK hs

/-! ## Lineage -/

theorem Lineage.mono (h : Lineage s) (back : ∀ p y, t.heap p = some y → y.started = true →
      ∃ r, s.heap p = some r ∧ r.started = true ∧ y.parent = r.parent)
    (kept : ∀ q y, t.heap q = some y → q < s.nextPtr →
      ∃ x, s.heap q = some x ∧ (x.started = true → y.started = true))
    (next : s.nextPtr ≤ t.nextPtr) : Lineage t := by
  intro p y hy hst q hq
  obtain ⟨r, hr, hrs, hpar⟩ := back p y hy hst
  obtain ⟨hlt, hx⟩ := h p r hr hrs q (hpar.symm.trans hq)
  refine ⟨lt_of_lt_of_le hlt next, fun z hz => ?_⟩
  obtain ⟨x, hxq, hxs⟩ := kept q z hz hlt
  exact hxs (hx x hxq)

theorem Lineage.map {p : Ptr} {r : Process} {f : Process → Process} (h : Lineage s)
    (hp : s.heap p = some r) (started : (f r).started = r.started)
    (parent : r.started = true → (f r).parent = r.parent) (heap : t.heap = (s.mapProc p f).heap)
    (next : t.nextPtr = s.nextPtr) : Lineage t := by
  have old : ∀ q y, t.heap q = some y →
      ∃ x, s.heap q = some x ∧ y.started = x.started ∧ (x.started = true → y.parent = x.parent) := by
    intro q y hy
    rw [heap, mapProc_heap, hp] at hy
    rcases heap_update_cases hy with ⟨rfl, hv⟩ | ⟨_, hy⟩
    · cases hv
      exact ⟨r, hp, started, parent⟩
    · exact ⟨y, hy, rfl, fun _ => rfl⟩
  refine h.mono (fun q y hy hst => ?_) (fun q y hy _ => ?_) next.ge
  · obtain ⟨x, hx, hxs, hxp⟩ := old q y hy
    exact ⟨x, hx, hxs.symm.trans hst, hxp (hxs.symm.trans hst)⟩
  · obtain ⟨x, hx, hxs, _⟩ := old q y hy
    exact ⟨x, hx, hxs.trans⟩

theorem Lineage.congr (h : Lineage s) (heap : t.heap = s.heap) (next : t.nextPtr = s.nextPtr) :
    Lineage t := by
  unfold Lineage
  rw [heap, next]
  exact h

theorem Kind.Writes.parent {r r' : Process} (h : K.Writes r r') (hst : r.started = true) :
    r'.parent = r.parent :=
  h.elim (fun h => h.2 hst) (fun h => h.parent)

theorem Act.lineage (a : Act K H s H' t) (hi : Inv H s) (h : Lineage s) : Lineage t := by
  cases a with
  | hold => exact h
  | release => exact h
  | write hp same _ _ _ ht _ _ => exact h.map hp same.started ht.parent rfl rfl
  | set _ hp _ _ _ started _ ht _ _ _ => exact h.map hp started ht.parent rfl rfl
  | @link _ _ _ _ d _ hp _ _ _ _ =>
    exact h.map (f := fun r => { r with nextPrev := some d, stamp := s.insertions }) hp rfl
      (fun _ => rfl) rfl rfl
  | unlink hp _ => exact h.map (f := fun r => { r with nextPrev := none }) hp rfl (fun _ => rfl) rfl rfl
  | @reprio _ _ _ _ v hp _ _ _ =>
    exact h.map (f := fun r => { r with prio := v }) hp rfl (fun _ => rfl) rfl rfl
  | run => exact h.congr rfl rfl
  | @free _ _ p r hp _ _ _ _ =>
    have old : ∀ q y, (s.freeRecord p r.pid).heap q = some y → s.heap q = some y := by
      intro q y hy
      rcases heap_update_cases hy with ⟨_, hv⟩ | ⟨_, hy⟩
      · cases hv
      · exact hy
    exact h.mono (fun q y hy hst => ⟨y, old q y hy, hst, rfl⟩) (fun q y hy _ => ⟨y, old q y hy, id⟩) le_rfl
  | @alloc _ _ r pids it _ _ hst _ _ _ _ _ _ =>
    refine h.mono (fun q y hy hys => ?_) (fun q y hy hlt => ?_) (Nat.le_succ _)
    · rcases heap_update_cases hy with ⟨_, hv⟩ | ⟨_, hy⟩
      · cases hv
        rw [hst] at hys
        cases hys
      · exact ⟨y, hy, hys, rfl⟩
    · rcases heap_update_cases hy with ⟨rfl, _⟩ | ⟨_, hy⟩
      · exact absurd hlt (lt_irrefl _)
      · exact ⟨y, hy, id⟩
  | @birth _ _ p r f _ hp _ hnew _ _ _ _ _ hpar =>
    have old : ∀ q y, (s.mapProc p f).heap q = some y →
        q = p ∧ y = f r ∨ q ≠ p ∧ s.heap q = some y := by
      intro q y hy
      rw [mapProc_heap, hp] at hy
      rcases heap_update_cases hy with ⟨rfl, hv⟩ | hy
      · cases hv
        exact .inl ⟨rfl, rfl⟩
      · exact .inr hy
    have kept : ∀ q, (∀ x, s.heap q = some x → x.started = true) →
        ∀ y, (s.mapProc p f).heap q = some y → y.started = true := by
      intro q hq y hy
      rcases old q y hy with ⟨rfl, rfl⟩ | ⟨_, hy⟩
      · exact hnew
      · exact hq y hy
    intro q y hy hys u hu
    rcases old q y hy with ⟨rfl, rfl⟩ | ⟨_, hy⟩
    · exact ⟨(hpar u hu).1, kept u (hpar u hu).2⟩
    · obtain ⟨hlt, hx⟩ := h q y hy hys u hu
      exact ⟨hlt, kept u hx⟩
  | @block _ _ p r sem st st' _ _ _ N _ hp _ _ _ _ _ _ _ _ =>
    exact h.map (f := fun r => { r with
      semaphoreId := sem, state := .blockedSemaphore, stamp := s.insertions }) hp rfl (fun _ => rfl) rfl rfl
  | unblock => exact h.congr rfl rfl
  | count => exact h.congr rfl rfl
  | semNew => exact h.congr rfl rfl
  | semDrop => exact h.congr rfl rfl
  | msgQueue => exact h.congr rfl rfl
  | parentBlock => exact h.congr rfl rfl
  | other same => exact h.congr same.heap same.nextPtr

theorem Chain.lineage (ch : Chain K s₀ H s) (h : Lineage s₀) : Lineage s :=
  ch.induct (P := fun _ s => Lineage s) h fun _ _ _ _ hi hs a => a.lineage hi hs

end chain

end Xinul
