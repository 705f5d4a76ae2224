import Xinul.Lib.Simulation
import Xinul.Proofs.Links
import Xinul.Runs.Base

/-!
# The lists of the kernel and their links

A list operation can be carried out on the links, by `queue.h`, or on the lists the
links spell. Any sequence of operations gives the same answers on both, and
the same assertion fails at the same operation. The operations of the kernel's data
model, which keeps lists, are those of `queue.h` on links that spell its lists.
-/

namespace Xinul

open Prog Waiting

namespace QueueH

/-- An operation on the lists; `φ` are the fields an element can be compared by. -/
inductive QueueOp (κ ε φ : Type) where
  | add (e : ε) (k : κ) (priofield : φ)
  | del (e : ε)
  | out (k : κ)
  | top (k : κ)
  | bottom (k : κ)
  | empty (k : κ)
  | forEach (k : κ)
  | forEachPrev (k : κ)

/-- What an operation returns. -/
inductive QueueAnswer (ε : Type) where
  | done
  | element (e : Option ε)
  | truth (b : Bool)
  | visited (l : List ε)

variable {κ ε φ : Type} [DecidableEq κ] [DecidableEq ε]

/-- The operation on the links, its loops being given `turns` turns. -/
def QueueOp.onLinks (turns : Nat) (read : φ → ε → Int) : QueueOp κ ε φ → LinkM κ ε (QueueAnswer ε)
  | .add e k f => do
    queueAdd turns e k (read f)
    pure .done
  | .del e => do
    queueDel e
    pure .done
  | .out k => do pure (.element (← queueOut k))
  | .top k => do pure (.element (← queueTop k))
  | .bottom k => do pure (.element (← queueBottom k))
  | .empty k => do pure (.truth (← queueEmpty k))
  | .forEach k => do pure (.visited (← queueForEach turns k))
  | .forEachPrev k => do pure (.visited (← queueForEachPrev turns k))

open Classical in
/-- The operation on the lists: an element is put before the first whose field is not
smaller, the last one is taken out first. -/
noncomputable def QueueOp.onLists (read : φ → ε → Int) : QueueOp κ ε φ → StateT (κ → List ε) (Except LinkFault) (QueueAnswer ε)
  | .add e k f => do
    if ∃ d, e ∈ (← get) d then throw .queueAddAssert
    modify fun L => Function.update L k (insertWhile (fun c => read f c < read f e) e (L k))
    pure .done
  | .del e => do
    if ∀ d, e ∉ (← get) d then throw .queueDelAssert
    modify fun L d => (L d).erase e
    pure .done
  | .out k => do
    let L ← get
    modify fun L => Function.update L k (L k).dropLast
    pure (.element (L k).getLast?)
  | .top k => do pure (.element ((← get) k).getLast?)
  | .bottom k => do pure (.element ((← get) k).head?)
  | .empty k => do pure (.truth ((← get) k).isEmpty)
  | .forEach k => do pure (.visited ((← get) k))
  | .forEachPrev k => do pure (.visited ((← get) k).reverse)

section run

variable {m : Links κ ε} {L : κ → List ε} {n turns : Nat} {read : φ → ε → Int}

/-- The links spell the lists, and the loops have turns enough for `n` more operations. -/
def Within (turns n : Nat) (m : Links κ ε) (L : κ → List ε) : Prop := Spells m L ∧ ∀ k, (L k).length + n < turns

omit [DecidableEq κ] [DecidableEq ε] in
theorem Within.same (h : Within turns (n + 1) m L) : Within turns n m L :=
  ⟨h.1, fun k => by have := h.2 k; omega⟩

omit [DecidableEq ε] in
/-- A list that is no more than one element longer. -/
theorem Within.update (h : Within turns (n + 1) m L) {m' : Links κ ε} {k : κ} {l : List ε}
    (hs : Spells m' (Function.update L k l)) (hl : l.length ≤ (L k).length + 1) : Within turns n m' (Function.update L k l) := by
  refine ⟨hs, fun d => ?_⟩
  have hd := h.2 d
  have hk := h.2 k
  by_cases hdk : d = k
  · subst hdk
    rw [Function.update_self]
    omega
  · rw [Function.update_of_ne hdk]
    omega

/-- The lists without an element are those with its own list shortened. -/
theorem Spells.erase_eq (h : Spells m L) {k : κ} {e : ε} {u v : List ε} (hk : L k = u ++ e :: v) :
    (fun d => (L d).erase e) = Function.update L k (u ++ v) := by
  have hnd := h.nodup k
  rw [hk] at hnd
  have heu : e ∉ u := fun hm => (List.nodup_append.1 hnd).2.2 e hm e (by simp) rfl
  funext d
  by_cases hd : d = k
  · subst hd
    rw [Function.update_self, hk, List.erase_append_right _ heu, List.erase_cons_head]
  · rw [Function.update_of_ne hd]
    exact List.erase_of_not_mem fun hm => hd (h.disjoint hm (by rw [hk]; simp))

/-- Every operation is the same on the links and on the lists. -/
theorem QueueOp.agree (op : QueueOp κ ε φ) (h : Within turns (n + 1) m L) :
    Agree (· = ·) (Within turns n) (op.onLinks turns read) (op.onLists read) m L := by
  obtain ⟨hs, hlen⟩ := id h
  have room : ∀ k, (L k).length < turns := fun k => by
    have := hlen k
    omega
  apply Agree.of_wp
  cases op with
  | add e k f =>
    by_cases he : ∃ d, e ∈ L d
    · obtain ⟨d, hd⟩ := he
      rw [onLinks, wp_bind, wp_queueAdd_linked hs hd]
      have : ∃ d, e ∈ L d := ⟨d, hd⟩
      simp only [onLists, wp_bind, wp_get, if_pos this, wp_throw]
    · rw [onLinks, wp_bind]
      refine wp_mono (wp_queueAdd hs (fun d hd => he ⟨d, hd⟩) (room k)) (fun _ m' _ hm' => ?_) fun _ _ => False.elim
      simp only [onLists, wp_bind, wp_get, if_neg he, wp_pure, wp_modify, true_and]
      refine h.update hm' ?_
      rw [insertWhile_perm.length_eq, List.length_cons]
  | del e =>
    by_cases he : ∀ d, e ∉ L d
    · rw [onLinks, wp_bind, wp_queueDel_unlinked hs he]
      simp only [onLists, wp_bind, wp_get, if_pos he, wp_throw]
    · obtain ⟨k, hk⟩ : ∃ k, e ∈ L k := by
        by_contra hc
        exact he fun d hd => hc ⟨d, hd⟩
      obtain ⟨u, v, hu⟩ := List.append_of_mem hk
      rw [onLinks, wp_bind]
      refine wp_mono (wp_queueDel hs hu) (fun _ m' _ hm' => ?_) fun _ _ => False.elim
      simp only [onLists, wp_bind, wp_get, if_neg he, wp_pure, wp_modify, true_and, hs.erase_eq hu]
      refine h.update hm' ?_
      rw [hu]
      simp
      omega
  | out k =>
    rw [onLinks, wp_bind]
    refine wp_mono (wp_queueOut hs) (fun o m' _ hm' => ?_) fun _ _ => False.elim
    obtain ⟨rfl, hm'⟩ := hm'
    simp only [onLists, wp_bind, wp_get, wp_pure, wp_modify, true_and]
    refine h.update hm' ?_
    rw [List.length_dropLast]
    omega
  | top k =>
    simp only [onLinks, wp_bind, wp_queueTop hs, wp_pure, onLists, wp_get]
    exact ⟨trivial, h.same⟩
  | bottom k =>
    simp only [onLinks, wp_bind, wp_queueBottom hs, wp_pure, onLists, wp_get]
    exact ⟨trivial, h.same⟩
  | empty k =>
    simp only [onLinks, wp_bind, wp_queueEmpty hs, wp_pure, onLists, wp_get]
    exact ⟨trivial, h.same⟩
  | forEach k =>
    simp only [onLinks, wp_bind, wp_queueForEach hs (room k), wp_pure, onLists, wp_get]
    exact ⟨trivial, h.same⟩
  | forEachPrev k =>
    simp only [onLinks, wp_bind, wp_queueForEachPrev hs (room k), wp_pure, onLists, wp_get]
    exact ⟨trivial, h.same⟩

/-- Any sequence of operations, on any number of lists, from empty lists on: the links and
the lists give the same answers, and the same assertion fails at the same operation or
the links spell the lists in the end. The loops take no more turns than there are
operations. -/
theorem queue_runs_agree (read : φ → ε → Int) (ops : List (QueueOp κ ε φ)) (spare : Nat) :
    (calls (QueueOp.onLinks (ops.length + 1 + spare) read) ops Links.unlinked).1 =
        (calls (QueueOp.onLists read) ops fun _ => []).1 ∧
      Both (· = ·) Spells (calls (QueueOp.onLinks (ops.length + 1 + spare) read) ops Links.unlinked).2
        (calls (QueueOp.onLists read) ops fun _ => []).2 := by
  have start : Within (ops.length + 1 + spare) ops.length (Links.unlinked : Links κ ε) fun _ => [] :=
    ⟨spells_unlinked, fun k => by simp; omega⟩
  obtain ⟨hans, hend⟩ := calls_agree (F := (· = ·)) (fun n op m L h => op.agree h) ops start
  refine ⟨hans, ?_⟩
  generalize (calls (QueueOp.onLinks (ops.length + 1 + spare) read) ops Links.unlinked).2 = o at hend ⊢
  generalize (calls (QueueOp.onLists read) ops fun _ => []).2 = o' at hend ⊢
  cases hend with
  | error hf => exact .error hf
  | ok hw => exact .ok hw.1

end run

/-! ## The data model -/

/-- The operation on the lists of the kernel. Nothing but `pcount` goes through a list: it
counts the turns. -/
def QueueOp.onKernel : QueueOp QueueHead Ptr (Process → Int) → KernelM (QueueAnswer Ptr)
  | .add e k f => do
    Xinul.queueAdd e k f
    pure .done
  | .del e => do
    Xinul.queueDel e
    pure .done
  | .out k => do pure (.element (← Xinul.queueOut k))
  | .top k => do pure (.element (← Xinul.queueTop k))
  | .bottom k => do pure (.element ((← get).queue k).head?)
  | .empty k => do pure (.truth (← Xinul.queueEmpty k))
  | .forEach k => do pure (.visited ((← get).queue k))
  | .forEachPrev k => do pure (.visited ((← get).queue k).reverse)

/-- The element an operation is given. -/
def QueueOp.element? {κ ε φ : Type} : QueueOp κ ε φ → Option ε
  | .add e _ _ => some e
  | .del e => some e
  | _ => none

/-- The same assertion, with the process or without. -/
inductive SameAssert : Fault → LinkFault → Prop where
  | add (p : Ptr) : SameAssert (.queueAddAssert p) .queueAddAssert
  | del (p : Ptr) : SameAssert (.queueDelAssert p) .queueDelAssert

section kernel

variable {H : Set Ptr} {s : Kernel} {m : Links QueueHead Ptr} {turns : Nat}

/-- In every state that meets the invariant of the lists, the operations of the data model
are those of `queue.h` on links that spell its lists. -/
theorem kernel_queue_agrees (hi : Core H s) (hm : Spells m s.queue) (op : QueueOp QueueHead Ptr (Process → Int))
    (live : ∀ e, op.element? = some e → (s.heap e).isSome) (room : ∀ hd, (s.queue hd).length < turns) :
    Agree SameAssert (fun t m' => Spells m' t.queue) op.onKernel (op.onLinks turns s.value) s m := by
  apply Agree.of_wp
  cases op with
  | add e hd f =>
    obtain ⟨r, hr⟩ := Option.isSome_iff_exists.1 (live e rfl)
    have hvalue : s.value f e = f r := by simp [Kernel.value, hr]
    have hqueue : ∀ d, e ∈ s.queue d ↔ r.nextPrev = some d := fun d => by simp [hi.mem d e, hr]
    have halive : ∀ c ∈ s.queue hd, ∃ x, s.heap c = some x := fun c hc => by
      obtain ⟨x, hx, -⟩ := hi.live_of_mem hc
      exact ⟨x, hx⟩
    simp only [QueueOp.onKernel, Xinul.queueAdd, wp_bind, wp_deref hr]
    cases hn : r.nextPrev with
    | some d =>
      simp only [ne_eq, reduceCtorEq, not_false_eq_true, if_true, wp_throw, QueueOp.onLinks, wp_bind]
      rw [wp_queueAdd_linked hm ((hqueue d).2 hn)]
      exact .add e
    | none =>
      have hfree : ∀ d, e ∉ s.queue d := fun d hd => by
        rw [hqueue, hn] at hd
        cases hd
      simp only [ne_eq, not_true_eq_false, if_false, wp_bind, wp_get, wp_queueWalk halive, wp_modify, wp_pure, QueueOp.onLinks]
      refine wp_mono (wp_queueAdd hm hfree (room hd)) (fun _ m' _ hm' => ?_) fun _ _ => False.elim
      simp only [true_and, Kernel.link]
      rwa [hvalue] at hm'
  | del e =>
    obtain ⟨r, hr⟩ := Option.isSome_iff_exists.1 (live e rfl)
    have hqueue : ∀ d, e ∈ s.queue d ↔ r.nextPrev = some d := fun d => by simp [hi.mem d e, hr]
    simp only [QueueOp.onKernel, Xinul.queueDel, wp_bind, wp_deref hr]
    cases hn : r.nextPrev with
    | none =>
      have hfree : ∀ d, e ∉ s.queue d := fun d hd => by
        rw [hqueue, hn] at hd
        cases hd
      simp only [wp_throw, QueueOp.onLinks, wp_bind]
      rw [wp_queueDel_unlinked hm hfree]
      exact .del e
    | some d =>
      obtain ⟨u, v, hu⟩ := List.append_of_mem ((hqueue d).2 hn)
      simp only [wp_modify, wp_pure, QueueOp.onLinks, wp_bind]
      refine wp_mono (wp_queueDel hm hu) (fun _ m' _ hm' => ?_) fun _ _ => False.elim
      simp only [true_and, Kernel.unlink]
      have hd := congrFun (hm.erase_eq hu) d
      rw [Function.update_self] at hd
      rwa [hd]
  | out hd =>
    rw [QueueOp.onKernel, wp_bind]
    refine Xinul.wp_queueOut hi (fun hnil => ?_) fun l p r hl hr hn hp => ?_
    · simp only [wp_pure, QueueOp.onLinks, wp_bind]
      refine wp_mono (wp_queueOut hm) (fun o m' _ hm' => ?_) fun _ _ => False.elim
      obtain ⟨rfl, hm'⟩ := hm'
      rw [hnil, List.dropLast_nil, ← hnil, Function.update_eq_self] at hm'
      simp only [hnil, List.getLast?_nil, true_and]
      exact hm'
    · simp only [wp_pure, QueueOp.onLinks, wp_bind]
      refine wp_mono (wp_queueOut hm) (fun o m' _ hm' => ?_) fun _ _ => False.elim
      obtain ⟨rfl, hm'⟩ := hm'
      have hd' := congrFun (hm.erase_eq (u := l) (v := []) hl) hd
      rw [Function.update_self, List.append_nil] at hd'
      have hlast : (s.queue hd).getLast? = some p := by
        rw [hl]
        simp
      have hdrop : (s.queue hd).dropLast = l := by
        rw [hl]
        simp
      simp only [hlast, true_and, Kernel.unlink]
      rwa [hd', ← hdrop]
  | top hd =>
    simp only [QueueOp.onKernel, Xinul.wp_queueTop, wp_bind, wp_pure, QueueOp.onLinks, wp_queueTop hm, true_and]
    exact hm
  | bottom hd =>
    simp only [QueueOp.onKernel, wp_get, wp_bind, wp_pure, QueueOp.onLinks, wp_queueBottom hm, true_and]
    exact hm
  | empty hd =>
    simp only [QueueOp.onKernel, Xinul.queueEmpty, wp_get, wp_bind, wp_pure, QueueOp.onLinks, wp_queueEmpty hm, true_and]
    exact hm
  | forEach hd =>
    simp only [QueueOp.onKernel, wp_get, wp_bind, wp_pure, QueueOp.onLinks, wp_queueForEach hm (room hd), true_and]
    exact hm
  | forEachPrev hd =>
    simp only [QueueOp.onKernel, wp_get, wp_bind, wp_pure, QueueOp.onLinks, wp_queueForEachPrev hm (room hd), true_and]
    exact hm

/-- The links after boot: the idle process and the shell were added. -/
theorem spells_boot : ∃ m : Links QueueHead Ptr, Spells m boot.queue := by
  obtain ⟨-, m, -, hm⟩ := wp_returns (wp_queueAdd (k := QueueHead.activatable) (e := (0 : Ptr)) (f := fun _ => 0) (n := 2)
    spells_unlinked (by simp) (by simp))
  obtain ⟨-, m', -, hm'⟩ := wp_returns (wp_queueAdd (k := QueueHead.activatable) (e := (1 : Ptr)) (f := fun p => p) (n := 2)
    hm (fun k => by cases k <;> simp) (by simp))
  refine ⟨m', ?_⟩
  have heq : boot.queue = Function.update (Function.update (fun _ => []) .activatable [0]) .activatable [0, 1] := by
    funext k
    cases k <;> rfl
  rw [heq]
  simpa [insertWhile] using hm'

theorem kernel_queue_agrees_boot : ∃ m : Links QueueHead Ptr, Spells m boot.queue ∧
    Agree SameAssert (fun t m' => Spells m' t.queue) (QueueOp.out .activatable).onKernel
      ((QueueOp.out .activatable).onLinks 3 boot.value) boot m := by
  obtain ⟨m, hm⟩ := spells_boot
  refine ⟨m, hm, kernel_queue_agrees boot_boot.ready.inv.toCore hm (.out .activatable) (fun e he => by cases he) fun hd => ?_⟩
  have hlists : ∀ hd, boot.queue hd = if hd = .activatable then [0, 1] else [] := by
    intro hd
    cases hd <;> rfl
  rw [hlists]
  split <;> decide

end kernel

end QueueH

end Xinul
