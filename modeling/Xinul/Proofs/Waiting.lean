import Xinul.Proofs.Semaphores

/-!
# `wait`, and `kill` of a process that waits

The two functions that edit the middle or the end of a blocked list.
-/

namespace Xinul

open Prog Waiting Linked

/-! ## Nodes -/

section nodes

variable {s : Kernel} {n m : NodePtr} {nd : Node}

theorem nextBlock_setNode : (s.setNode n nd).nextBlock =
    Function.update s.nextBlock n nd.nextBlockStruct := by
  funext k
  by_cases hk : k = n
  · subst hk
    simp [Kernel.nextBlock, Kernel.setNode]
  · simp [Kernel.nextBlock, Kernel.setNode, hk]

theorem blockedAt_setNode : (s.setNode n nd).blockedAt =
    Function.update s.blockedAt n (some nd.blockedProcess) := by
  funext k
  by_cases hk : k = n
  · subst hk
    simp [Kernel.blockedAt, Kernel.setNode]
  · simp [Kernel.blockedAt, Kernel.setNode, hk]

/-- A write of the successor keeps the process of a node. -/
theorem blockedAt_setNode_same {next : Option NodePtr} (h : s.node n = some nd) :
    (s.setNode n { nd with nextBlockStruct := next }).blockedAt = s.blockedAt := by
  rw [blockedAt_setNode]
  exact Function.update_eq_self_iff.2 (by simp [Kernel.blockedAt, h])

end nodes

/-! ## The walk of `wait` -/

section walk

variable {s : Kernel} {E : Fault → Prop} {l : List NodePtr} {a : Option NodePtr}

/-- The process of the node `o` has at least the priority `v`. -/
def Kernel.atLeast (s : Kernel) (v : Nat) (o : Option Ptr) : Bool :=
  (v : Int) ≤ s.value Process.prioField (o.getD 0)

/-- `wait` stops at the first node of a smaller priority. -/
theorem wp_waitWalk {Q : Option (NodePtr × NodePtr) → Kernel → Prop} {v fuel : Nat} {prev : NodePtr}
    {g : NodePtr → Bool} (hseg : Seg s.nextBlock a l none)
    (hlive : ∀ n ∈ l, ∃ nd x, s.node n = some nd ∧ s.heap nd.blockedProcess = some x ∧
      g n = decide (v ≤ x.prio))
    (hfuel : l.length < fuel)
    (hQ : Q (match l.dropWhile g with
      | [] => none
      | m :: _ => some (m, ((l.takeWhile g).getLast?).getD prev)) s) :
    wp (waitWalk v fuel a prev) Q E s := by
  induction l generalizing a prev fuel with
  | nil =>
    obtain ⟨k, rfl⟩ : ∃ k, fuel = k + 1 := ⟨fuel - 1, by simp at hfuel; omega⟩
    obtain rfl : a = none := hseg
    exact hQ
  | cons n l ih =>
    obtain ⟨k, rfl⟩ : ∃ k, fuel = k + 1 := ⟨fuel - 1, by simp at hfuel; omega⟩
    obtain ⟨rfl, hrest⟩ := hseg
    obtain ⟨nd, x, hnd, hx, hok⟩ := hlive n (by simp)
    simp only [waitWalk, wp_bind, wp_derefNode hnd, wp_deref hx]
    by_cases hgt : v > x.prio
    · rw [if_pos hgt]
      have : ¬ v ≤ x.prio := by omega
      simpa [hok, this] using hQ
    · rw [if_neg hgt]
      have hle : v ≤ x.prio := by omega
      refine ih (by simpa [Kernel.nextBlock, hnd] using hrest) (fun m hm => hlive m (by simp [hm]))
        (by simp at hfuel; omega) ?_
      simp only [List.dropWhile_cons, List.takeWhile_cons, hok, hle, decide_true, if_true,
        List.getLast?_cons] at hQ
      simpa using hQ

end walk

/-! ## The insertion -/

section insertion

variable {s : Kernel} {st w : Semaphore} {ns : List NodePtr} {ps : List Ptr} {p : Ptr} {v : Nat}

/-- A blocked list with one more node, for the process `p`. -/
theorem Blocked.of_insert {N : NodePtr → Option Node} (hb : Blocked s st ns ps)
    (hnew : ({ s with node := N } : Kernel).blockedAt s.nextNode = some p)
    (hold : ∀ n ∈ ns, ({ s with node := N } : Kernel).blockedAt n = s.blockedAt n)
    (chain : Seg ({ s with node := N } : Kernel).nextBlock w.head
      (insertWhile (fun n => s.atLeast v (s.blockedAt n)) s.nextNode ns) none)
    (tail : w.tail = (insertWhile (fun n => s.atLeast v (s.blockedAt n)) s.nextNode ns).getLast?) :
    Blocked { s with node := N, nextNode := s.nextNode + 1 } w
      (insertWhile (fun n => s.atLeast v (s.blockedAt n)) s.nextNode ns)
      (insertWhile (fun q => (v : Int) ≤ s.value Process.prioField q) p ps) where
  chain := chain
  tail := tail
  procs := by
    have htake : (ps.takeWhile fun q => (v : Int) ≤ s.value Process.prioField q).map some =
        (ns.takeWhile fun n => s.atLeast v (s.blockedAt n)).map s.blockedAt := by
      have := congrArg (List.takeWhile (s.atLeast v)) hb.procs
      rw [List.takeWhile_map, List.takeWhile_map] at this
      exact this.symm
    have hdrop : (ps.dropWhile fun q => (v : Int) ≤ s.value Process.prioField q).map some =
        (ns.dropWhile fun n => s.atLeast v (s.blockedAt n)).map s.blockedAt := by
      have := congrArg (List.dropWhile (s.atLeast v)) hb.procs
      rw [List.dropWhile_map, List.dropWhile_map] at this
      exact this.symm
    have hsame : ∀ l : List NodePtr, (∀ n ∈ l, n ∈ ns) →
        l.map ({ s with node := N, nextNode := s.nextNode + 1 } : Kernel).blockedAt = l.map s.blockedAt :=
      fun l hl => List.map_congr_left fun n hn => hold n (hl n hn)
    simp only [insertWhile, List.map_append, List.map_cons, htake, hdrop]
    rw [hsame _ fun n hn => List.takeWhile_subset _ hn, hsame _ fun n hn => List.dropWhile_subset _ hn]
    exact congrArg _ (congrArg (· :: _) hnew)
  bound n hn := by
    rcases mem_insertWhile.1 hn with rfl | hn
    · exact Nat.lt_succ_self _
    · exact Nat.lt_succ_of_lt (hb.bound n hn)

/-- The new node goes after the last one. -/
theorem Blocked.insertLast {last : NodePtr} {nd : Node} (hb : Blocked s st ns ps)
    (hlast : ns.getLast? = some last) (hnd : s.node last = some nd)
    (hdrop : (ns.dropWhile fun n => s.atLeast v (s.blockedAt n)) = [])
    (hhead : w.head = st.head) (htail : w.tail = some s.nextNode) :
    ∃ ns', Blocked { s with
        node := Function.update (Function.update s.node s.nextNode (some ⟨p, none⟩)) last
          (some { nd with nextBlockStruct := some s.nextNode })
        nextNode := s.nextNode + 1 } w ns'
      (insertWhile (fun q => (v : Int) ≤ s.value Process.prioField q) p ps) := by
  have hfresh : s.nextNode ∉ ns := fun h => Nat.lt_irrefl _ (hb.bound _ h)
  have hold : ∀ n ∈ ns, n ≠ s.nextNode := fun n hn => Nat.ne_of_lt (hb.bound n hn)
  have hne : last ≠ s.nextNode := hold last (List.mem_of_getLast? hlast)
  have hnode : (s.setNode s.nextNode ⟨p, none⟩).node last = some nd := by
    simp [Kernel.setNode, hne, hnd]
  have hwhole : insertWhile (fun n => s.atLeast v (s.blockedAt n)) s.nextNode ns = ns ++ [s.nextNode] := by
    have := List.takeWhile_append_dropWhile (p := fun n => s.atLeast v (s.blockedAt n)) (l := ns)
    rw [hdrop, List.append_nil] at this
    rw [insertWhile, this, hdrop]
  refine ⟨_, hb.of_insert (v := v) ?_ ?_ ?_ ?_⟩
  · change ((s.setNode s.nextNode ⟨p, none⟩).setNode last
      { nd with nextBlockStruct := some s.nextNode }).blockedAt s.nextNode = some p
    rw [blockedAt_setNode_same hnode, blockedAt_setNode, Function.update_self]
  · intro n hn
    change ((s.setNode s.nextNode ⟨p, none⟩).setNode last
      { nd with nextBlockStruct := some s.nextNode }).blockedAt n = _
    rw [blockedAt_setNode_same hnode, blockedAt_setNode, Function.update_of_ne (hold n hn)]
  · change Seg ((s.setNode s.nextNode ⟨p, none⟩).setNode last
      { nd with nextBlockStruct := some s.nextNode }).nextBlock w.head _ none
    rw [nextBlock_setNode, nextBlock_setNode, hwhole, hhead]
    refine (hb.chain.congr fun n hn => ?_).snoc hlast hfresh (by simp)
    exact Function.update_of_ne (hold n hn) _ _
  · rw [hwhole, htail]
    simp

/-- The new node goes before the first one. -/
theorem Blocked.insertFirst {head : NodePtr} {rest : List NodePtr} (hb : Blocked s st (head :: rest) ps)
    (hstop : s.atLeast v (s.blockedAt head) = false) (hhead : w.head = some s.nextNode)
    (htail : w.tail = st.tail) :
    ∃ ns', Blocked { s with
        node := Function.update s.node s.nextNode (some ⟨p, some head⟩)
        nextNode := s.nextNode + 1 } w ns'
      (insertWhile (fun q => (v : Int) ≤ s.value Process.prioField q) p ps) := by
  have hold : ∀ n ∈ head :: rest, n ≠ s.nextNode := fun n hn => Nat.ne_of_lt (hb.bound n hn)
  have hwhole : insertWhile (fun n => s.atLeast v (s.blockedAt n)) s.nextNode (head :: rest) =
      s.nextNode :: head :: rest := by
    rw [insertWhile_cons, if_neg (by simp [hstop])]
  refine ⟨_, hb.of_insert (v := v) ?_ ?_ ?_ ?_⟩
  · change (s.setNode s.nextNode ⟨p, some head⟩).blockedAt s.nextNode = some p
    rw [blockedAt_setNode, Function.update_self]
  · intro n hn
    change (s.setNode s.nextNode ⟨p, some head⟩).blockedAt n = _
    rw [blockedAt_setNode, Function.update_of_ne (hold n hn)]
  · change Seg (s.setNode s.nextNode ⟨p, some head⟩).nextBlock w.head _ none
    rw [nextBlock_setNode, hwhole, hhead]
    refine ⟨rfl, ?_⟩
    rw [Function.update_self]
    have hc := hb.chain
    rw [hb.head_eq] at hc
    exact hc.congr fun n hn => Function.update_of_ne (hold n hn) _ _
  · rw [hwhole, htail, hb.tail]
    simp

/-- The new node goes between two nodes. -/
theorem Blocked.insertBetween {y m : NodePtr} {T D : List NodePtr} {nd : Node}
    (hb : Blocked s st (T ++ y :: m :: D) ps) (hnd : s.node y = some nd)
    (htake : ((T ++ y :: m :: D).takeWhile fun n => s.atLeast v (s.blockedAt n)) = T ++ [y])
    (hdrop : ((T ++ y :: m :: D).dropWhile fun n => s.atLeast v (s.blockedAt n)) = m :: D)
    (hhead : w.head = st.head) (htail : w.tail = st.tail) :
    ∃ ns', Blocked { s with
        node := Function.update (Function.update s.node s.nextNode (some ⟨p, some m⟩)) y
          (some { nd with nextBlockStruct := some s.nextNode })
        nextNode := s.nextNode + 1 } w ns'
      (insertWhile (fun q => (v : Int) ≤ s.value Process.prioField q) p ps) := by
  have hold : ∀ n ∈ T ++ y :: m :: D, n ≠ s.nextNode := fun n hn => Nat.ne_of_lt (hb.bound n hn)
  have hne : y ≠ s.nextNode := hold y (by simp)
  have hnode : (s.setNode s.nextNode ⟨p, some m⟩).node y = some nd := by
    simp [Kernel.setNode, hne, hnd]
  have hnodup := hb.chain.nodup
  have hwhole : insertWhile (fun n => s.atLeast v (s.blockedAt n)) s.nextNode (T ++ y :: m :: D) =
      (T ++ [y, s.nextNode]) ++ m :: D := by
    rw [insertWhile, htake, hdrop]
    simp
  refine ⟨_, hb.of_insert (v := v) ?_ ?_ ?_ ?_⟩
  · change ((s.setNode s.nextNode ⟨p, some m⟩).setNode y
      { nd with nextBlockStruct := some s.nextNode }).blockedAt s.nextNode = some p
    rw [blockedAt_setNode_same hnode, blockedAt_setNode, Function.update_self]
  · intro n hn
    change ((s.setNode s.nextNode ⟨p, some m⟩).setNode y
      { nd with nextBlockStruct := some s.nextNode }).blockedAt n = _
    rw [blockedAt_setNode_same hnode, blockedAt_setNode, Function.update_of_ne (hold n hn)]
  · change Seg ((s.setNode s.nextNode ⟨p, some m⟩).setNode y
      { nd with nextBlockStruct := some s.nextNode }).nextBlock w.head _ none
    rw [nextBlock_setNode, nextBlock_setNode, hwhole, hhead]
    have hseg : Seg (Function.update s.nextBlock s.nextNode (some m)) st.head (T ++ y :: m :: D) none :=
      hb.chain.congr fun n hn => Function.update_of_ne (hold n hn) _ _
    rw [show T ++ y :: m :: D = (T ++ [y]) ++ m :: D by simp] at hseg hnodup
    obtain ⟨b, hfront, rfl, hback⟩ := seg_append.1 hseg
    have hdis := (List.nodup_append.1 hnodup).2.2
    have hyT : y ∉ T := by
      intro h
      have := (List.nodup_append.1 (List.nodup_append.1 hnodup).1).2.2
      exact this y h y (by simp) rfl
    refine seg_append.2 ⟨some m, hfront.insert (by simp) hne.symm hyT, ?_⟩
    have hrest : Seg (Function.update s.nextBlock s.nextNode (some m)) (some m) (m :: D) none := ⟨rfl, hback⟩
    refine hrest.congr fun n hn => ?_
    exact Function.update_of_ne (fun h => hdis y (by simp) n hn h.symm) _ _
  · rw [hwhole, htail, hb.tail]
    simp [List.getLast?_append]

theorem Semaphore.getD_head (st : Semaphore) :
    (st.listHeaderProcess.getD ⟨none, none⟩).headBlocked = st.head := by
  cases h : st.listHeaderProcess <;> simp [Semaphore.head, h]

theorem Semaphore.getD_tail (st : Semaphore) :
    (st.listHeaderProcess.getD ⟨none, none⟩).tailBlocked = st.tail := by
  cases h : st.listHeaderProcess <;> simp [Semaphore.tail, h]

/-- The state in which `wait` inserts the new node. -/
def Kernel.withNode (s : Kernel) (sem : Int) (st : Semaphore) (p : Ptr) : Kernel :=
  { (s.setSem sem (some st)).setNode s.nextNode ⟨p, none⟩ with nextNode := s.nextNode + 1 }

theorem withNode_node (sem : Int) (st : Semaphore) (p : Ptr) :
    (s.withNode sem st p).node = Function.update s.node s.nextNode (some ⟨p, none⟩) := rfl

theorem withNode_new (sem : Int) (st : Semaphore) (p : Ptr) :
    (s.withNode sem st p).node s.nextNode = some ⟨p, none⟩ := by rw [withNode_node, Function.update_self]

@[simp] theorem withNode_nextNode (sem : Int) (st : Semaphore) (p : Ptr) :
    (s.withNode sem st p).nextNode = s.nextNode + 1 := rfl

theorem withNode_sem (sem : Int) (st : Semaphore) (p : Ptr) : (s.withNode sem st p).semaphoreTable sem = some st := by
  simp [Kernel.withNode, Kernel.setNode, Kernel.setSem]

/-- `Q` holds once the node of `p` is in its place in the list of `sem`, whose other nodes
are `ns`. -/
def AfterInsert (s : Kernel) (sem : Int) (count : Int) (ns : List NodePtr) (ps : List Ptr) (p : Ptr) (v : Nat)
    (Q : Unit → Kernel → Prop) : Prop :=
  ∀ st' N ns', Blocked { s with node := N, nextNode := s.nextNode + 1 } st' ns'
      (insertWhile (fun q => (v : Int) ≤ s.value Process.prioField q) p ps) →
    st'.count = count → (∀ n < s.nextNode, n ∉ ns → N n = s.node n) →
    Q () (s.setBlocked sem st' N (s.nextNode + 1))

section places

variable {Q : Unit → Kernel → Prop} {E : Fault → Prop} {sem : Int} {st₁ : Semaphore}

/-- The list is empty. -/
theorem Blocked.wp_insertOnly (hb : Blocked s st [] ps) (hQ : AfterInsert s sem st₁.count [] ps p v Q) :
    wp (setHeader sem (some s.nextNode) (some s.nextNode)) Q E (s.withNode sem st₁ p) := by
  rw [wp_setHeader (withNode_sem sem st₁ p)]
  obtain rfl : ps = [] := List.eq_nil_of_length_eq_zero (by simpa using hb.length_eq.symm)
  have := hQ { st₁ with listHeaderProcess := some ⟨some s.nextNode, some s.nextNode⟩ }
    (Function.update s.node s.nextNode (some ⟨p, none⟩)) [s.nextNode]
    ⟨by simp [Semaphore.head, Kernel.nextBlock], by simp [Semaphore.tail],
      by simp [Kernel.blockedAt], by simp⟩ rfl
    (fun n hn _ => by simp [Nat.ne_of_lt hn])
  simpa [Kernel.withNode, Kernel.setSem, Kernel.setNode, Kernel.setBlocked] using this

/-- Every process of the list has the priority of the new one. -/
theorem Blocked.wp_insertLast {head last : NodePtr} (hb : Blocked s st ns ps)
    (hQ : AfterInsert s sem st₁.count ns ps p v Q) (hhead : st.head = some head) (hlast : ns.getLast? = some last)
    (hdrop : (ns.dropWhile fun n => s.atLeast v (s.blockedAt n)) = []) :
    wp (do setNextBlockStruct last (some s.nextNode); setHeader sem (some head) (some s.nextNode)) Q E
      (s.withNode sem st₁ p) := by
  have hmem : last ∈ ns := List.mem_of_getLast? hlast
  obtain ⟨nd, hnd, -⟩ := hb.exists_node hmem
  have hne : last ≠ s.nextNode := Nat.ne_of_lt (hb.bound last hmem)
  have hnode : (s.withNode sem st₁ p).node last = some nd := by rw [withNode_node, Function.update_of_ne hne, hnd]
  rw [wp_bind, wp_setNextBlockStruct hnode, wp_setHeader (s := (s.withNode sem st₁ p).setNode _ _) (withNode_sem sem st₁ p)]
  obtain ⟨ns', hb'⟩ := hb.insertLast (p := p) (w := { st₁ with
    listHeaderProcess := some ⟨some head, some s.nextNode⟩ }) hlast hnd hdrop hhead.symm rfl
  have := hQ _ _ ns' hb' rfl (fun n hn hout => ?_)
  · simpa [Kernel.withNode, Kernel.setSem, Kernel.setNode, Kernel.setBlocked] using this
  · rw [Function.update_of_ne (by rintro rfl; exact hout hmem), Function.update_of_ne (Nat.ne_of_lt hn)]

/-- The first process of the list has a smaller priority. -/
theorem Blocked.wp_insertFirst {m : NodePtr} {D : List NodePtr} (hb : Blocked s st (m :: D) ps)
    (hQ : AfterInsert s sem st₁.count (m :: D) ps p v Q)
    (hstop : ((m :: D).takeWhile fun n => s.atLeast v (s.blockedAt n)) = []) :
    wp (do setNextBlockStruct s.nextNode (some m); setHeader sem (some s.nextNode) st.tail) Q E
      (s.withNode sem st₁ p) := by
  have hless : s.atLeast v (s.blockedAt m) = false := by
    by_contra hc
    rw [List.takeWhile_cons, if_pos (by simpa using hc)] at hstop
    cases hstop
  rw [wp_bind, wp_setNextBlockStruct (withNode_new sem st₁ p),
    wp_setHeader (s := (s.withNode sem st₁ p).setNode _ _) (withNode_sem sem st₁ p)]
  obtain ⟨ns', hb'⟩ := hb.insertFirst (p := p) (w := { st₁ with
    listHeaderProcess := some ⟨some s.nextNode, st.tail⟩ }) hless rfl rfl
  have := hQ _ _ ns' hb' rfl (fun n hn _ => Function.update_of_ne (Nat.ne_of_lt hn) _ _)
  simpa [Kernel.withNode, Kernel.setSem, Kernel.setNode, Kernel.setBlocked] using this

/-- The first process of a smaller priority, that of the node `m`, stands behind another. -/
theorem Blocked.wp_insertBetween {y m : NodePtr} {T D : List NodePtr} (hb : Blocked s st (T ++ y :: m :: D) ps)
    (hQ : AfterInsert s sem st₁.count (T ++ y :: m :: D) ps p v Q) (hheader : st₁.listHeaderProcess = st.listHeaderProcess)
    (htake : ((T ++ y :: m :: D).takeWhile fun n => s.atLeast v (s.blockedAt n)) = T ++ [y])
    (hdrop : ((T ++ y :: m :: D).dropWhile fun n => s.atLeast v (s.blockedAt n)) = m :: D) :
    wp (do setNextBlockStruct s.nextNode (some m); setNextBlockStruct y (some s.nextNode)) Q E
      (s.withNode sem st₁ p) := by
  have hmem : y ∈ T ++ y :: m :: D := by simp
  obtain ⟨nd, hnd, -⟩ := hb.exists_node hmem
  have hne : y ≠ s.nextNode := Nat.ne_of_lt (hb.bound y hmem)
  have hnode : ((s.withNode sem st₁ p).setNode s.nextNode ⟨p, some m⟩).node y = some nd := by
    simp only [Kernel.setNode, Function.update_of_ne hne]
    rw [withNode_node, Function.update_of_ne hne, hnd]
  rw [wp_bind, wp_setNextBlockStruct (withNode_new sem st₁ p),
    wp_setNextBlockStruct hnode]
  obtain ⟨ns', hb'⟩ := hb.insertBetween (p := p) (v := v) (w := st₁) hnd htake hdrop
    (by simp [Semaphore.head, hheader]) (by simp [Semaphore.tail, hheader])
  have := hQ _ _ ns' hb' rfl (fun n hn hout => ?_)
  · simpa [Kernel.withNode, Kernel.setSem, Kernel.setNode, Kernel.setBlocked] using this
  · rw [Function.update_of_ne (by rintro rfl; exact hout hmem), Function.update_of_ne (Nat.ne_of_lt hn)]

/-- The insertion of `wait` in the list of a semaphore. -/
theorem wp_waitInsert (hb : Blocked s st ns ps) (hheader : st₁.listHeaderProcess = st.listHeaderProcess)
    (hlive : ∀ q ∈ ps, ∃ x, s.heap q = some x) (hQ : AfterInsert s sem st₁.count ns ps p v Q) :
    wp (waitInsert sem s.nextNode v) Q E (s.withNode sem st₁ p) := by
  have hhead₁ : st₁.head = st.head := by simp [Semaphore.head, hheader]
  have htail₁ : st₁.tail = st.tail := by simp [Semaphore.tail, hheader]
  rw [waitInsert, wp_bind, wp_derefSem (withNode_sem sem st₁ p)]
  simp only [Semaphore.getD_head, Semaphore.getD_tail, hhead₁, htail₁]
  have hbhead := hb.head_eq
  cases ns with
  | nil =>
    rw [if_pos ⟨by simpa using hbhead, by simpa using hb.tail⟩]
    exact hb.wp_insertOnly hQ
  | cons head rest =>
    have hh : st.head = some head := by simpa using hbhead
    have hold : ∀ n ∈ head :: rest, (s.withNode sem st₁ p).node n = s.node n := fun n hn => by
      rw [withNode_node, Function.update_of_ne (Nat.ne_of_lt (hb.bound n hn))]
    rw [if_neg (by simp [hh]), hh]
    simp only [wp_bind, wp_get]
    refine wp_waitWalk (l := head :: rest) (g := fun n => s.atLeast v (s.blockedAt n)) ?_ ?_ ?_ ?_
    · rw [← hh]
      exact hb.chain.congr fun n hn => by simp [Kernel.nextBlock, hold n hn]
    · intro n hn
      obtain ⟨nd, hnd, hq⟩ := hb.exists_node hn
      obtain ⟨x, hx⟩ := hlive _ hq
      refine ⟨nd, x, by rw [hold n hn, hnd], hx, ?_⟩
      simp [Kernel.atLeast, Kernel.blockedAt, hnd, Kernel.value, hx, Process.prioField]
    · have := hb.length_le
      simp only [withNode_nextNode]
      omega
    · have hsplit := List.takeWhile_append_dropWhile (p := fun n => s.atLeast v (s.blockedAt n))
        (l := head :: rest)
      cases hD : (head :: rest).dropWhile fun n => s.atLeast v (s.blockedAt n) with
      | nil =>
        obtain ⟨last, hlast⟩ : ∃ last, (head :: rest).getLast? = some last :=
          ⟨_, List.getLast?_eq_some_getLast (by simp)⟩
        simp only [hb.tail.trans hlast]
        exact hb.wp_insertLast hQ hh hlast hD
      | cons m D =>
        cases hT : (head :: rest).takeWhile fun n => s.atLeast v (s.blockedAt n) with
        | nil =>
          rw [hT, hD] at hsplit
          obtain ⟨rfl, rfl⟩ : m = head ∧ D = rest := by simpa using hsplit
          simp only [if_true]
          exact hb.wp_insertFirst hQ hT
        | cons z T =>
          obtain ⟨T', y, hT'⟩ : ∃ T' y, z :: T = T' ++ [y] :=
            ⟨(z :: T).dropLast, (z :: T).getLast (by simp), (List.dropLast_append_getLast (by simp)).symm⟩
          -- the walk has passed the first node, and no node stands twice in the list
          have hmh : m ≠ head := by
            have hnd := hb.chain.nodup
            rw [← hsplit, hT, hD] at hnd
            rintro rfl
            obtain ⟨rfl, -⟩ : z = m ∧ _ := by simpa [hT, hD] using hsplit
            simp at hnd
          rw [hT'] at hT ⊢
          have hns : head :: rest = T' ++ y :: m :: D := by
            rw [← hsplit, hT, hD]
            simp
          simp only [List.getLast?_append, List.getLast?_singleton, Option.some_or, Option.getD_some, if_neg hmh]
          rw [hns] at hb hQ hT hD
          exact hb.wp_insertBetween hQ hheader hT hD

end places

end insertion

section wait

variable {K : Kind} {s s₀ : Kernel} {c : Ptr} {r : Process} {sem : Int}

theorem wait_done (m : Mid K.quiet s₀ ∅ s c r) (hl : K.resched)
    (hu : s.pidProcessHashTable idleId ≠ some c) :
    wp (wait sem) (fun _ t => Done K s₀ t) K.Allows s := by
  rw [wait, wp_bind, wp_getSemaphoreStruct]
  cases hsem : s.semaphoreTable sem with
  | none => exact m.wp_answer hl _ _
  | some st =>
    simp only [wp_bind, wp_getCurrentProcess, m.running.table, wp_modifyProc m.running.heap]
    have m1 := m.writeSelf (f := fun r => { r with semSignal := 0 }) ⟨rfl, rfl, rfl, rfl, rfl, rfl⟩
      rfl rfl rfl (.inr ⟨rfl, rfl, rfl, rfl, rfl, .inl rfl⟩) rfl
    have hsaves : ∀ (t : Kernel) (x : Process), t.pidProcessHashTable = s.pidProcessHashTable →
        Saves K t c x .wait := fun t x ht => ⟨.inr rfl, (fun h => by cases h), fun hi => absurd (ht ▸ hi) hu, m.acts⟩
    generalize hs1 : (s.mapProc c fun r => { r with semSignal := 0 }) = s1 at m1
    have hsem1 : s1.semaphoreTable sem = some st := by rw [← hs1]; exact hsem
    have htab1 : s1.pidProcessHashTable = s.pidProcessHashTable := by rw [← hs1]; rfl
    by_cases hmin : st.count = minCount
    · rw [if_pos hmin]
      exact m1.wp_answer hl _ _
    · simp only [if_neg hmin, wp_bind, wp_modifySem hsem1]
      have m1 := m1.resched hl
      by_cases hneg : st.count - 1 < 0
      · have hc1 := m1.running.heap
        have hn1 := m1.unlinked
        have ch2 := m1.chain.step (.hold hc1 m1.running.started hn1 (by simp [m.running.state]))
        obtain ⟨ps, hw⟩ := ch2.inv.sems.lists sem st hsem1
        obtain ⟨ns, hb⟩ := hw.list
        have hroom := hw.room
        simp only [if_pos hneg, newNode, wp_bind, wp_get, wp_modify, wp_pure]
        refine (wp_deref (s := s1.withNode sem { st with count := st.count - 1 } c) hc1).2 ?_
        refine wp_waitInsert (s := s1) hb rfl (fun q hq => ?_) ?_
        · obtain ⟨_, x, hx, _⟩ := (hw.mem q).1 hq
          exact ⟨x, hx⟩
        · intro st' N ns' hb' hcount hN
          have hv : ((r.prio : Nat) : Int) = s1.value Process.prioField c := by
            simp [Kernel.value, hc1, Process.prioField]
          rw [hv] at hb'
          have a := ch2.step (.block (by simp) hc1 (by simp [m.running.state, ProcessState.dead]) hsem1
            (htab1 ▸ hu) hw hb hb' hN ⟨by rw [hcount]; simp; omega, .inr fun h => by rw [hcount]; simp; omega⟩
            m1.acts)
          have hrec : ((s1.setBlocked sem st' N (s1.nextNode + 1)).markBlocked c sem).heap c = some { r with
              semSignal := 0, semaphoreId := sem, state := .blockedSemaphore, stamp := s1.insertions } := by
            simp [Kernel.markBlocked, Kernel.setBlocked, Kernel.mapProc, hc1]
          refine schedule_done a hl ⟨m1.running.table, hrec, m1.running.started, m1.running.user⟩
            (by rw [show _ = _ from hn1]; exact fun h => by cases h) ?_ (hsaves _ _ htab1)
          exact Kind.Wakes.mapProc (s := s1.setBlocked sem st' N (s1.nextNode + 1)) m1.wakes
            fun _ _ => ⟨rfl, rfl⟩
      · simp only [if_neg hneg]
        have m2 := m1.step (.count (c := st.count - 1) hsem1 fun ps hw => by
          have := hw.room
          exact ⟨by simp; omega, .inr fun h => by simp; omega⟩) rfl rfl rfl rfl (by simp) m1.wakes
        exact m2.wp_schedule hl (hsaves _ _ htab1)

theorem waitResume_done (m : Mid K.quiet s₀ ∅ s c r) (hl : K.resched) :
    wp waitResume (fun _ t => Done K s₀ t) K.Allows s := by
  simp only [waitResume, wp_bind, wp_getCurrentProcess, m.running.table]
  rw [wp_derefOpt m.running.heap]
  exact m.wp_answer hl _ _

end wait

/-! ## `kill` of the first or the last waiter -/

section removal

variable {s : Kernel} {E : Fault → Prop} {st w : Semaphore}

/-- `iter` stops at the node before the last one. -/
theorem wp_beforeTail {Q : NodePtr → Kernel → Prop} {y tl : NodePtr} {k : List NodePtr} {fuel : Nat}
    {iter : NodePtr} (hseg : Seg s.nextBlock (some iter) (k ++ [y, tl]) none)
    (hnode : ∀ n ∈ k ++ [y, tl], ∃ nd, s.node n = some nd) (hfuel : (k ++ [y]).length ≤ fuel)
    (hQ : Q y s) : wp (beforeTail (some tl) fuel iter) Q E s := by
  have hnd := hseg.nodup
  induction k generalizing iter fuel with
  | nil =>
    obtain ⟨f, rfl⟩ : ∃ f, fuel = f + 1 := ⟨fuel - 1, by simp at hfuel; omega⟩
    obtain ⟨h, hn, _⟩ := hseg
    cases h
    obtain ⟨nd, hy⟩ := hnode y (by simp)
    simp only [Kernel.nextBlock, hy, Option.bind_some] at hn
    rw [beforeTail, wp_bind, wp_derefNode hy, if_pos hn]
    exact hQ
  | cons x k ih =>
    obtain ⟨f, rfl⟩ : ∃ f, fuel = f + 1 := ⟨fuel - 1, by simp at hfuel; omega⟩
    rw [List.cons_append, seg_cons] at hseg
    obtain ⟨h, hrest⟩ := hseg
    cases h
    obtain ⟨nd, hx⟩ := hnode x (by simp)
    simp only [Kernel.nextBlock, hx, Option.bind_some] at hrest
    obtain ⟨z, l, hz⟩ : ∃ z l, k ++ [y, tl] = z :: l := by
      cases k with
      | nil => exact ⟨y, [tl], rfl⟩
      | cons z k => exact ⟨z, k ++ [y, tl], rfl⟩
    have hnext : nd.nextBlockStruct = some z := by
      rw [hz] at hrest
      exact hrest.1
    -- the successor is not the last node, which comes after `y`
    have hztl : z ≠ tl := by
      rintro rfl
      rw [List.cons_append, List.nodup_cons] at hnd
      cases k with
      | nil =>
        obtain ⟨rfl, _⟩ : y = z ∧ _ := by simpa using hz
        simp at hnd
      | cons w k =>
        obtain ⟨rfl, _⟩ : w = z ∧ _ := by simpa using hz
        simp at hnd
    rw [beforeTail, wp_bind, wp_derefNode hx, hnext, if_neg (by simpa using hztl)]
    rw [hnext] at hrest
    refine ih hrest (fun n hn => hnode n (by simp at hn ⊢; tauto)) (by simp at hfuel ⊢; omega) ?_
    exact (List.nodup_cons.1 hnd).2

/-- The list without its last node. -/
theorem Blocked.dropLast {y tl : NodePtr} {k : List NodePtr} {l : List Ptr} {p : Ptr} {nd : Node}
    (h : Blocked s st (k ++ [y, tl]) (l ++ [p])) (hnd : s.node y = some nd)
    (hhead : w.head = st.head) (htail : w.tail = some y) :
    Blocked { s with node := Function.update s.node y (some { nd with nextBlockStruct := none }) } w
      (k ++ [y]) l where
  chain := by
    change Seg (s.setNode y { nd with nextBlockStruct := none }).nextBlock w.head (k ++ [y]) none
    rw [nextBlock_setNode, hhead]
    exact h.chain.dropLast
  tail := by simpa using htail
  procs := by
    change (k ++ [y]).map (s.setNode y { nd with nextBlockStruct := none }).blockedAt = l.map some
    rw [blockedAt_setNode_same hnd]
    have := h.procs
    rw [show k ++ [y, tl] = (k ++ [y]) ++ [tl] by simp] at this
    simp only [List.map_append] at this ⊢
    exact List.append_inj_left' this rfl
  bound n hn := h.bound n (by simp at hn ⊢; tauto)

end removal

section kill

variable {K : Kind} {s s₀ : Kernel} {c p : Ptr} {r x : Process} {sem : Int} {st : Semaphore}

/-- The end of `remove_proc_queue` for `kill`: the process stays in hand. -/
theorem Mid.wp_removeFinish {Q : Int → Kernel → Prop} {n : NodePtr} {nd : Node}
    (m : Mid K s₀ (insert p ∅) s c r) (hnd : s.node n = some nd) (hp : nd.blockedProcess = p)
    (hx : s.heap p = some x) (hd : x.state.dead = false)
    (hQ : ∀ t, Mid K s₀ (insert p ∅) t c r →
      t = (s.mapProc p fun r => { r with state := .activatable }).mapProc p
        (fun r => { r with semSignal := killCall }) → Q 0 t) :
    wp (removeFinish killCall n) Q K.Allows s := by
  subst hp
  have hcp : c ≠ nd.blockedProcess := fun h => m.mine (by simp [h])
  have m1 := m.setActivatable (by simp) hx hd
  have hx1 : (s.mapProc nd.blockedProcess fun r => { r with state := .activatable }).heap
      nd.blockedProcess = some { x with state := .activatable } := by simp [hx]
  simp only [removeFinish, wp_bind, wp_derefNode hnd, wp_modifyProc hx, ne_eq, not_true_eq_false,
    if_false, wp_modifyProc hx1, wp_pure]
  exact hQ _ (m1.write (f := fun r => { r with semSignal := killCall }) hx1 hcp
    ⟨rfl, rfl, rfl, rfl, rfl, rfl⟩ rfl rfl rfl (.inr ⟨rfl, rfl, rfl, rfl, rfl, .inl rfl⟩) rfl) rfl

/-- The process at `p` is the first or the last in the list of the semaphore. -/
def Kernel.AtEnd (s : Kernel) (sem : Int) (p : Ptr) : Prop :=
  ∃ st, s.semaphoreTable sem = some st ∧
    (st.head.bind s.blockedAt = some p ∨ st.tail.bind s.blockedAt = some p)

theorem Blocked.head_proc {ns : List NodePtr} {ps : List Ptr} (h : Blocked s st ns ps) :
    st.head.bind s.blockedAt = ps.head? := by
  rw [h.head_eq]
  have := congrArg List.head? h.procs
  cases ns with
  | nil =>
    obtain rfl : ps = [] := List.eq_nil_of_length_eq_zero (by simpa using h.length_eq.symm)
    rfl
  | cons n ns =>
    cases ps with
    | nil => simpa using h.length_eq
    | cons q ps => simpa using this

theorem Blocked.last_proc {ns : List NodePtr} {ps : List Ptr} (h : Blocked s st ns ps) :
    st.tail.bind s.blockedAt = ps.getLast? := by
  rw [h.tail]
  have := congrArg List.getLast? h.procs
  simp only [List.getLast?_map] at this
  cases hl : ns.getLast? with
  | none =>
    rw [hl] at this
    cases hp : ps.getLast? with
    | none => rfl
    | some q => rw [hp] at this; cases this
  | some n =>
    rw [hl] at this
    cases hp : ps.getLast? with
    | none => rw [hp] at this; cases this
    | some q =>
      rw [hp] at this
      simpa using this

/-- The node of the process at `p` was taken off the list of the semaphore, and its
count went up by one. -/
def Struck (s t : Kernel) (sem : Int) (p : Ptr) : Prop :=
  ∃ st st' ns ns' ps, s.semaphoreTable sem = some st ∧ Blocked s st ns ps ∧ t.semaphoreTable sem = some st' ∧
    st'.count = st.count + 1 ∧ Blocked t st' ns' (ps.erase p) ∧ ns'.Sublist ns

section strike

variable {Q : Int → Kernel → Prop} {ps : List Ptr} {ns : List NodePtr} {n : NodePtr} {nd : Node} (m : Mid K s₀ ∅ s c r)
  (hx : s.heap p = some x) (hstate : x.state = .blockedSemaphore) (hsem : s.semaphoreTable sem = some st)
  (hw : Waiters ∅ s sem st ps) (hb : Blocked s st ns ps)
  (hQ : ∀ t, Mid K s₀ (insert p ∅) t c r → t.heap = Function.update s.heap p
    (some { x with state := .activatable, semSignal := killCall }) →
    t.pidProcessHashTable = s.pidProcessHashTable → t.nextPtr = s.nextPtr → Struck s t sem p → Q 0 t)

include m hx in
/-- The process of a node is the one to be killed exactly if it has its pid. -/
theorem Mid.pid_eq_iff {q : Ptr} {y : Process} (hy : s.heap q = some y) : y.pid = x.pid ↔ q = p := by
  refine ⟨m.inv.pid_inj hy hx, ?_⟩
  rintro rfl
  rw [hx] at hy
  cases hy
  rfl

include m hx hstate hsem hb hQ

/-- Once the node is off the list, the process in hand is marked. -/
theorem Mid.wp_struck {st' : Semaphore} {N : NodePtr → Option Node} {ns' : List NodePtr}
    (a : Act K ∅ s (insert p ∅) (s.setBlocked sem st' N s.nextNode)) (hn : N n = some nd) (hp : nd.blockedProcess = p)
    (hcount : st'.count = st.count + 1) (hlist : Blocked { s with node := N } st' ns' (ps.erase p)) (hsub : ns'.Sublist ns) :
    wp (removeFinish killCall n) (fun _ t => Q 0 t) K.Allows (s.setBlocked sem st' N s.nextNode) := by
  have hd : x.state.dead = false := by simp [hstate, ProcessState.dead]
  have hcp : c ≠ p := by
    rintro rfl
    rw [m.running.heap] at hx
    cases hx
    rw [m.running.state] at hstate
    cases hstate
  have m1 : Mid K s₀ (insert p ∅) (s.setBlocked sem st' N s.nextNode) c r :=
    m.step a rfl rfl rfl rfl (by simp [hcp]) m.wakes
  refine m1.wp_removeFinish hn hp hx hd ?_
  rintro u m2 rfl
  refine hQ _ m2 ?_ rfl rfl ⟨st, st', ns, ns', ps, hsem, hb, ?_, hcount, ?_, hsub⟩
  · simp [Kernel.setBlocked, Kernel.mapProc, hx]
  · exact Function.update_self ..
  · exact ⟨hlist.chain, hlist.tail, hlist.procs, hlist.bound⟩

include hw

/-- The first process is taken off the list. -/
theorem Mid.wp_removeFirst (hfirst : ps.head? = some p)
    (hcount : CountStep K sem st { st with count := st.count + 1 } ps.length (ps.length - 1)) :
    wp (removeProcQueue sem killCall x.pid) (fun _ t => Q 0 t) K.Allows
      (s.setSem sem (some { st with count := st.count + 1 })) := by
  obtain ⟨l, rfl⟩ : ∃ l, ps = p :: l := by
    cases ps with
    | nil => cases hfirst
    | cons q l => exact ⟨l, by rw [show q = p by simpa using hfirst]⟩
  obtain ⟨n, ns, nd, rfl, hhead, hnd, hp, hseg, hprocs⟩ := hb.cons
  have hy : s.heap nd.blockedProcess = some x := by rw [hp, hx]
  have hb2 := hb.tailList (w := { st with count := st.count + 1 }) hnd rfl
  have a : Act K ∅ s (insert p ∅)
      (s.setBlocked sem (({ st with count := st.count + 1 } : Semaphore).dropHead nd) s.node s.nextNode) :=
    .unblock (a := []) hsem hw hb ⟨hb2.chain, hb2.tail, hb2.procs, hb2.bound⟩
      (fun _ _ _ => rfl) (hcount.congr (by simp))
  have hcountEq : (({ st with count := st.count + 1 } : Semaphore).dropHead nd).count = st.count + 1 := by
    unfold Semaphore.dropHead
    split <;> rfl
  have hlist : Blocked { s with node := s.node } (({ st with count := st.count + 1 } : Semaphore).dropHead nd) ns
      ((p :: l).erase p) := by
    rw [List.erase_cons_head]
    exact ⟨hb2.chain, hb2.tail, hb2.procs, hb2.bound⟩
  have finish := m.wp_struck hx hstate hsem hb hQ a hnd hp hcountEq hlist (List.sublist_cons_self n ns)
  simp only [removeProcQueue, wp_bind]
  rw [wp_derefSem setSem_semaphoreTable_self, show ({ st with count := st.count + 1 } : Semaphore).listHeaderProcess =
    some ⟨some n, st.tail⟩ from Semaphore.header_of_head hhead]
  simp only [wp_bind]
  rw [wp_derefNode (s := s.setSem sem _) hnd]
  by_cases hone : some n = st.tail
  · have heq : ({ st with count := st.count + 1 } : Semaphore).head = ({ st with count := st.count + 1 } : Semaphore).tail :=
      hhead.trans hone
    rw [Semaphore.dropHead, if_pos heq] at finish
    simp only [if_pos hone, wp_bind, wp_deref (s := s.setSem sem _) hy, if_true]
    rw [wp_setHeader setSem_semaphoreTable_self, setSem_setSem]
    exact finish
  · have hne : ¬ ({ st with count := st.count + 1 } : Semaphore).head = ({ st with count := st.count + 1 } : Semaphore).tail :=
      fun h => hone (hhead.symm.trans h)
    rw [Semaphore.dropHead, if_neg hne] at finish
    simp only [if_neg hone, wp_bind, wp_deref (s := s.setSem sem _) hy, if_true]
    rw [wp_setHeader setSem_semaphoreTable_self, setSem_setSem]
    exact finish

/-- The last process, which is not the first, is taken off the list. -/
theorem Mid.wp_removeLast (hfirst : ps.head? ≠ some p) (hlast : ps.getLast? = some p)
    (hcount : CountStep K sem st { st with count := st.count + 1 } ps.length (ps.length - 1)) :
    wp (removeProcQueue sem killCall x.pid) (fun _ t => Q 0 t) K.Allows
      (s.setSem sem (some { st with count := st.count + 1 })) := by
  obtain ⟨q, l, rfl⟩ : ∃ q l, ps = q :: l := by
    cases ps with
    | nil => cases hlast
    | cons q l => exact ⟨q, l, rfl⟩
  obtain ⟨n, ns, nd, rfl, hhead, hnd, rfl, hseg, hprocs⟩ := hb.cons
  obtain ⟨_, y, hy, _⟩ := (hw.mem nd.blockedProcess).1 (by simp)
  have hne : nd.blockedProcess ≠ p := by simpa using hfirst
  obtain ⟨l₀, hl₀⟩ := List.getLast?_eq_some_iff.1 hlast
  obtain ⟨tl, htl⟩ : ∃ tl, (n :: ns).getLast? = some tl := ⟨_, List.getLast?_eq_some_getLast (by simp)⟩
  obtain ⟨k₀, hk₀⟩ := List.getLast?_eq_some_iff.1 htl
  have htail : st.tail = some tl := hb.tail.trans htl
  have hbtl : s.blockedAt tl = some p := by
    have := hb.last_proc
    rw [htail, hlast] at this
    exact this
  obtain ⟨ndt, hndt, hndp⟩ := Option.map_eq_some_iff.1 hbtl
  have hntl : n ≠ tl := by
    rintro rfl
    rw [hnd] at hndt
    cases hndt
    exact hne hndp
  obtain ⟨k, y', rfl⟩ : ∃ k y', k₀ = k ++ [y'] := by
    refine ⟨k₀.dropLast, k₀.getLast ?_, (List.dropLast_append_getLast _).symm⟩
    rintro rfl
    exact hntl (by simpa using congrArg List.head? hk₀)
  rw [List.append_assoc] at hk₀
  have hends : Blocked s st (k ++ ([y'] ++ [tl])) (l₀ ++ [p]) := by rwa [← hk₀, ← hl₀]
  have hym : y' ∈ k ++ ([y'] ++ [tl]) := by simp
  obtain ⟨_, _, hyb⟩ := hends.mem_procs hym
  obtain ⟨ndy, hndy, _⟩ := Option.map_eq_some_iff.1 hyb
  have hb2 := hends.dropLast (w := ⟨st.count + 1, some ⟨some n, some y'⟩⟩) hndy hhead.symm rfl
  have a : Act K ∅ s (insert p ∅) (s.setBlocked sem ⟨st.count + 1, some ⟨some n, some y'⟩⟩
      (Function.update s.node y' (some { ndy with nextBlockStruct := none })) s.nextNode) := by
    have hb3 : Blocked { s with node := Function.update s.node y' (some { ndy with nextBlockStruct := none }) }
        ⟨st.count + 1, some ⟨some n, some y'⟩⟩ (k ++ [y']) (l₀ ++ []) := by
      rw [List.append_nil]
      exact ⟨hb2.chain, hb2.tail, hb2.procs, hb2.bound⟩
    refine .unblock (a := l₀) (b := []) hsem (hl₀ ▸ hw) hends hb3 (fun j _ hj => ?_) ?_
    · exact Function.update_of_ne (by rintro rfl; exact hj hym) _ _
    · rw [hl₀] at hcount
      have := hcount.congr (w := ⟨st.count + 1, some ⟨some n, some y'⟩⟩) rfl
      simpa using this
  have hnot : p ∉ l₀ := by
    have := hw.nodup
    rw [hl₀, List.nodup_append] at this
    exact fun hp => this.2.2 p hp p (by simp) rfl
  have hlist : Blocked { s with node := Function.update s.node y' (some { ndy with nextBlockStruct := none }) }
      ⟨st.count + 1, some ⟨some n, some y'⟩⟩ (k ++ [y']) ((nd.blockedProcess :: l).erase p) := by
    rw [hl₀, List.erase_append_right _ hnot, List.erase_cons_head, List.append_nil]
    exact ⟨hb2.chain, hb2.tail, hb2.procs, hb2.bound⟩
  have hnodup := hends.chain.nodup
  have hmarked : Function.update s.node y' (some { ndy with nextBlockStruct := none }) tl = some ndt := by
    rw [Function.update_of_ne]
    · exact hndt
    · rintro rfl
      rw [List.nodup_append] at hnodup
      simp at hnodup
  have hsub : (k ++ [y']).Sublist (n :: ns) := by
    rw [hk₀, ← List.append_assoc]
    exact List.sublist_append_left _ _
  have finish := m.wp_struck hx hstate hsem hb hQ a hmarked hndp rfl hlist hsub
  have hpid : ¬ y.pid = x.pid := fun h => hne ((m.pid_eq_iff hx hy).1 h)
  have hpx : s.heap ndt.blockedProcess = some x := by rw [hndp, hx]
  simp only [removeProcQueue, wp_bind]
  rw [wp_derefSem setSem_semaphoreTable_self, show ({ st with count := st.count + 1 } : Semaphore).listHeaderProcess =
    some ⟨some n, st.tail⟩ from Semaphore.header_of_head hhead]
  simp only [wp_bind]
  rw [wp_derefNode (s := s.setSem sem _) hnd]
  simp only [htail, if_neg (show ¬ some n = some tl by simpa using hntl), wp_bind,
    wp_deref (s := s.setSem sem _) hy, if_neg hpid, wp_derefNode (s := s.setSem sem _) hndt,
    wp_deref (s := s.setSem sem _) hpx, if_true, wp_get]
  refine wp_beforeTail (y := y') (k := k) (s := s.setSem sem _) ?_ ?_ ?_ ?_
  · have := hends.chain
    rw [hhead] at this
    exact this
  · intro j hj
    obtain ⟨_, _, hjb⟩ := hends.mem_procs (n := j) hj
    obtain ⟨ndj, hndj, _⟩ := Option.map_eq_some_iff.1 hjb
    exact ⟨ndj, hndj⟩
  · -- the nodes before the last are fewer than those ever allocated
    have hrange : k ++ [y'] ⊆ List.range s.nextNode := fun j hj =>
      List.mem_range.2 (hends.bound j (by simp at hj ⊢; tauto))
    rw [← List.append_assoc] at hnodup
    have := (List.subperm_of_subset (List.nodup_append.1 hnodup).1 hrange).length_le
    rwa [List.length_range] at this
  · rw [wp_setNextBlockStruct (s := s.setSem sem _) hndy]
    rw [wp_setHeader (s := (s.setSem sem _).setNode y' _) setSem_semaphoreTable_self]
    have hset : ∀ w, ((s.setSem sem w).setNode y' { ndy with nextBlockStruct := none }).setSem sem
        (some ⟨st.count + 1, some ⟨some n, some y'⟩⟩) = s.setBlocked sem ⟨st.count + 1, some ⟨some n, some y'⟩⟩
          (Function.update s.node y' (some { ndy with nextBlockStruct := none })) s.nextNode := fun w => by
      simp [Kernel.setBlocked, Kernel.setSem, Kernel.setNode]
    rw [hset]
    exact finish

end strike

/-- A process that waits for a semaphore at either end of its list is taken off
the list for `kill`. -/
theorem Mid.wp_procKillDiag {Q : Int → Kernel → Prop} (m : Mid K s₀ ∅ s c r) (hx : s.heap p = some x)
    (hwf : WaitsFor ∅ s p sem) (hend : s.AtEnd sem p)
    (hQ : ∀ t, Mid K s₀ (insert p ∅) t c r → t.heap = Function.update s.heap p
      (some { x with state := .activatable, semSignal := killCall }) →
      t.pidProcessHashTable = s.pidProcessHashTable → t.nextPtr = s.nextPtr → Struck s t sem p → Q 0 t) :
    wp (procKillDiag sem x.pid) Q K.Allows s := by
  obtain ⟨st, hsem, hst⟩ := hend
  obtain ⟨ps, hw⟩ := m.inv.sems.lists sem st hsem
  obtain ⟨ns, hb⟩ := hw.list
  have hps : p ∈ ps := (hw.mem p).2 hwf
  have hroom := hw.room
  have hpos := List.length_pos_of_mem hps
  obtain ⟨_, x', hx', hstart, hstate, _⟩ := hwf
  rw [hx] at hx'
  cases hx'
  have hcount : CountStep K sem st { st with count := st.count + 1 } ps.length (ps.length - 1) :=
    ⟨by simp; omega, .inr fun h => by simp; omega⟩
  have hne : st.count ≠ maxCount := by
    unfold maxCount
    omega
  simp only [procKillDiag, wp_bind, wp_getSemaphoreStruct, hsem, if_neg hne, wp_modifySem hsem,
    if_pos (show st.count + 1 ≤ 0 by omega), wp_pure]
  by_cases hfirst : ps.head? = some p
  · exact m.wp_removeFirst hx hstate hsem hw hb hQ hfirst hcount
  · rw [hb.head_proc, hb.last_proc] at hst
    exact m.wp_removeLast hx hstate hsem hw hb hQ hfirst (hst.resolve_left hfirst) hcount

end kill

end Xinul
