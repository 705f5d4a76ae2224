import Xinul.Proofs.BlockedLists
import Xinul.Proofs.Exec

/-!
# The order of the waiting lists, action by action

A process is served before another one when its priority is greater, or when it is
the same and the process was chained before the other one. The queues of the
scheduler and of the messages are served from their end, the lists of the semaphores
from their head.
-/

namespace Xinul

open Waiting

/-- The priority of the process and the number of the insertion that chained it. -/
def Kernel.rank (s : Kernel) (p : Ptr) : Option (Nat × Nat) := (s.heap p).map fun r => (r.prio, r.stamp)

/-- The process at `p` is to be served before the one at `q`. -/
def Kernel.Serves (s : Kernel) (p q : Ptr) : Prop :=
  ∃ a b, s.rank p = some a ∧ s.rank q = some b ∧ (b.1 < a.1 ∨ a.1 = b.1 ∧ a.2 < b.2)

/-- Every queue ordered by priority is in the order it is served in, from its end on. -/
structure QueueOrder (s : Kernel) : Prop where
  served : ∀ hd, hd ≠ .asleep → (s.queue hd).Pairwise fun p q => s.Serves q p
  older : ∀ hd, hd ≠ .asleep → ∀ p ∈ s.queue hd, ∀ a, s.rank p = some a → a.2 < s.insertions

/-- The list of every semaphore is in the order it is served in. -/
structure ListOrder (s : Kernel) : Prop where
  served : ∀ sem st ns ps, s.semaphoreTable sem = some st → Blocked s st ns ps → ps.Pairwise s.Serves
  older : ∀ sem st ns ps, s.semaphoreTable sem = some st → Blocked s st ns ps →
    ∀ p ∈ ps, ∀ a, s.rank p = some a → a.2 < s.insertions

/-- How an action changes a queue. -/
inductive QueueStep (H : Set Ptr) (s t : Kernel) (hd : QueueHead) : Prop where
  | kept : (t.queue hd).Sublist (s.queue hd) → QueueStep H s t hd
  | added {p r} : p ∈ H → s.heap p = some r → t.queue hd = s.inserted p r hd →
      t.rank p = some (r.prio, s.insertions) → t.insertions = s.insertions + 1 → QueueStep H s t hd

section

variable {K : Kind} {H H' : Set Ptr} {s s₀ t : Kernel} {p q : Ptr} {r x : Process} {hd : QueueHead}
  {l : List Ptr}

theorem rank_of_heap (h : s.heap p = some r) : s.rank p = some (r.prio, r.stamp) := by
  simp [Kernel.rank, h]

theorem rank_mapProc {f : Process → Process} (hp : s.heap p = some r) (prio : (f r).prio = r.prio)
    (stamp : (f r).stamp = r.stamp) : (s.mapProc p f).rank q = s.rank q := by
  unfold Kernel.rank
  by_cases hq : q = p
  · subst hq
    simp [hp, prio, stamp]
  · simp [hq]

theorem rank_mapProc_of_ne {f : Process → Process} (hq : q ≠ p) : (s.mapProc p f).rank q = s.rank q := by
  simp [Kernel.rank, hq]

theorem rank_congr (h : t.heap = s.heap) : t.rank q = s.rank q := by
  simp [Kernel.rank, h]

theorem Kernel.Serves.congr (h : s.Serves p q) (hp : t.rank p = s.rank p) (hq : t.rank q = s.rank q) :
    t.Serves p q := by
  obtain ⟨a, b, ha, hb, hab⟩ := h
  exact ⟨a, b, hp.trans ha, hq.trans hb, hab⟩

/-- An action that is not to change the priority of a process keeps its rank. -/
theorem Act.rank_eq (a : Act K H s H' t) (hi : Inv H s) (hH : q ∉ H) (hq : s.heap q = some x)
    (hst : x.started = true) (alive : x.nextPrev = none → x.state.dead = false)
    (hK : ∀ v, (v = x.prio ∨ K.reorder ∨ x.nextPrev = none ∨ x.nextPrev = some .asleep) →
      (v = x.prio ∨ K.reorderSem ∨ ∀ sem, ¬ WaitsFor H s q sem) → v = x.prio) : t.rank q = s.rank q := by
  cases a with
  | write hp _ prio stamp => exact rank_mapProc hp prio stamp
  | set hp => exact rank_mapProc_of_ne fun he => hH (he ▸ hp)
  | @link _ _ p =>
    have hqp : q ≠ p := by
      rintro rfl
      exact hH (by simp)
    simp [Kernel.rank, hqp]
  | @unlink _ _ p r hd hp => exact rank_mapProc (f := fun r => { r with nextPrev := none }) hp rfl rfl
  | @reprio _ _ p r v hp h1 h2 =>
    by_cases hqp : q = p
    · subst hqp
      rw [hq] at hp
      cases hp
      exact rank_mapProc (f := fun r => { r with prio := v }) hq (hK v h1 h2) rfl
    · exact rank_mapProc_of_ne hqp
  | @free _ _ p r hp hn hd =>
    have hqp : q ≠ p := by
      rintro rfl
      rw [hq] at hp
      cases hp
      rw [alive hn] at hd
      cases hd
    simp [Kernel.rank, Kernel.freeRecord, hqp]
  | alloc =>
    have hne : q ≠ s.nextPtr := (hi.fresh q x hq).ne
    simp [Kernel.rank, hne]
  | @birth _ _ p r f _ hp hold =>
    refine rank_mapProc_of_ne ?_
    rintro rfl
    rw [hq] at hp
    cases hp
    rw [hst] at hold
    cases hold
  | @block _ _ p r sem =>
    have hqp : q ≠ p := by
      rintro rfl
      exact hH (by simp)
    simp [Kernel.rank, Kernel.markBlocked, Kernel.setBlocked, Kernel.mapProc, hqp]
  | other same => exact rank_congr same.heap
  | _ => exact rank_congr rfl

theorem Act.insertions_le (a : Act K H s H' t) : s.insertions ≤ t.insertions := by
  cases a with
  | link => exact Nat.le_succ _
  | block => exact Nat.le_succ _
  | other same => exact same.insertions.ge
  | _ => exact le_rfl

theorem Act.queueStep (a : Act K H s H' t) (hd : QueueHead) : QueueStep H s t hd := by
  cases a with
  | @link _ _ p r d hH hp =>
    by_cases hdd : hd = d
    · subst hdd
      refine .added (by simp) hp (by simp) ?_ rfl
      simp [Kernel.rank, hp]
    · refine .kept ?_
      simp [hdd]
  | @unlink _ _ p r d hp hl =>
    refine .kept ?_
    by_cases hdd : hd = d
    · subst hdd
      simpa using List.erase_sublist
    · simp [hdd]
  | other same => exact .kept (by rw [same.queue])
  | _ => exact .kept (List.Sublist.refl _)

/-! ## The queues -/

/-- The members of the queues keep their ranks. -/
theorem Act.rank_of_queue (a : Act K H s H' t) (hi : Inv H s) (hK : ¬ K.reorder) (hne : hd ≠ .asleep)
    (hq : q ∈ s.queue hd) : t.rank q = s.rank q := by
  obtain ⟨x, hx, hn, hH⟩ := hi.live_of_mem hq
  refine a.rank_eq hi hH hx ((hi.fits q x hx hH).linked hn).1 (fun h => ?_) fun v h _ => ?_
  · rw [hn] at h
    cases h
  · rcases h with h | h | h | h
    · exact h
    · exact absurd h hK
    · rw [hn] at h
      cases h
    · rw [hn] at h
      exact absurd (Option.some.inj h) hne

/-- The process that is chained comes after those that are to be served before it. -/
theorem QueueOrder.inserted (h : QueueOrder s) (hi : Inv H s) (hne : hd ≠ .asleep)
    (hpt : t.rank p = some (r.prio, s.insertions)) (same : ∀ q ∈ s.queue hd, t.rank q = s.rank q) :
    (s.inserted p r hd).Pairwise fun a b => t.Serves b a := by
  have field : hd.field = Process.prioField := by cases hd <;> first | rfl | contradiction
  have rank : ∀ c ∈ s.queue hd, ∃ a : Nat × Nat, s.rank c = some a ∧ s.value hd.field c = a.1 := by
    intro c hc
    obtain ⟨x, hx, _⟩ := hi.live_of_mem hc
    exact ⟨_, rank_of_heap hx, by simp [Kernel.value, hx, field, Process.prioField]⟩
  have value : hd.field r = r.prio := by simp [field, Process.prioField]
  refine pairwise_insertWhile ((h.served hd hne).imp_of_mem fun ha hb hab => hab.congr (same _ hb) (same _ ha))
    (fun c hc hlt => ?_) (fun c hc hge => ?_) fun a ha b hb hab hlt => ?_
  · obtain ⟨a, ha, hv⟩ := rank c hc
    refine ⟨_, a, hpt, (same c hc).trans ha, .inl ?_⟩
    simp only [decide_eq_true_eq, hv, value] at hlt
    omega
  · obtain ⟨a, ha, hv⟩ := rank c hc
    refine ⟨a, _, (same c hc).trans ha, hpt, ?_⟩
    have hold := h.older hd hne c hc a ha
    simp only [decide_eq_false_iff_not, hv, value] at hge
    rcases Nat.lt_or_ge r.prio a.1 with hlt | hle
    · exact .inl hlt
    · exact .inr ⟨by omega, hold⟩
  · obtain ⟨k, hk, hvk⟩ := rank a ha
    obtain ⟨k', hk', hvk'⟩ := rank b hb
    obtain ⟨i, j, hi, hj, hij⟩ := hab
    rw [same b hb, hk'] at hi
    rw [same a ha, hk] at hj
    cases hi
    cases hj
    simp only [decide_eq_true_eq, hvk, hvk', value] at hlt ⊢
    omega

theorem Act.queueOrder (a : Act K H s H' t) (hi : Inv H s) (hK : ¬ K.reorder) (h : QueueOrder s) : QueueOrder t := by
  refine ⟨fun hd hne => ?_, fun hd hne p hp k hk => ?_⟩
  · cases a.queueStep hd with
    | kept hsub =>
      exact ((h.served hd hne).sublist hsub).imp_of_mem fun ha hb hab =>
        hab.congr (a.rank_of_queue hi hK hne (hsub.subset hb)) (a.rank_of_queue hi hK hne (hsub.subset ha))
    | added _ _ hq hr _ =>
      rw [hq]
      exact h.inserted hi hne hr fun q hq => a.rank_of_queue hi hK hne hq
  · have old : p ∈ s.queue hd → k.2 < t.insertions := by
      intro hm
      rw [a.rank_of_queue hi hK hne hm] at hk
      exact (h.older hd hne p hm k hk).trans_le a.insertions_le
    cases a.queueStep hd with
    | kept hsub => exact old (hsub.subset hp)
    | added _ _ hq hr hins =>
      rw [hq] at hp
      rcases mem_insertWhile.1 hp with rfl | hm
      · rw [hr] at hk
        cases hk
        omega
      · exact old hm

theorem Chain.queueOrder (ch : Chain K s₀ H s) (hK : ¬ K.reorder) (h : QueueOrder s₀) : QueueOrder s :=
  ch.induct (P := fun _ s => QueueOrder s) h fun _ _ _ _ hi h a => a.queueOrder hi hK h

theorem Kernel.Serves.prio_le (h : s.Serves p q) (hp : s.heap p = some r) (hq : s.heap q = some x) :
    x.prio ≤ r.prio := by
  obtain ⟨a, b, ha, hb, hab⟩ := h
  rw [rank_of_heap hp] at ha
  rw [rank_of_heap hq] at hb
  cases ha
  cases hb
  simp only at hab
  omega

theorem QueueOrder.actOrder (h : QueueOrder s) (hi : Inv H s) : ActOrder s := by
  refine (h.served .activatable fun h => by cases h).imp_of_mem fun {a b} ha hb hab => ?_
  obtain ⟨x, hx, _⟩ := hi.live_of_mem ha
  obtain ⟨y, hy, _⟩ := hi.live_of_mem hb
  have := hab.prio_le hy hx
  simpa [Kernel.value, hx, hy, Process.prioField] using this

/-! ## The lists of the semaphores -/

variable {sem : Int} {st : Semaphore} {ns : List NodePtr} {ps : List Ptr}

/-- The members of the blocked list of a semaphore wait for it. -/
theorem Inv.waits (hi : Inv H s) (hst : s.semaphoreTable sem = some st) (hb : Blocked s st ns ps) (hq : q ∈ ps) :
    WaitsFor H s q sem := by
  obtain ⟨ps', hw⟩ := hi.sems.lists sem st hst
  obtain ⟨ns', hb'⟩ := hw.list
  obtain ⟨_, rfl⟩ := hb.unique hb'
  exact (hw.mem q).1 hq

/-- The members of the lists keep their ranks. -/
theorem Act.rank_of_list (a : Act K H s H' t) (hi : Inv H s) (hK : ¬ K.reorderSem)
    (hst : s.semaphoreTable sem = some st) (hb : Blocked s st ns ps) (hq : q ∈ ps) : t.rank q = s.rank q := by
  have hw := hi.waits hst hb hq
  obtain ⟨hH, x, hx, hstart, hstate, _⟩ := hw
  refine a.rank_eq hi hH hx hstart (fun _ => by rw [hstate]; rfl) fun v _ h => ?_
  rcases h with h | h | h
  · exact h
  · exact absurd h hK
  · exact absurd (hi.waits hst hb hq) (h sem)

/-- The process that is blocked comes after those that are to be served before it. -/
theorem ListOrder.inserted (h : ListOrder s) (hi : Inv H s) (hst : s.semaphoreTable sem = some st)
    (hb : Blocked s st ns ps) (hp : s.heap p = some r) (hpt : t.rank p = some (r.prio, s.insertions))
    (same : ∀ q ∈ ps, t.rank q = s.rank q) :
    (insertWhile (fun q => s.value Process.prioField p ≤ s.value Process.prioField q) p ps).Pairwise t.Serves := by
  have rank : ∀ c ∈ ps, ∃ a : Nat × Nat, s.rank c = some a ∧ s.value Process.prioField c = a.1 := by
    intro c hc
    obtain ⟨_, x, hx, _⟩ := hi.waits hst hb hc
    exact ⟨_, rank_of_heap hx, by simp [Kernel.value, hx, Process.prioField]⟩
  have value : s.value Process.prioField p = r.prio := by simp [Kernel.value, hp, Process.prioField]
  refine pairwise_insertWhile ((h.served sem st ns ps hst hb).imp_of_mem fun ha hb hab =>
    hab.congr (same _ ha) (same _ hb)) (fun c hc hle => ?_) (fun c hc hgt => ?_) fun a ha b hb hab hle => ?_
  · obtain ⟨a, ha, hv⟩ := rank c hc
    refine ⟨a, _, (same c hc).trans ha, hpt, ?_⟩
    have hold := h.older sem st ns ps hst hb c hc a ha
    simp only [decide_eq_true_eq, hv, value] at hle
    rcases Nat.lt_or_ge r.prio a.1 with hlt | hge
    · exact .inl hlt
    · exact .inr ⟨by omega, hold⟩
  · obtain ⟨a, ha, hv⟩ := rank c hc
    refine ⟨_, a, hpt, (same c hc).trans ha, .inl ?_⟩
    simp only [decide_eq_false_iff_not, hv, value] at hgt
    omega
  · obtain ⟨k, hk, hvk⟩ := rank a ha
    obtain ⟨k', hk', hvk'⟩ := rank b hb
    obtain ⟨i, j, hi, hj, hij⟩ := hab
    rw [same a ha, hk] at hi
    rw [same b hb, hk'] at hj
    cases hi
    cases hj
    simp only [decide_eq_true_eq, hvk, hvk', value] at hle ⊢
    omega

theorem Act.listOrder (a : Act K H s H' t) (hi : Inv H s) (hK : ¬ K.reorderSem) (h : ListOrder s) : ListOrder t := by
  refine ⟨fun sem st ns ps hst hb => ?_, fun sem st ns ps hst hb p hp k hk => ?_⟩
  · cases a.listStep hi hst hb with
    | kept hold hbl _ =>
      exact (h.served _ _ _ _ hold hbl).imp_of_mem fun ha hb hab =>
        hab.congr (a.rank_of_list hi hK hold hbl ha) (a.rank_of_list hi hK hold hbl hb)
    | blocked hold hbl hp _ hps ht _ _ =>
      rw [hps]
      exact h.inserted hi hold hbl hp (by simp [Kernel.rank, ht]) fun q hq => a.rank_of_list hi hK hold hbl hq
    | @unblocked _ _ l₁ q l₂ hold hbl hps _ _ =>
      rw [hps]
      have hsub := (List.sublist_cons_self q l₂).append_left l₁
      exact ((h.served _ _ _ _ hold hbl).sublist hsub).imp_of_mem fun ha hb hab =>
        hab.congr (a.rank_of_list hi hK hold hbl (hsub.subset ha)) (a.rank_of_list hi hK hold hbl (hsub.subset hb))
    | fresh hnil _ =>
      rw [hnil]
      exact .nil
  · have old : ∀ {old ns l}, s.semaphoreTable sem = some old → Blocked s old ns l → p ∈ l → k.2 < t.insertions := by
      intro old ns l hold hbl hm
      rw [a.rank_of_list hi hK hold hbl hm] at hk
      exact (h.older _ _ _ _ hold hbl p hm k hk).trans_le a.insertions_le
    cases a.listStep hi hst hb with
    | kept hold hbl _ => exact old hold hbl hp
    | blocked hold hbl hr _ hps ht hins _ =>
      rw [hps] at hp
      rcases mem_insertWhile.1 hp with rfl | hm
      · simp only [Kernel.rank, ht, Function.update_self, Option.map_some, Option.some.injEq] at hk
        subst hk
        exact hins ▸ Nat.lt_succ_self _
      · exact old hold hbl hm
    | unblocked hold hbl hps _ _ =>
      rw [hps] at hp
      exact old hold hbl (((List.sublist_cons_self _ _).append_left _).subset hp)
    | fresh hnil _ =>
      rw [hnil] at hp
      cases hp

theorem Chain.listOrder (ch : Chain K s₀ H s) (hK : ¬ K.reorderSem) (h : ListOrder s₀) : ListOrder s :=
  ch.induct (P := fun _ s => ListOrder s) h fun _ _ _ _ hi h a => a.listOrder hi hK h

end

end Xinul
