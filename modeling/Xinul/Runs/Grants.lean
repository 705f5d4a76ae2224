import Mathlib.Data.Multiset.AddSub
import Mathlib.Data.Multiset.Replicate
import Xinul.Proofs.SemSteps
import Xinul.Runs.SemaphoreLists

/-!
# What a semaphore grants

The calls of `wait` and `try_wait` that a semaphore granted are noted along the run,
by what is seen of them: a call was granted when it took a unit without blocking its
process, or when its process is no longer blocked after `signal` or `signaln`. The
count of the semaphore is what this and the units it was given leave.
-/

namespace Xinul

open Prog Machine

/-- The process at `p` is blocked on the semaphore. -/
def Kernel.waitsFor (s : Kernel) (sem : Int) (p : Ptr) : Bool :=
  match s.heap p with
  | some r => r.started && decide (r.state = .blockedSemaphore) && decide (r.semaphoreId = sem)
  | none => false

/-- The processes that were blocked on the semaphore in `s` and are not in `t`. -/
def woken (s t : Kernel) (sem : Int) : List Ptr :=
  (List.range s.nextPtr).filter fun p => s.waitsFor sem p && !t.waitsFor sem p

/-- The count went down by one. -/
def tookUnit (s t : Kernel) (sem : Int) : Bool :=
  match s.semaphoreTable sem, t.semaphoreTable sem with
  | some st, some st' => st'.count = st.count - 1
  | _, _ => false

/-- The call of the process at `c` returns 0. -/
def returnsZero (t : Kernel) (c : Ptr) : Bool := (t.heap c).map (·.context) = some (.user (some ⟨0, []⟩))

/-- What happened to a semaphore since it was created: the count it was given, the calls
it granted and the units it got. `inside` are the processes between a call that was
granted and their `signal`; `proper` tells that none signalled without being there. -/
structure Ledger where
  initial : Int
  granted : Nat
  units : Nat
  inside : Multiset Ptr
  proper : Bool
  deriving DecidableEq

/-- The processes in `l` are granted their calls. -/
def Ledger.grant (k : Ledger) (l : List Ptr) : Ledger :=
  { k with granted := k.granted + l.length, inside := k.inside + (l : Multiset Ptr) }

/-- The process at `c` signals `n` units. -/
def Ledger.signal (k : Ledger) (c : Ptr) (n : Nat) : Ledger :=
  { k with
    units := k.units + n
    inside := k.inside - Multiset.replicate n c
    proper := k.proper && decide (n ≤ k.inside.count c) }

/-- A call of the process at `c` took the kernel from `s` to `t`. -/
def Ledger.call (sem : Int) (s t : Kernel) (c : Ptr) (k : Ledger) : Syscall → Ledger
  | .screate count _ =>
    if (s.semaphoreTable sem).isNone ∧ (t.semaphoreTable sem).isSome then ⟨toInt16 count, 0, 0, 0, true⟩ else k
  | .wait i => if toInt32 i = sem ∧ tookUnit s t sem ∧ t.waitsFor sem c = false then k.grant [c] else k
  | .tryWait i => if toInt32 i = sem ∧ tookUnit s t sem then k.grant [c] else k
  | .signal i => if toInt32 i = sem ∧ returnsZero t c then (k.signal c 1).grant (woken s t sem) else k
  | .signaln i count =>
    if toInt32 i = sem ∧ returnsZero t c then (k.signal c (toInt16 count).toNat).grant (woken s t sem) else k
  | _ => k

/-- The notes after an event. -/
def Ledger.note (sem : Int) (s : Kernel) (e : Event) (k : Ledger) : Ledger :=
  match e, s.caller, step e s with
  | .syscall sc, some c, .ok (_, t) => k.call sem s t c sc
  | _, _, _ => k

/-- No process that waits is killed, and the semaphore is neither reset nor deleted. -/
def Leaves (sem : Int) (s : Kernel) (e : Event) : Prop := SparesWaiters s e ∧ e.flushes ≠ some sem

/-- A run with what the semaphore grants noted. -/
abbrev Granted (sem : Int) (s : Kernel) (k : Ledger) : Prop :=
  Noted Boot Step (Leaves sem) ⟨0, 0, 0, 0, true⟩ (Ledger.note sem) s k

/-- The notes add up. -/
structure Ledger.Sound (sem : Int) (s : Kernel) (k : Ledger) : Prop where
  balance : ∀ st, s.semaphoreTable sem = some st → (k.granted : Int) = k.initial + k.units - max st.count 0
  inside : k.proper = true → k.inside.card + k.units = k.granted

section

variable {s t : Kernel} {e : Event} {sem : Int} {p c : Ptr} {r : Process} {st st' : Semaphore} {ps ws l : List Ptr}
  {ns : List NodePtr} {k : Ledger} {n : Nat} {g : Ptr → Process → Process}

theorem Kernel.waitsFor_iff : s.waitsFor sem p = true ↔ WaitsFor ∅ s p sem := by
  unfold Kernel.waitsFor WaitsFor
  cases s.heap p with
  | none => simp
  | some r => simp [and_assoc]

theorem Ledger.Sound.grant (h : k.Sound sem s) (hst : s.semaphoreTable sem = some st)
    (hst' : t.semaphoreTable sem = some st') (hl : (l.length : Int) = max st.count 0 - max st'.count 0) :
    (k.grant l).Sound sem t where
  balance w hw := by
    rw [hst'] at hw
    cases hw
    have := h.balance st hst
    simp only [Ledger.grant]
    push_cast
    omega
  inside hp := by
    have := h.inside hp
    simp only [Ledger.grant, Multiset.card_add, Multiset.coe_card]
    omega

theorem Ledger.Sound.signal (h : k.Sound sem s) (hst : s.semaphoreTable sem = some st)
    (hst' : t.semaphoreTable sem = some st') (hl : (l.length : Int) = n + max st.count 0 - max st'.count 0) :
    ((k.signal c n).grant l).Sound sem t where
  balance w hw := by
    rw [hst'] at hw
    cases hw
    have := h.balance st hst
    simp only [Ledger.grant, Ledger.signal]
    push_cast
    omega
  inside hp := by
    simp only [Ledger.grant, Ledger.signal, Bool.and_eq_true, decide_eq_true_eq] at hp
    have hinside := h.inside hp.1
    have hle := Multiset.le_count_iff_replicate_le.1 hp.2
    have hcard := Multiset.card_le_card hle
    rw [Multiset.card_replicate] at hcard
    simp only [Ledger.grant, Ledger.signal, Multiset.card_add, Multiset.coe_card, Multiset.card_sub hle,
      Multiset.card_replicate]
    omega

/-- Nothing happened to the semaphore. -/
theorem Ledger.Sound.same (h : k.Sound sem s) (hst : t.semaphoreTable sem = s.semaphoreTable sem) : k.Sound sem t :=
  ⟨fun st ht => h.balance st (hst ▸ ht), h.inside⟩

/-- As many wait as the count tells. -/
theorem Exact.waiters (h : Exact s sem) (hst : s.semaphoreTable sem = some st) (hw : Waiters ∅ s sem st ps) :
    (ps.length : Int) = max st.count 0 - st.count := by
  obtain ⟨ns, hb⟩ := hw.list
  have := h st ns ps hst hb
  omega

/-- The processes that are woken are the ones that leave the list. -/
theorem woken_perm (hs : Ready s) (hw : Waiters ∅ s sem st (ws ++ l)) (hw' : Waiters ∅ t sem st' l) :
    (woken s t sem).Perm ws := by
  have hnodup := List.nodup_append.1 hw.nodup
  refine (List.perm_ext_iff_of_nodup (List.nodup_range.filter _) hnodup.1).2 fun p => ?_
  have hs' : s.waitsFor sem p = true ↔ p ∈ ws ++ l := Kernel.waitsFor_iff.trans (hw.mem p).symm
  have ht' : t.waitsFor sem p = true ↔ p ∈ l := Kernel.waitsFor_iff.trans (hw'.mem p).symm
  simp only [List.mem_filter, List.mem_range, Bool.and_eq_true, Bool.not_eq_true', hs', List.mem_append,
    ← Bool.not_eq_true, ht']
  constructor
  · rintro ⟨-, hp | hp, hno⟩
    · exact hp
    · exact absurd hp hno
  · intro hp
    obtain ⟨-, x, hx, -⟩ := (hw.mem p).1 (List.mem_append_left l hp)
    exact ⟨hs.inv.fresh p x hx, .inl hp, fun hl => hnodup.2.2 p hp p hl rfl⟩

theorem Ledger.note_call {sc : Syscall} (hr : Running s c r) (hst : Step s (.syscall sc) t) :
    k.note sem s (.syscall sc) = k.call sem s t c sc := by
  simp only [Ledger.note, Kernel.caller, hr.table, hst.2]

theorem returnsZero_iff {v : Int} (hgo : GoesOn t c (.user (some ⟨v, []⟩))) (hl : Lives t c) :
    returnsZero t c = true ↔ v = 0 := by
  simp [returnsZero, hgo.of_lives hl]

theorem not_tookUnit (h : t.semaphoreTable sem = s.semaphoreTable sem) : ¬ tookUnit s t sem = true := by
  unfold tookUnit
  rw [h]
  cases s.semaphoreTable sem with
  | none => simp
  | some st => simp; omega

theorem tookUnit_of (hst : s.semaphoreTable sem = some st) (hst' : t.semaphoreTable sem = some st')
    (hc : st'.count = st.count - 1) : tookUnit s t sem = true := by
  simp [tookUnit, hst, hst', hc]

/-- The call is about another semaphore. -/
theorem Ledger.call_of_ne {sc : Syscall} {i : Int} (hsc : sc.semaphore = some i) (hi : i ≠ sem) :
    k.call sem s t c sc = k := by
  cases sc with
  | screate count semOk => cases hsc
  | wait j =>
    cases hsc
    exact if_neg fun h => hi h.1
  | tryWait j =>
    cases hsc
    exact if_neg fun h => hi h.1
  | signal j =>
    cases hsc
    exact if_neg fun h => hi h.1
  | signaln j count =>
    cases hsc
    exact if_neg fun h => hi h.1
  | _ => rfl

/-- The call is about no semaphore. -/
theorem Ledger.call_of_none {sc : Syscall} (hsc : sc.semaphore = none)
    (h : t.semaphoreTable sem = s.semaphoreTable sem) : k.call sem s t c sc = k := by
  cases sc with
  | screate count semOk =>
    refine if_neg fun h' => ?_
    rw [h, Option.isNone_iff_eq_none.1 h'.1] at h'
    simp at h'
  | wait j => cases hsc
  | tryWait j => cases hsc
  | signal j => cases hsc
  | signaln j count => cases hsc
  | _ => rfl

/-- The call is refused. -/
theorem Ledger.call_of_refused {sc : Syscall} (h : t.semaphoreTable sem = s.semaphoreTable sem)
    (hz : ¬ returnsZero t c = true) (hsc : sc.semaphore ≠ none) : k.call sem s t c sc = k := by
  cases sc with
  | screate count semOk => exact absurd rfl hsc
  | wait j => exact if_neg fun h' => not_tookUnit h h'.2.1
  | tryWait j => exact if_neg fun h' => not_tookUnit h h'.2
  | signal j => exact if_neg fun h' => hz h'.2
  | signaln j count => exact if_neg fun h' => hz h'.2
  | _ => rfl

/-- `wait` blocks its process if the semaphore has no unit left. -/
theorem wait_grants (hw' : Waiters ∅ t sem st' l)
    (hlen : (ps.length : Int) = max st.count 0 - st.count) (hlen' : (l.length : Int) = max st'.count 0 - st'.count)
    (hc : st'.count = st.count - 1) (hsub : ∀ p ∈ l, p = c ∨ p ∈ ps) :
    t.waitsFor sem c = false ↔ 0 ≤ st'.count := by
  rw [← Bool.not_eq_true, Kernel.waitsFor_iff, ← hw'.mem]
  constructor
  · intro hno
    by_contra hneg
    have hsubset : l ⊆ ps := fun p hp => (hsub p hp).resolve_left fun h => hno (h ▸ hp)
    have := (List.subperm_of_subset hw'.nodup hsubset).length_le
    omega
  · intro hpos hmem
    have := List.length_pos_of_mem hmem
    omega

/-- Whoever waits for the semaphore after the call waited before, or made it. -/
theorem Signals.waits {f : Process → Process} (h : Signals s t sem (writing c f)) (hw : Waiters ∅ s sem st ps)
    (hp : WaitsFor ∅ t p sem) : p = c ∨ p ∈ ps := by
  by_cases hpc : p = c
  · exact .inl hpc
  · obtain ⟨-, y, hy, hys, hstate, hid⟩ := hp
    obtain ⟨x, hx, hxy⟩ := h.records p y hy ⟨hys, .inr ⟨trivial, .inl hstate⟩⟩
    rw [writing, if_neg hpc] at hxy
    refine .inr ((hw.mem p).2 ⟨by simp, x, hx, hxy.started, hxy.blocked trivial hstate, ?_⟩)
    rw [← (hxy.signal trivial).2, hid]

/-- The semaphore is the one that `screate` makes. -/
theorem Ledger.Sound.created {count : Int} {semOk : Bool} (hs : Inv ∅ s) (hpos : 0 ≤ toInt16 count)
    (htable : t.semaphoreTable = Function.update s.semaphoreTable (s.semaphoreIdCounter + 1) (some ⟨toInt16 count, none⟩)) :
    (k.call (s.semaphoreIdCounter + 1) s t c (.screate count semOk)).Sound (s.semaphoreIdCounter + 1) t := by
  have hnone : s.semaphoreTable (s.semaphoreIdCounter + 1) = none := by
    by_contra hne
    obtain ⟨w, hw⟩ := Option.ne_none_iff_exists'.1 hne
    have := hs.sems.ids _ w hw
    omega
  have hsome : t.semaphoreTable (s.semaphoreIdCounter + 1) = some ⟨toInt16 count, none⟩ := by
    rw [htable, Function.update_self]
  have hcall : k.call (s.semaphoreIdCounter + 1) s t c (.screate count semOk) = ⟨toInt16 count, 0, 0, 0, true⟩ :=
    if_pos ⟨by rw [hnone]; rfl, by rw [hsome]; rfl⟩
  rw [hcall]
  refine ⟨fun st hst => ?_, fun _ => rfl⟩
  rw [hsome] at hst
  cases hst
  dsimp only
  omega

section calls

variable {i : Int} (h : k.Sound (toInt32 i) s) (hex : Exact s (toInt32 i)) (hsem : s.semaphoreTable (toInt32 i) = some st)
  (hsem' : t.semaphoreTable (toInt32 i) = some st') (hc : st'.count = st.count - 1)

include h hex hsem hsem' hc in
theorem Ledger.Sound.waited {f : Process → Process} (hex' : Exact t (toInt32 i)) (hw : Waiters ∅ s (toInt32 i) st ps)
    (hw' : Waiters ∅ t (toInt32 i) st' l) (hsig : Signals s t (toInt32 i) (writing c f)) :
    (k.call (toInt32 i) s t c (.wait i)).Sound (toInt32 i) t := by
  have hgrant := wait_grants hw' (hex.waiters hsem hw) (hex'.waiters hsem' hw') hc fun p hp =>
    hsig.waits hw ((hw'.mem p).1 hp)
  by_cases hpos : 0 ≤ st'.count
  · have hcall : k.call (toInt32 i) s t c (.wait i) = k.grant [c] :=
      if_pos ⟨rfl, tookUnit_of hsem hsem' hc, hgrant.2 hpos⟩
    rw [hcall]
    refine h.grant hsem hsem' ?_
    simp only [List.length_singleton]
    omega
  · have hcall : k.call (toInt32 i) s t c (.wait i) = k := if_neg fun h' => hpos (hgrant.1 h'.2.2)
    rw [hcall]
    refine ⟨fun w hw => ?_, h.inside⟩
    rw [hsem'] at hw
    cases hw
    have := h.balance st hsem
    omega

include h hsem hsem' hc in
theorem Ledger.Sound.tried (hpos : 0 < st.count) : (k.call (toInt32 i) s t c (.tryWait i)).Sound (toInt32 i) t := by
  have hcall : k.call (toInt32 i) s t c (.tryWait i) = k.grant [c] := if_pos ⟨rfl, tookUnit_of hsem hsem' hc⟩
  rw [hcall]
  refine h.grant hsem hsem' ?_
  simp only [List.length_singleton]
  omega

end calls

/-- A call that gives `n` units grants the calls of the processes it wakes. -/
theorem Ledger.Sound.signalled {sc : Syscall} (h : k.Sound sem s) (hs : Ready s) (hex : Exact s sem) (hex' : Exact t sem)
    (hsc : sc.semaphore = some sem) (hn : sc.units = some n) (hsem : s.semaphoreTable sem = some st)
    (hsem' : t.semaphoreTable sem = some st') (hw : Waiters ∅ s sem st (ws ++ l)) (hw' : Waiters ∅ t sem st' l)
    (hc : st'.count = st.count + n) (hzero : returnsZero t c = true) : (k.call sem s t c sc).Sound sem t := by
  have hcall : k.call sem s t c sc = (k.signal c n).grant (woken s t sem) := by
    cases sc with
    | signal j =>
      cases hsc
      cases hn
      exact if_pos ⟨rfl, hzero⟩
    | signaln j count =>
      cases hsc
      cases hn
      exact if_pos ⟨rfl, hzero⟩
    | _ => cases hn
  rw [hcall]
  refine h.signal hsem hsem' ?_
  have h1 := (woken_perm hs hw hw').length_eq
  have h2 := hex.waiters hsem hw
  have h3 := hex'.waiters hsem' hw'
  rw [List.length_append] at h2
  push_cast at h2
  omega

theorem Ledger.Sound.step (h : k.Sound sem s) (hs : Ready s) (hex : Exact s sem) (hk : Leaves sem s e)
    (hst : Step s e t) : (k.note sem s e).Sound sem t := by
  have ht := hs.step hk.1.killsAtEnd hst
  have hex' := hst.exact_kept hs hk.1.killsAtEnd hk.2 hex
  have hsems := hst.sems hs hk.1
  cases e with
  | syscall sc =>
    obtain ⟨c, r, hr⟩ := hs.running_of_syscall hst
    rw [Ledger.note_call hr hst]
    cases hsems with
    | other hsc ha =>
      have hsame : t.semaphoreTable sem = s.semaphoreTable sem := by rw [(ha.sems trivial).1]
      rw [Ledger.call_of_none hsc hsame]
      exact h.same hsame
    | created hpos _ htable _ _ _ =>
      by_cases hi : sem = s.semaphoreIdCounter + 1
      · subst hi
        exact .created hs.inv hpos htable
      · have hsame : t.semaphoreTable sem = s.semaphoreTable sem := by rw [htable, Function.update_of_ne hi]
        rw [Ledger.call_of_none rfl hsame]
        exact h.same hsame
    | read _ ha => exact h.same (by rw [(ha.sems trivial).1])
    | refused hsc hr' hv _ ha hgo =>
      obtain ⟨rfl, rfl⟩ := hr.unique hr'
      have hsame : t.semaphoreTable sem = s.semaphoreTable sem := by rw [(ha.sems trivial).1]
      rw [Ledger.call_of_refused hsame (fun hz => hv.ne ((returnsZero_iff hgo (hst.lives_sem hs hr hsc hr.lives)).1 hz)) (by simp [hsc])]
      exact h.same hsame
    | @waited i _ _ _ st' _ _ _ hr' hsem hw hsem' hc _ _ hsig _ =>
      obtain ⟨rfl, rfl⟩ := hr.unique hr'
      by_cases hi : toInt32 i = sem
      · subst hi
        obtain ⟨l, hw'⟩ := ht.inv.sems.lists _ st' hsem'
        exact h.waited hex hsem hsem' hc hex' hw hw' hsig
      · rw [Ledger.call_of_ne rfl hi]
        exact h.same (hsig.others sem (Ne.symm hi))
    | @tried i _ _ _ _ _ _ hr' hsem hpos _ hsem' hc _ hsig _ =>
      obtain ⟨rfl, rfl⟩ := hr.unique hr'
      by_cases hi : toInt32 i = sem
      · subst hi
        exact h.tried hsem hsem' hc hpos
      · rw [Ledger.call_of_ne rfl hi]
        exact h.same (hsig.others sem (Ne.symm hi))
    | @signalled _ i _ _ _ _ _ _ _ n hsc hn hr' hsem hw hsem' hc hb hsig hgo =>
      obtain ⟨rfl, rfl⟩ := hr.unique hr'
      by_cases hi : i = sem
      · subst hi
        exact h.signalled hs hex hex' hsc hn hsem hsem' hw (ht.inv.waiters hsem' hb) hc
          ((returnsZero_iff hgo (hst.lives_sem hs hr hsc hr.lives)).2 rfl)
      · rw [Ledger.call_of_ne hsc hi]
        exact h.same (hsig.others sem (Ne.symm hi))
    | @deleted i _ _ _ _ _ _ _ _ hsig _ _ =>
      have hi : toInt32 i ≠ sem := fun hi => hk.2 (congrArg some hi)
      rw [Ledger.call_of_ne rfl hi]
      exact h.same (hsig.others sem hi.symm)
    | @reset i _ _ _ _ _ _ _ _ _ _ _ _ _ _ hsig _ _ =>
      have hi : toInt32 i ≠ sem := fun hi => hk.2 (congrArg some hi)
      rw [Ledger.call_of_ne rfl hi]
      exact h.same (hsig.others sem hi.symm)
  | _ =>
    have ha := hst.apart hs (by simp)
    exact h.same (by rw [(ha.sems trivial).1])

theorem Granted.sound (h : Granted sem s k) : Ready s ∧ Exact s sem ∧ k.Sound sem s := by
  induction h with
  | init hb =>
    obtain ⟨symbols, virt, idle, shell, rfl⟩ := hb.eq
    exact ⟨hb.ready, .of_empty (fun _ h => by cases h), (fun _ h => by cases h), fun _ => rfl⟩
  | step _ hk hst ih =>
    obtain ⟨hs, hex, hsound⟩ := ih
    exact ⟨hs.step hk.1.killsAtEnd hst, hst.exact_kept hs hk.1.killsAtEnd hk.2 hex, hsound.step hs hex hk hst⟩

end

end Xinul
