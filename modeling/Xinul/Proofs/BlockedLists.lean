import Xinul.Proofs.Action

/-!
# The blocked lists of the semaphores, action by action

An action leaves the list of a semaphore as it is, puts one process in it or takes
one out of it.
-/

namespace Xinul

open Waiting

/-- How the list `ps` of the semaphore `sem`, which is `st` in `t`, came from `s`. -/
inductive ListStep (K : Kind) (s t : Kernel) (sem : Int) (st : Semaphore) (ps : List Ptr) : Prop where
  /-- The list is the same. -/
  | kept {old ns} : s.semaphoreTable sem = some old → Blocked s old ns ps →
      (K.flush sem ∨ (ps.length = (-old.count).toNat → ps.length = (-st.count).toNat)) → ListStep K s t sem st ps
  /-- A process was put in. -/
  | blocked {old ns l p r} : s.semaphoreTable sem = some old → Blocked s old ns l → s.heap p = some r → p ∉ l →
      ps = insertWhile (fun q => s.value Process.prioField p ≤ s.value Process.prioField q) p l →
      t.heap = Function.update s.heap p
        (some { r with semaphoreId := sem, state := .blockedSemaphore, stamp := s.insertions }) →
      t.insertions = s.insertions + 1 →
      (K.flush sem ∨ (l.length = (-old.count).toNat → ps.length = (-st.count).toNat)) → ListStep K s t sem st ps
  /-- A process was taken out. -/
  | unblocked {old ns a p b} : s.semaphoreTable sem = some old → Blocked s old ns (a ++ p :: b) → ps = a ++ b →
      t.heap = s.heap →
      (K.flush sem ∨ ((a ++ p :: b).length = (-old.count).toNat → ps.length = (-st.count).toNat)) →
      ListStep K s t sem st ps
  /-- The semaphore is new. -/
  | fresh : ps = [] → 0 ≤ st.count → ListStep K s t sem st ps

section

variable {K : Kind} {H H' : Set Ptr} {s t : Kernel} {sem i : Int} {st : Semaphore} {ns : List NodePtr}
  {ps : List Ptr}

/-- The list of another semaphore is not touched. -/
theorem Sems.others (h : Sems H s) {l : List NodePtr} (next : s.nextNode ≤ t.nextNode)
    (nodes : ∀ n < s.nextNode, n ∉ l → t.node n = s.node n)
    (mine : ∀ n ∈ l, ∃ p, s.blockedAt n = some p ∧ WaitsFor H s p i) (hne : sem ≠ i)
    (hst : s.semaphoreTable sem = some st) (hb : Blocked t st ns ps) : ∃ ns, Blocked s st ns ps := by
  obtain ⟨ps', hw⟩ := h.lists sem st hst
  obtain ⟨ns', hb'⟩ := hw.list
  have hbt : Blocked t st ns' ps' := hb'.congr (fun n hn => nodes n (hb'.bound n hn) fun hc => by
    obtain ⟨p, hp, hpn⟩ := hb'.mem_procs hn
    obtain ⟨p', hpn', hp'⟩ := mine n hc
    rw [hpn] at hpn'
    cases hpn'
    exact hne (((hw.mem p).1 hp).sem_eq hp')) next
  obtain ⟨_, rfl⟩ := hb.unique hbt
  exact ⟨ns', hb'⟩

theorem Waiters.mine {l : List NodePtr} (hw : Waiters H s sem st ps) (hb : Blocked s st l ps) :
    ∀ n ∈ l, ∃ p, s.blockedAt n = some p ∧ WaitsFor H s p sem := by
  intro n hn
  obtain ⟨q, hq, hqn⟩ := hb.mem_procs hn
  exact ⟨q, hqn, (hw.mem q).1 hq⟩

/-- An action that writes neither the semaphores nor the nodes. -/
theorem ListStep.same (hst : t.semaphoreTable sem = some st) (hb : Blocked t st ns ps)
    (table : t.semaphoreTable = s.semaphoreTable) (node : t.node = s.node) (next : t.nextNode = s.nextNode) :
    ListStep K s t sem st ps :=
  .kept (table ▸ hst) (hb.congr (fun n _ => by rw [node]) next.le) (.inr id)

theorem Act.listStep (a : Act K H s H' t) (hi : Inv H s) (hst : t.semaphoreTable sem = some st)
    (hb : Blocked t st ns ps) : ListStep K s t sem st ps := by
  cases a with
  | @block _ _ p r i old new l l' qs N hH hp hd hsem hidle hw hbl hbl' hN hc =>
    by_cases hne : sem = i
    · subst hne
      obtain rfl : new = st := by
        simpa [Kernel.markBlocked, Kernel.setBlocked, Kernel.mapProc] using hst
      have hbt := hbl'.unique ⟨hb.chain, hb.tail, hb.procs, hb.bound⟩
      obtain ⟨rfl, rfl⟩ := hbt
      refine .blocked hsem hbl hp (fun hc => ((hw.mem p).1 hc).1 (by simp)) rfl ?_ rfl ?_
      · simp [Kernel.markBlocked, Kernel.setBlocked, Kernel.mapProc, hp]
      · rw [(insertWhile_perm (l := qs)).length_eq]
        exact hc.exact
    · have hst' : s.semaphoreTable sem = some st := by
        simpa [Kernel.markBlocked, Kernel.setBlocked, Kernel.mapProc, hne] using hst
      obtain ⟨ns', hb'⟩ := hi.sems.others (Nat.le_succ _) hN (hw.mine hbl) hne hst' hb
      exact .kept hst' hb' (.inr id)
  | @unblock _ _ p i old new l l' a b N hsem hw hbl hbl' hN hc =>
    by_cases hne : sem = i
    · subst hne
      obtain rfl : new = st := by simpa [Kernel.setBlocked] using hst
      have hbt := hbl'.unique ⟨hb.chain, hb.tail, hb.procs, hb.bound⟩
      obtain ⟨rfl, rfl⟩ := hbt
      exact .unblocked hsem hbl rfl rfl hc.exact
    · have hst' : s.semaphoreTable sem = some st := by simpa [Kernel.setBlocked, hne] using hst
      obtain ⟨ns', hb'⟩ := hi.sems.others (t := s.setBlocked i new N s.nextNode) (Nat.le_refl _) hN (hw.mine hbl) hne hst' hb
      exact .kept hst' hb' (.inr id)
  | @count _ _ i old c hsem hc =>
    by_cases hne : sem = i
    · subst hne
      obtain rfl : { old with count := c } = st := by simpa [Kernel.setSem] using hst
      have hb' : Blocked s old ns ps := ⟨hb.chain, hb.tail, hb.procs, hb.bound⟩
      obtain ⟨ps', hw⟩ := hi.sems.lists sem old hsem
      obtain ⟨ns', hbl⟩ := hw.list
      obtain ⟨_, rfl⟩ := hb'.unique hbl
      exact .kept hsem hb' (hc ps hw).exact
    · have hst' : s.semaphoreTable sem = some st := by simpa [Kernel.setSem, hne] using hst
      exact .kept hst' ⟨hb.chain, hb.tail, hb.procs, hb.bound⟩ (.inr id)
  | @semNew _ _ c hc =>
    by_cases hne : sem = s.semaphoreIdCounter + 1
    · subst hne
      obtain rfl : ⟨c, none⟩ = st := by simpa [Kernel.setSem] using hst
      have hnil : Blocked { s.setSem (s.semaphoreIdCounter + 1) (some ⟨c, none⟩) with
          semaphoreIdCounter := s.semaphoreIdCounter + 1 } ⟨c, none⟩ [] [] := ⟨rfl, rfl, rfl, by simp⟩
      obtain ⟨_, rfl⟩ := hb.unique hnil
      exact .fresh rfl hc
    · have hst' : s.semaphoreTable sem = some st := by simpa [Kernel.setSem, hne] using hst
      exact .kept hst' ⟨hb.chain, hb.tail, hb.procs, hb.bound⟩ (.inr id)
  | @semDrop _ _ i old hsem hw =>
    by_cases hne : sem = i
    · subst hne
      simp [Kernel.setSem] at hst
    · have hst' : s.semaphoreTable sem = some st := by simpa [Kernel.setSem, hne] using hst
      exact .kept hst' ⟨hb.chain, hb.tail, hb.procs, hb.bound⟩ (.inr id)
  | other same => exact .same hst hb same.semaphoreTable same.node same.nextNode
  | _ => exact .same hst hb rfl rfl rfl

end

end Xinul
