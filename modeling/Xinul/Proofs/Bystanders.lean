import Xinul.Proofs.Exec

/-!
# Whom a kernel function leaves alone

A kernel function writes the context of nobody but its caller, and blocks or ends nobody
but its caller and the process it kills. Any other process that has not ended keeps its
record and goes on where it was to; at most it is woken.
-/

namespace Xinul

open Waiting

section

variable {K : Kind} {H H' : Set Ptr} {s s₀ t : Kernel} {p q : Ptr} {r x y z : Process}

theorem Process.Undisturbed.refl (x : Process) : x.Undisturbed x := ⟨rfl, .inl rfl⟩

theorem Process.Undisturbed.trans (h : x.Undisturbed y) (h' : y.Undisturbed z) : x.Undisturbed z := by
  refine ⟨h'.1.trans h.1, ?_⟩
  rcases h'.2 with hz | hz
  · rw [hz]
    exact h.2
  · exact .inr hz

theorem Process.Undisturbed.dead (h : x.Undisturbed y) (hx : x.state.dead = false) : y.state.dead = false := by
  rcases h.2 with hs | hs
  · rw [hs, hx]
  · revert hs
    cases y.state <;> simp [ProcessState.ready, ProcessState.dead]

/-- The record at `p` after a write that may have been to it. -/
theorem heap_mapProc_of {f : Process → Process} (hp : s.heap p = some x) :
    ∃ y, (s.mapProc q f).heap p = some y ∧ (y = x ∨ p = q ∧ y = f x) := by
  by_cases hpq : p = q
  · subst hpq
    exact ⟨f x, by simp [hp], .inr ⟨rfl, rfl⟩⟩
  · exact ⟨x, by simp [hpq, hp], .inl rfl⟩

theorem Act.undisturbed (a : Act K H s H' t) (hi : Inv H s) (hp : s.heap p = some x) (hst : x.started = true)
    (hd : x.state.dead = false) (ha : ¬ K.acts p) (hk : ¬ K.kills p) :
    ∃ y, t.heap p = some y ∧ y.started = true ∧ x.Undisturbed y := by
  -- a write of fields that have nothing to do with it
  have plain : ∀ {q f}, (∀ r : Process, (f r).started = r.started ∧ r.Undisturbed (f r)) →
      ∃ y, (s.mapProc q f).heap p = some y ∧ y.started = true ∧ x.Undisturbed y := by
    intro q f hf
    obtain ⟨y, hy, hcase⟩ := heap_mapProc_of (q := q) (f := f) hp
    refine ⟨y, hy, ?_⟩
    rcases hcase with rfl | ⟨-, rfl⟩
    · exact ⟨hst, .refl _⟩
    · exact ⟨(hf x).1.trans hst, (hf x).2⟩
  cases a with
  | @write _ _ q r f hq place _ _ _ _ _ _ hctx =>
    obtain ⟨y, hy, hcase⟩ := heap_mapProc_of (q := q) (f := f) hp
    refine ⟨y, hy, ?_⟩
    rcases hcase with rfl | ⟨rfl, rfl⟩
    · exact ⟨hst, .refl _⟩
    · rw [hp] at hq
      cases hq
      exact ⟨place.started.trans hst, hctx.resolve_right ha, .inl place.state⟩
  | @set _ _ q r f _ hq _ _ _ started _ _ _ _ _ hs =>
    obtain ⟨y, hy, hcase⟩ := heap_mapProc_of (q := q) (f := f) hp
    refine ⟨y, hy, ?_⟩
    rcases hcase with rfl | ⟨rfl, rfl⟩
    · exact ⟨hst, .refl _⟩
    · rw [hp] at hq
      cases hq
      refine ⟨started.trans hst, ?_⟩
      rcases hs.goesOn with h | h | ⟨-, -, h⟩
      · exact absurd h ha
      · exact h
      · exact absurd h hk
  | @link _ _ q => exact plain (q := q) fun r => ⟨rfl, rfl, .inl rfl⟩
  | @unlink _ _ q => exact plain (q := q) fun r => ⟨rfl, rfl, .inl rfl⟩
  | @reprio _ _ q => exact plain (q := q) fun r => ⟨rfl, rfl, .inl rfl⟩
  | @free _ _ q r hq _ hdead =>
    have hpq : p ≠ q := by
      rintro rfl
      rw [hp] at hq
      cases hq
      rw [hd] at hdead
      cases hdead
    exact ⟨x, by simp [Kernel.freeRecord, hpq, hp], hst, .refl x⟩
  | alloc =>
    have hne : p ≠ s.nextPtr := (hi.fresh p x hp).ne
    exact ⟨x, by simp [hne, hp], hst, .refl x⟩
  | @birth _ _ q r f _ hq hold =>
    have hpq : p ≠ q := by
      rintro rfl
      rw [hp] at hq
      cases hq
      rw [hst] at hold
      cases hold
    exact ⟨x, by simp [hpq, hp], hst, .refl x⟩
  | @block _ _ q r sem st st' ns ns' ps N _ _ _ _ _ _ _ _ _ _ hacts =>
    have hpq : p ≠ q := by
      rintro rfl
      exact ha hacts
    exact ⟨x, by simp [Kernel.markBlocked, Kernel.setBlocked, Kernel.mapProc, hpq, hp], hst, .refl x⟩
  | other same => exact ⟨x, by rw [same.heap, hp], hst, .refl x⟩
  | _ => exact ⟨x, hp, hst, .refl x⟩

theorem Chain.undisturbed (ch : Chain K s₀ H s) (hp : s₀.heap p = some x) (hst : x.started = true)
    (hd : x.state.dead = false) (ha : ¬ K.acts p) (hk : ¬ K.kills p) :
    ∃ y, s.heap p = some y ∧ y.started = true ∧ x.Undisturbed y := by
  refine ch.induct (P := fun _ s => ∃ y, s.heap p = some y ∧ y.started = true ∧ x.Undisturbed y) ⟨x, hp, hst, .refl x⟩ ?_
  rintro H s H' t hi ⟨y, hy, hys, hxy⟩ a
  obtain ⟨z, hz, hzs, hyz⟩ := a.undisturbed hi hy hys (hxy.dead hd) ha hk
  exact ⟨z, hz, hzs, hxy.trans hyz⟩

/-- Who waits for a key has done so before, unless the function is `cons_read`. -/
theorem Act.blockedIo (a : Act K H s H' t) (hy : t.heap p = some y) (hst : y.started = true)
    (hs : y.state = .blockedIo) (hr : ¬ K.reads p) :
    ∃ x, s.heap p = some x ∧ x.started = true ∧ x.state = .blockedIo ∧ (¬ K.acts p → y.context = x.context) := by
  have same : s.heap p = some y → ∃ x, s.heap p = some x ∧ x.started = true ∧ x.state = .blockedIo ∧
      (¬ K.acts p → y.context = x.context) := fun h => ⟨y, h, hst, hs, fun _ => rfl⟩
  have map : ∀ {q f}, (s.mapProc q f).heap p = some y →
      (∀ r, s.heap q = some r → y = f r → p = q → r.started = true ∧ r.state = .blockedIo ∧
        (¬ K.acts q → y.context = r.context)) →
      ∃ x, s.heap p = some x ∧ x.started = true ∧ x.state = .blockedIo ∧ (¬ K.acts p → y.context = x.context) := by
    intro q f h hf
    rcases heap_update_cases h with ⟨rfl, hv⟩ | ⟨_, h⟩
    · obtain ⟨x, hx, rfl⟩ := Option.map_eq_some_iff.1 hv
      exact ⟨x, hx, hf x hx rfl rfl⟩
    · exact same h
  cases a with
  | write hq place _ _ _ _ _ _ hctx =>
    refine map hy fun r hr' he _ => ?_
    obtain rfl := Option.some.inj (hr'.symm.trans hq)
    subst he
    exact ⟨place.started ▸ hst, place.state ▸ hs, fun ha => hctx.resolve_right ha⟩
  | set _ hq _ _ _ started _ _ _ _ _ sets =>
    refine map hy fun r hr' he hpq => ?_
    obtain rfl := Option.some.inj (hr'.symm.trans hq)
    subst he
    subst hpq
    refine ⟨started ▸ hst, (sets.reads hs).resolve_right hr, fun ha => ?_⟩
    rcases sets.goesOn with h | h | h
    · exact absurd h ha
    · exact h.1
    · exact h.1
  | link =>
    refine map hy fun r _ he _ => ?_
    subst he
    exact ⟨hst, hs, fun _ => rfl⟩
  | unlink =>
    refine map hy fun r _ he _ => ?_
    subst he
    exact ⟨hst, hs, fun _ => rfl⟩
  | reprio =>
    refine map hy fun r _ he _ => ?_
    subst he
    exact ⟨hst, hs, fun _ => rfl⟩
  | free =>
    rcases heap_update_cases hy with ⟨_, hv⟩ | ⟨_, h⟩
    · cases hv
    · exact same h
  | alloc _ _ hold =>
    rcases heap_update_cases hy with ⟨_, hv⟩ | ⟨_, h⟩
    · cases hv
      rw [hst] at hold
      cases hold
    · exact same h
  | birth _ hq _ _ _ _ _ _ hio =>
    refine map hy fun r hr' he _ => ?_
    obtain rfl := Option.some.inj (hr'.symm.trans hq)
    subst he
    exact absurd hs hio
  | block =>
    refine map (f := fun r => { r with semaphoreId := _, state := .blockedSemaphore, stamp := _ }) hy fun r _ he _ => ?_
    subst he
    cases hs
  | other same' => exact same (by rw [← same'.heap, hy])
  | _ => exact same hy

theorem Chain.blockedIo (ch : Chain K s₀ H s) (hy : s.heap p = some y) (hst : y.started = true)
    (hs : y.state = .blockedIo) (hr : ¬ K.reads p) :
    ∃ x, s₀.heap p = some x ∧ x.started = true ∧ x.state = .blockedIo ∧ (¬ K.acts p → y.context = x.context) := by
  induction ch generalizing y with
  | refl => exact ⟨y, hy, hst, hs, fun _ => rfl⟩
  | step _ a ih =>
    obtain ⟨x, hx, hxs, hxb, hxy⟩ := a.blockedIo hy hst hs hr
    obtain ⟨w, hw, hws, hwb, hwx⟩ := ih hx hxs hxb
    exact ⟨w, hw, hws, hwb, fun ha => (hxy ha).trans (hwx ha)⟩

end

end Xinul
