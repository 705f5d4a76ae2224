import Xinul.Proofs.Ending

/-!
# `waitpid`

The walk over the children, the wait for one of them, and the list surgery of
`free_process_arg_and_fix_tree_link`.
-/

namespace Xinul

open Prog Linked

section walk

variable {K : Kind} {F : Prop} {s : Kernel} {cs : List Ptr} {found : Process → Bool}

/-- Where the walk over the children `cs` is: at `o`, with `b` the child before. -/
def WalkAt (s : Kernel) (cs : List Ptr) (o : Option Ptr) (b : Ptr) : Prop :=
  ∃ l k, cs = l ++ k ∧ Seg s.sibling o k none ∧ (l = [] → ∀ q, o = some q → b = q) ∧
    (l ≠ [] → l.getLast? = some b)

theorem WalkAt.before {b q : Ptr} (h : WalkAt s cs (some q) b) : Before cs b q := by
  obtain ⟨l, k, rfl, hseg, hfirst, hlater⟩ := h
  obtain ⟨k, rfl⟩ : ∃ k', k = q :: k' := by
    cases k with
    | nil => cases hseg
    | cons q' k' =>
      obtain ⟨he, _⟩ := hseg
      cases he
      exact ⟨k', rfl⟩
  by_cases hl : l = []
  · subst hl
    exact .inl ⟨k, rfl, hfirst rfl q rfl⟩
  · obtain ⟨l', rfl⟩ := List.getLast?_eq_some_iff.1 (hlater hl)
    exact .inr ⟨l', k, by simp⟩

theorem Before.mem {b q : Ptr} (h : Before cs b q) : q ∈ cs ∧ b ∈ cs := by
  rcases h with ⟨l, rfl, rfl⟩ | ⟨l, k, rfl⟩ <;> simp

theorem WalkAt.next {b q : Ptr} {x : Process} (h : WalkAt s cs (some q) b) (hq : s.heap q = some x) :
    WalkAt s cs x.nextSibling q := by
  obtain ⟨l, k, rfl, hseg, -, -⟩ := h
  cases k with
  | nil => cases hseg
  | cons q' k =>
    obtain ⟨he, hrest⟩ := hseg
    cases he
    have hsib : s.sibling q = x.nextSibling := by simp [Kernel.sibling, hq]
    exact ⟨l ++ [q], k, by simp, hsib ▸ hrest, by simp, by simp⟩

theorem wp_findChild {Q : Option (Ptr × Ptr) → Kernel → Prop} (n : Nat) (o : Option Ptr) (b : Ptr)
    (hsafe : K.usesFreed ∨ F) (hlive : F → ∀ q ∈ cs, ∃ x, s.heap q = some x) (hat : F → WalkAt s cs o b)
    (hnone : Q none s) (hsome : ∀ q b x, s.heap q = some x → found x = true → (F → Before cs b q) →
      Q (some (q, b)) s) : wp (findChild found n o b) Q K.Allows s := by
  induction n generalizing o b with
  | zero => trivial
  | succ n ih =>
    cases o with
    | none => exact hnone
    | some q =>
      rw [findChild, wp_bind]
      refine wp_deref_or (hsafe.imp id fun hf => hlive hf q (hat hf).before.mem.1) fun x hx => ?_
      by_cases hfound : found x = true
      · rw [if_pos hfound]
        exact hsome q b x hx hfound fun hf => (hat hf).before
      · rw [if_neg hfound]
        exact ih _ _ fun hf => (hat hf).next hx

end walk

/-! ## Contexts -/

section contexts

variable {s : Kernel} {c p q : Ptr} {r : Process} {k : Context}

/-- A context that points to children of the process is saved. -/
theorem Family.save (h : Family s) (hp : s.heap p = some r) (hstart : ∀ q, k = .start q → s.ChildOf q p)
    (hwait : ∀ q b v, k = .waitpidChild q b v → ∃ cs, Children s p r cs ∧ Before cs b q) :
    Family (s.mapProc p fun r => { r with context := k }) := by
  have back : ∀ q y, (s.mapProc p fun r => { r with context := k }).heap q = some y →
      q = p ∧ y = { r with context := k } ∨ q ≠ p ∧ s.heap q = some y := by
    intro q y hy
    rw [mapProc_heap, hp] at hy
    rcases heap_update_cases hy with ⟨rfl, hv⟩ | hy
    · cases hv
      exact .inl ⟨rfl, rfl⟩
    · exact .inr hy
  have hself : (s.mapProc p fun r => { r with context := k }).heap p = some { r with context := k } := by simp [hp]
  have child : ∀ a u, (s.mapProc p fun r => { r with context := k }).ChildOf a u ↔ s.ChildOf a u := by
    intro a u
    by_cases ha : a = p
    · subst ha
      simp [Kernel.ChildOf, hp]
    · simp [Kernel.ChildOf, ha]
  have sibling : (s.mapProc p fun r => { r with context := k }).sibling = s.sibling := by
    funext a
    by_cases ha : a = p
    · subst ha
      simp [Kernel.sibling, hp]
    · simp [Kernel.sibling, ha]
  have kids : ∀ u z z' cs, z'.childrenHead = z.childrenHead → z'.childrenTail = z.childrenTail →
      Children s u z cs → Children (s.mapProc p fun r => { r with context := k }) u z' cs := by
    intro u z z' cs h1 h2 hcs
    refine ⟨?_, h2.trans hcs.tail, fun a => by rw [child, hcs.mem]⟩
    rw [sibling, h1]
    exact hcs.chain
  have old : ∀ u z, (s.mapProc p fun r => { r with context := k }).heap u = some z →
      ∃ y, s.heap u = some y ∧ z.started = y.started ∧ z.state = y.state ∧ z.parent = y.parent ∧
        z.childrenHead = y.childrenHead ∧ z.childrenTail = y.childrenTail ∧ (u ≠ p → z.context = y.context) := by
    intro u z hz
    rcases back u z hz with ⟨rfl, rfl⟩ | ⟨_, hz⟩
    · exact ⟨r, hp, rfl, rfl, rfl, rfl, rfl, fun h => absurd rfl h⟩
    · exact ⟨z, hz, rfl, rfl, rfl, rfl, rfl, fun _ => rfl⟩
  refine ⟨?_, ?_, ?_, ?_, ?_, ?_, ?_⟩
  · intro u z hz hzs hzd
    obtain ⟨y, hy, h1, h2, _, h4, h5, _⟩ := old u z hz
    obtain ⟨cs, hcs⟩ := h.children u y hy (h1.symm.trans hzs) (h2 ▸ hzd)
    exact ⟨cs, kids u y z cs h4 h5 hcs⟩
  · intro a u hau
    obtain ⟨y, hy, hys, hyd⟩ := h.parents a u ((child a u).1 hau)
    by_cases hu : u = p
    · subst hu
      rw [hp] at hy
      cases hy
      exact ⟨_, hself, hys, hyd⟩
    · exact ⟨y, by simp [hu, hy], hys, hyd⟩
  · exact fun a u hau => h.older a u ((child a u).1 hau)
  · intro u z hz hzs hzk
    obtain ⟨y, hy, h1, h2, h3, _⟩ := old u z hz
    rw [h3]
    exact h.killed u y hy (h1.symm.trans hzs) (h2 ▸ hzk)
  · intro u z a hz hzs hzd ha
    obtain ⟨y, hy, h1, h2, _, h4, _⟩ := old u z hz
    obtain ⟨hnone, hlt⟩ := h.swept u y a hy (h1.symm.trans hzs) (h2 ▸ hzd) (h4.symm.trans ha)
    have hap : a ≠ p := by
      rintro rfl
      rw [hp] at hnone
      cases hnone
    exact ⟨by simp [hap, hnone], hlt⟩
  · intro u z a hz hzs hzd hctx
    rcases back u z hz with ⟨rfl, rfl⟩ | ⟨_, hz⟩
    · exact (child a u).2 (hstart a hctx)
    · exact (child a u).2 (h.starts u z a hz hzs hzd hctx)
  · intro u z a b v hz hzs hzd hctx
    rcases back u z hz with ⟨rfl, rfl⟩ | ⟨_, hz⟩
    · obtain ⟨cs, hcs, hb⟩ := hwait a b v hctx
      exact ⟨cs, kids u r _ cs rfl rfl hcs, hb⟩
    · obtain ⟨cs, hcs, hb⟩ := h.waits u z a b v hz hzs hzd hctx
      exact ⟨cs, kids u z z cs rfl rfl hcs, hb⟩

end contexts

/-! ## Waiting -/

section waiting

variable {K : Kind} {F : Prop} {s s₀ t : Kernel} {c p q a : Ptr} {r r' x : Process} {k : Context} {cs : List Ptr}

theorem Mid.wp_waitForChild (m : Mid K s₀ ∅ s c r) (hl : K.resched) (hu : s.pidProcessHashTable idleId ≠ some c)
    (hk : K.family ∨ k.pointers = []) (hfinal : k.final = false) (hfam : F → Family s)
    (hstart : ∀ q, k ≠ .start q)
    (hwait : ∀ q b v, k = .waitpidChild q b v → F → ∃ cs, Children s c r cs ∧ Before cs b q) :
    wp (waitForChild k) (fun _ t => Done K s₀ t ∧ (F → Family t)) K.Allows s := by
  have hn := m.unlinked
  have hund : r.state.dead = false := by rw [m.running.state]; rfl
  have ch1 := m.chain.step (.hold m.running.heap m.running.started hn (by simp [m.running.state]))
  have ch2 := ch1.step (Act.setState (v := .blockedWaitChild) ch1.inv (by simp) m.running.heap hund rfl
    (fun hi => absurd hi hu) (.inr m.acts) fun h => by cases h)
  have hrec : (s.mapProc c fun r => { r with state := .blockedWaitChild }).heap c =
      some { r with state := .blockedWaitChild } := by simp [m.running.heap]
  have ch3 := ch2.step (.release (by simp) hrec (by simp [Process.Fits, m.running.started, hn]) (by simp) (by simp))
  have hc : Caller (s.mapProc c fun r => { r with state := .blockedWaitChild }) c
      { r with state := .blockedWaitChild } := ⟨m.running.table, hrec, m.running.started, m.running.user⟩
  have hnd : ({ r with state := .blockedWaitChild } : Process).nextPrev ≠ some .dead := by simp [hn]
  have hnf : k.final = true → ({ r with state := .blockedWaitChild } : Process).state.dead = true := by
    intro h
    rw [hfinal] at h
    cases h
  have hdone := schedule_done ch3 hl hc hnd (m.wakes.mapProc fun _ _ => ⟨rfl, rfl⟩) (k := k)
    ⟨hk, hnf, fun hi => absurd hi hu, m.acts⟩
  simp only [waitForChild, wp_bind, wp_getCurrentProcess, m.running.table, wp_modifyProc m.running.heap]
  by_cases hf : F
  · have ha : s.Alike (s.mapProc c fun r => { r with state := .blockedWaitChild }) :=
      .map (f := fun r => { r with state := .blockedWaitChild }) m.running.heap
        ⟨rfl, rfl, rfl, rfl, rfl, hund.symm, fun _ => .inl rfl, fun h => by cases h⟩ rfl rfl
    refine wp_mono (wp_and hdone (schedule_family ch3.inv hc hnd ⟨.inl trivial, hnf, fun hi => absurd hi hu, trivial⟩
      (((hfam hf).alike ha).save hrec (fun q hq => absurd hq (hstart q)) fun q b v hq => ?_))) ?_ (fun _ _ h => h)
    · obtain ⟨cs, hcs, hb⟩ := hwait q b v hq hf
      exact ⟨cs, hcs.alike ha ⟨rfl, rfl, rfl, rfl, rfl, hund.symm, fun _ => .inl rfl, fun h => by cases h⟩, hb⟩
    · exact fun _ _ _ h => ⟨h.1, fun _ => h.2⟩
  · exact wp_mono hdone (fun _ _ _ h => ⟨h, fun h => absurd h hf⟩) (fun _ _ h => h)

end waiting

/-! ## A child is taken off the list and freed -/

section reaping

variable {K : Kind} {F : Prop} {s s₀ u t : Kernel} {c p q a b : Ptr} {r r' x y : Process} {cs : List Ptr}

theorem Process.Kin.refl : Process.Kin c cs q x x :=
  ⟨rfl, rfl, rfl, fun _ => ⟨rfl, rfl, rfl⟩, fun _ => rfl⟩

theorem Process.Kin.trans {z : Process} (h : Process.Kin c cs q x y) (h' : Process.Kin c cs q y z) :
    Process.Kin c cs q x z where
  started := h'.started.trans h.started
  parent := h'.parent.trans h.parent
  state := h'.state.trans h.state
  lists hq := ⟨(h'.lists hq).1.trans (h.lists hq).1, (h'.lists hq).2.1.trans (h.lists hq).2.1,
    (h'.lists hq).2.2.trans (h.lists hq).2.2⟩
  sibling hq := (h'.sibling hq).trans (h.sibling hq)

/-- The records of two states while the list of the children of `c` is edited. -/
structure KinState (s u : Kernel) (c : Ptr) (cs : List Ptr) : Prop where
  here : ∀ q x, s.heap q = some x → ∃ y, u.heap q = some y ∧ Process.Kin c cs q x y
  back : ∀ q y, u.heap q = some y → ∃ x, s.heap q = some x ∧ Process.Kin c cs q x y
  next : u.nextPtr = s.nextPtr

theorem KinState.map {f : Process → Process} (hp : s.heap p = some x) (hk : Process.Kin c cs p x (f x)) :
    KinState s (s.mapProc p f) c cs where
  here q z hz := by
    by_cases hq : q = p
    · subst hq
      rw [hp] at hz
      cases hz
      exact ⟨f x, by simp [hp], hk⟩
    · exact ⟨z, by simp [hq, hz], .refl⟩
  back q z hz := by
    rw [mapProc_heap, hp] at hz
    rcases heap_update_cases hz with ⟨rfl, hv⟩ | ⟨_, hz⟩
    · cases hv
      exact ⟨x, hp, hk⟩
    · exact ⟨z, hz, .refl⟩
  next := rfl

theorem KinState.trans (h : KinState s u c cs) (h' : KinState u t c cs) : KinState s t c cs where
  here q x hx := by
    obtain ⟨y, hy, hk⟩ := h.here q x hx
    obtain ⟨z, hz, hk'⟩ := h'.here q y hy
    exact ⟨z, hz, hk.trans hk'⟩
  back q z hz := by
    obtain ⟨y, hy, hk'⟩ := h'.back q z hz
    obtain ⟨x, hx, hk⟩ := h.back q y hy
    exact ⟨x, hx, hk.trans hk'⟩
  next := h'.next.trans h.next

/-- The list of the children of `c` was edited and does not hold `a` any more. -/
structure Unlisted (s u : Kernel) (c : Ptr) (r : Process) (cs : List Ptr) (a : Ptr) (r' : Process) : Prop where
  kin : KinState s u c cs
  children : Children s c r cs
  heap : s.heap c = some r
  listed : a ∈ cs
  list : ∃ l, Seg u.sibling r'.childrenHead l none ∧ r'.childrenTail = l.getLast? ∧ ∀ q, q ∈ l ↔ q ∈ cs ∧ q ≠ a

/-- The unlisted child is freed and the running process gets its answer. -/
theorem Mid.wp_reapFinish (m : Mid K.quiet s₀ ∅ u c r') (cs : List Ptr) (hl : K.resched) (ht : K.family) (ha : u.heap a = some x)
    (hz : x.state = .zombie) (hF : F → Family s ∧ Unlisted s u c r cs a r') {v w : Int} {l l' : List Int} :
    wp (freeChildZombieProcess a) (fun e t => wp (if e < 0 then answer v l else answer w l')
      (fun _ t => Done K s₀ t ∧ (F → Family t)) K.Allows t) K.Allows u := by
  refine wp_freeChildZombie ha hz (m.pid_ne_of_zombie ha hz) ?_
  rw [if_neg (by decide)]
  have m1 := m.free ht ha hz (by simp)
  have hca : c ≠ a := by
    rintro rfl
    rw [m.running.heap] at ha
    cases ha
    rw [m.running.state] at hz
    cases hz
  have family : wp (answer w l') (fun _ t => F → Family t) (fun _ => True) (u.freeRecord a x.pid) := ?_
  · exact wp_and (m1.wp_answer hl _ _) family
  simp only [answer, saveContext, wp_bind, wp_getCurrentProcess, m1.running.table, wp_modifyProc m1.running.heap]
  intro hf
  obtain ⟨hfam, hun⟩ := hF hf
  obtain ⟨k, hseg, htail, hmem⟩ := hun.list
  obtain ⟨z, hz', hkin⟩ := hun.kin.back a x ha
  obtain ⟨z', hz'', hst, hpar⟩ := (hun.children.mem a).1 hun.listed
  rw [hz'] at hz''
  cases hz''
  generalize htdef : ((u.freeRecord a x.pid).mapProc c fun r => { r with context := .user (some ⟨w, l'⟩) }) = t
  have hheap : ∀ q, q ≠ c → t.heap q = if q = a then none else u.heap q := by
    intro q hq
    subst htdef
    rw [mapProc_heap, Function.update_of_ne hq]
    by_cases hqa : q = a <;> simp [Kernel.freeRecord, hqa]
  have hc : t.heap c = some { r' with context := .user (some ⟨w, l'⟩) } := by
    subst htdef
    simp [Kernel.freeRecord, hca, m.running.heap]
  refine hfam.reap (a := a) (c := c) (r := r) ⟨fun q y hqa hy => ?_, fun q y hqa hy => ?_⟩
    hun.heap hun.children hz' hst (by rw [← hkin.state, hz]; rfl) hpar (by rw [hheap a hca.symm, if_pos rfl])
    (by subst htdef; exact hun.kin.next) hc rfl ?_ htail hmem
  · obtain ⟨y', hy', hk⟩ := hun.kin.here q y hy
    by_cases hqc : q = c
    · subst hqc
      rw [m.running.heap] at hy'
      cases hy'
      exact ⟨_, hc, hk.trans ⟨rfl, rfl, rfl, fun h => absurd rfl h, fun _ => rfl⟩⟩
    · exact ⟨y', by rw [hheap q hqc, if_neg hqa, hy'], hk⟩
  · by_cases hqc : q = c
    · subst hqc
      rw [hc] at hy
      cases hy
      obtain ⟨y', hy', hk⟩ := hun.kin.back q r' m.running.heap
      exact ⟨y', hy', hk.trans ⟨rfl, rfl, rfl, fun h => absurd rfl h, fun _ => rfl⟩⟩
    · rw [hheap q hqc, if_neg hqa] at hy
      exact hun.kin.back q y hy
  · refine hseg.congr fun q hq => ?_
    have hqa := ((hmem q).1 hq).2
    by_cases hqc : q = c
    · subst hqc
      simp [Kernel.sibling, hc, m.running.heap]
    · simp [Kernel.sibling, hheap q hqc, hqa]

/-- Links of the family are written in any record. -/
theorem Mid.writeLinks {H : Set Ptr} {f : Process → Process} (m : Mid K s₀ H s c r) (ht : K.family) (hp : s.heap p = some x)
    (links : ∀ z : Process, f z = { z with
      childrenHead := (f z).childrenHead
      childrenTail := (f z).childrenTail
      nextSibling := (f z).nextSibling }) : Mid K s₀ H (s.mapProc p f) c (if p = c then f r else r) := by
  have place : ∀ z : Process, z.SamePlace (f z) := fun z => by
    rw [links z]
    exact ⟨rfl, rfl, rfl, rfl, rfl, rfl⟩
  have prio : ∀ z : Process, (f z).prio = z.prio := fun z => by rw [links z]
  have stamp : ∀ z : Process, (f z).stamp = z.stamp := fun z => by rw [links z]
  have wake : ∀ z : Process, (f z).wakeTime = z.wakeTime := fun z => by rw [links z]
  have parent : ∀ z : Process, (f z).parent = z.parent := fun z => by rw [links z]
  have context : ∀ z : Process, (f z).context = z.context := fun z => by rw [links z]
  by_cases hpc : p = c
  · subst hpc
    rw [if_pos rfl]
    exact m.writeSelf (place r) (prio r) (stamp r) (wake r) (.inl ⟨ht, fun _ => parent r⟩) (context r)
  · rw [if_neg hpc]
    exact m.write hp (Ne.symm hpc) (place x) (prio x) (stamp x) (wake x) (.inl ⟨ht, fun _ => parent x⟩) (context x)

theorem mapProc_heap_some {f : Process → Process} (hq : s.heap q = some x) :
    (s.mapProc p f).heap q = some (if q = p then f x else x) := by
  by_cases h : q = p
  · subst h
    simp [hq]
  · simp [h, hq]

theorem sibling_mapProc {f : Process → Process} (hp : s.heap p = some x) :
    (s.mapProc p f).sibling = Function.update s.sibling p (f x).nextSibling := by
  funext q
  by_cases h : q = p
  · subst h
    simp [Kernel.sibling, hp]
  · simp [Kernel.sibling, h]

/-- A child that is not the first has one before it. -/
theorem Before.split (h : Before cs b a) (hne : cs.head? ≠ some a) : ∃ l k, cs = l ++ b :: a :: k := by
  rcases h with ⟨l, rfl, _⟩ | h
  · simp at hne
  · exact h

theorem getLast?_split {l k : List Ptr} (hnd : (l ++ b :: a :: k).Nodup)
    (hlast : (l ++ b :: a :: k).getLast? = some a) : k = [] := by
  cases k with
  | nil => rfl
  | cons e k =>
    obtain ⟨k', e', hk⟩ : ∃ k' e', e :: k = k' ++ [e'] :=
      ⟨_, _, (List.dropLast_append_getLast (List.cons_ne_nil e k)).symm⟩
    rw [hk] at hnd hlast
    have : e' = a := by
      rw [show l ++ b :: a :: (k' ++ [e']) = (l ++ b :: a :: k') ++ [e'] by simp, List.getLast?_concat] at hlast
      exact Option.some.inj hlast
    subst this
    simp [List.nodup_append] at hnd

/-! `free_process_arg_and_fix_tree_link` takes a child off the list in four ways. -/

/-- The only child. -/
theorem Unlisted.only (hc : Children s c r cs) (hr : s.heap c = some r) (ha : a ∈ cs)
    (hone : some a = r.childrenHead ∧ some a = r.childrenTail) :
    Unlisted s (s.mapProc c fun r => { r with childrenTail := none, childrenHead := none }) c r cs a
      { r with childrenTail := none, childrenHead := none } where
  kin := .map hr ⟨rfl, rfl, rfl, fun h => absurd rfl h, fun _ => rfl⟩
  children := hc
  heap := hr
  listed := ha
  list := by
    refine ⟨[], rfl, rfl, ?_⟩
    have hnd := hc.chain.nodup
    have h1 := hc.chain.head
    have h2 := hc.tail
    rw [← hone.1] at h1
    rw [← hone.2] at h2
    cases cs with
    | nil => cases h1
    | cons e cs =>
      obtain rfl : a = e := by simpa using h1
      cases cs with
      | nil => simp
      | cons e' cs =>
        obtain ⟨k, hk⟩ := List.getLast?_eq_some_iff.1 h2.symm
        cases k with
        | nil => simp at hk
        | cons e'' k =>
          obtain ⟨rfl, hk⟩ : a = e'' ∧ _ := by simpa using hk
          rw [hk] at hnd
          simp at hnd

/-- The first of several. -/
theorem Unlisted.first (hc : Children s c r cs) (hr : s.heap c = some r) (hx : s.heap a = some x)
    (hfirst : some a = r.childrenHead) (hone : ¬ (some a = r.childrenHead ∧ some a = r.childrenTail)) :
    Unlisted s (s.mapProc c fun r => { r with childrenHead := x.nextSibling }) c r cs a
      { r with childrenHead := x.nextSibling } := by
  have hnd := hc.chain.nodup
  have h1 := hc.chain.head
  rw [← hfirst] at h1
  obtain ⟨l, rfl⟩ : ∃ l, cs = a :: l := by
    cases cs with
    | nil => cases h1
    | cons e l => exact ⟨l, by rw [show a = e by simpa using h1]⟩
  have hsib : (s.mapProc c fun r => { r with childrenHead := x.nextSibling }).sibling = s.sibling := by
    rw [sibling_mapProc hr, Function.update_eq_self_iff]
    simp [Kernel.sibling, hr]
  refine ⟨.map hr ⟨rfl, rfl, rfl, fun h => absurd rfl h, fun _ => rfl⟩, hc, hr, by simp, l, ?_, ?_, ?_⟩
  · rw [hsib]
    have := hc.chain.2
    simpa [Kernel.sibling, hx] using this
  · have h2 := hc.tail
    cases l with
    | nil => exact absurd ⟨hfirst, h2.symm⟩ hone
    | cons e l => simpa using h2
  · intro q
    have := (List.nodup_cons.1 hnd).1
    simp only [List.mem_cons]
    constructor
    · exact fun hq => ⟨.inr hq, by rintro rfl; exact this hq⟩
    · rintro ⟨rfl | hq, hne⟩
      · exact absurd rfl hne
      · exact hq

/-- The last of several. -/
theorem Unlisted.last (hc : Children s c r cs) (hr : s.heap c = some r) (hy : s.heap b = some y) (hbc : b ≠ c)
    (hb : Before cs b a) (hfirst : some a ≠ r.childrenHead) (hlast : some a = r.childrenTail) :
    Unlisted s ((s.mapProc b fun q => { q with nextSibling := none }).mapProc c fun r => { r with childrenTail := some b })
      c r cs a { r with childrenTail := some b } := by
  have hnd := hc.chain.nodup
  obtain ⟨l, k, rfl⟩ := hb.split fun h => hfirst (h.symm.trans hc.chain.head.symm)
  obtain rfl := getLast?_split hnd (hc.tail.symm.trans hlast.symm)
  have hr1 := mapProc_heap_some (p := b) (f := fun q => { q with nextSibling := none }) hr
  rw [if_neg hbc.symm] at hr1
  refine ⟨.trans (.map hy ⟨rfl, rfl, rfl, fun _ => ⟨rfl, rfl, rfl⟩, fun h => absurd (by simp) h⟩)
    (.map hr1 ⟨rfl, rfl, rfl, fun h => absurd rfl h, fun _ => rfl⟩), hc, hr, by simp, l ++ [b], ?_, ?_, ?_⟩
  · rw [sibling_mapProc hr1, sibling_mapProc hy]
    have := hc.chain.dropLast
    rwa [Function.update_eq_self_iff.2]
    simp [hbc.symm, Kernel.sibling, hr]
  · simp
  · intro q
    rw [List.nodup_append] at hnd
    have hba : b ≠ a := by
      have := hnd.2.1
      simp at this
      exact this
    have hla : ∀ e ∈ l, e ≠ a := fun e he => hnd.2.2 e he a (by simp)
    simp only [List.mem_append, List.mem_cons, List.not_mem_nil, or_false]
    constructor
    · rintro (hq | rfl)
      · exact ⟨.inl hq, hla q hq⟩
      · exact ⟨.inr (.inl rfl), hba⟩
    · rintro ⟨hq | rfl | rfl, hne⟩
      · exact .inl hq
      · exact .inr rfl
      · exact absurd rfl hne

/-- One between two others. -/
theorem Unlisted.middle (hc : Children s c r cs) (hr : s.heap c = some r) (hx : s.heap a = some x) (hy : s.heap b = some y)
    (hb : Before cs b a) (hfirst : some a ≠ r.childrenHead) (hlast : some a ≠ r.childrenTail) :
    Unlisted s (s.mapProc b fun q => { q with nextSibling := x.nextSibling }) c r cs a r := by
  have hnd := hc.chain.nodup
  obtain ⟨l, k, rfl⟩ := hb.split fun h => hfirst (h.symm.trans hc.chain.head.symm)
  refine ⟨.map hy ⟨rfl, rfl, rfl, fun _ => ⟨rfl, rfl, rfl⟩, fun h => absurd (by simp) h⟩, hc, hr, by simp,
    l ++ b :: k, ?_, ?_, ?_⟩
  · rw [sibling_mapProc hy]
    have := hc.chain.bypass
    simpa [Kernel.sibling, hx] using this
  · rw [hc.tail]
    cases k with
    | nil => exact absurd (by rw [hc.tail]; simp) hlast
    | cons e k => simp
  · intro q
    rw [List.nodup_append, List.nodup_cons, List.nodup_cons] at hnd
    obtain ⟨_, ⟨hbk, hak, _⟩, hdisj⟩ := hnd
    have hba : b ≠ a := fun h => hbk (by simp [h])
    have hla : ∀ e ∈ l, e ≠ a := fun e he => hdisj e he a (by simp)
    have hka : ∀ e ∈ k, e ≠ a := fun e he h => hak (h ▸ he)
    simp only [List.mem_append, List.mem_cons]
    constructor
    · rintro (hq | rfl | hq)
      · exact ⟨.inl hq, hla q hq⟩
      · exact ⟨.inr (.inl rfl), hba⟩
      · exact ⟨.inr (.inr (.inr hq)), hka q hq⟩
    · rintro ⟨hq | rfl | rfl | hq, hne⟩
      · exact .inl hq
      · exact .inr (.inl rfl)
      · exact absurd rfl hne
      · exact .inr (.inr hq)

/-- `free_process_arg_and_fix_tree_link` and the answer of `waitpid`. -/
theorem Mid.wp_waitpidFinish (m : Mid K.quiet s₀ ∅ s c r) (hl : K.resched) (ht : K.family)
    (hx : s.heap a = some x) (hz : x.state = .zombie) (hsafe : K.usesFreed ∨ F) (hfam : F → Family s)
    (hcs : F → Children s c r cs) (hb : F → Before cs b a) (retvalp : Bool) :
    wp (waitpidFinish a b retvalp) (fun _ t => Done K s₀ t ∧ (F → Family t)) K.Allows s := by
  have hpar : F → x.parent = some c := by
    intro hf
    obtain ⟨y, hy, _, hyp⟩ := ((hcs hf).mem a).1 (hb hf).mem.1
    rw [hx] at hy
    cases hy
    exact hyp
  simp only [waitpidFinish, freeProcessArgAndFixTreeLink, wp_bind, wp_deref hx]
  cases hparent : x.parent with
  | none =>
    simp only [wp_pure]
    exact m.wp_answerFamily hl hfam _ _
  | some p =>
    have hpc : F → p = c := fun hf => Option.some.inj (hparent.symm.trans (hpar hf))
    have hlive : K.usesFreed ∨ ∃ y, s.heap p = some y := hsafe.imp id fun hf => ⟨r, hpc hf ▸ m.running.heap⟩
    simp only [wp_bind]
    refine wp_deref_or hlive fun y hy => ?_
    have hyr : F → y = r := by
      intro hf
      obtain rfl := hpc hf
      rw [m.running.heap] at hy
      exact (Option.some.inj hy).symm
    by_cases hnull : y.childrenHead = none ∨ y.childrenTail = none
    · rw [if_pos hnull, wp_pure]
      exact m.wp_answerFamily hl hfam _ _
    rw [if_neg hnull]
    by_cases hone : some a = y.childrenHead ∧ some a = y.childrenTail
    · simp only [if_pos hone, wp_bind, wp_modifyProc hy]
      refine (m.writeLinks (f := fun r => { r with childrenTail := none, childrenHead := none }) ht hy fun _ => rfl).wp_reapFinish
        cs hl ht (mapProc_heap_some hx) (by split <;> exact hz) (s := s) (r := r) fun hf => ⟨hfam hf, ?_⟩
      obtain rfl := hpc hf
      obtain rfl := hyr hf
      rw [if_pos rfl]
      exact .only (hcs hf) hy (hb hf).mem.1 hone
    rw [if_neg hone]
    by_cases hfirst : some a = y.childrenHead
    · simp only [if_pos hfirst, wp_bind, wp_modifyProc hy]
      refine (m.writeLinks (f := fun q => { q with childrenHead := x.nextSibling }) ht hy fun _ => rfl).wp_reapFinish
        cs hl ht (mapProc_heap_some hx) (by split <;> exact hz) (s := s) (r := r) fun hf => ⟨hfam hf, ?_⟩
      obtain rfl := hpc hf
      obtain rfl := hyr hf
      rw [if_pos rfl]
      exact .first (hcs hf) hy hx hfirst hone
    rw [if_neg hfirst]
    -- from here on the child before it is written
    have hlb : K.usesFreed ∨ ∃ z, s.heap b = some z := by
      refine hsafe.imp id fun hf => ?_
      obtain ⟨z, hz, _⟩ := ((hcs hf).mem b).1 (hb hf).mem.2
      exact ⟨z, hz⟩
    have hbc : F → b ≠ c := fun hf => ((hfam hf).older b c (((hcs hf).mem b).1 (hb hf).mem.2)).ne'
    by_cases hlast : some a = y.childrenTail
    · simp only [if_pos hlast, wp_bind]
      refine wp_modifyProc_or hlb fun z hzb => ?_
      have m1 := m.writeLinks (f := fun q => { q with nextSibling := none }) ht hzb fun _ => rfl
      have hy1 := mapProc_heap_some (p := b) (f := fun q => { q with nextSibling := none }) hy
      have hx1 := mapProc_heap_some (p := b) (f := fun q => { q with nextSibling := none }) hx
      rw [wp_modifyProc hy1]
      refine (m1.writeLinks (f := fun q => { q with childrenTail := some b }) ht hy1 fun _ => rfl).wp_reapFinish
        cs hl ht (mapProc_heap_some hx1) (by split <;> split <;> exact hz) (s := s) (r := r) fun hf => ⟨hfam hf, ?_⟩
      obtain rfl := hpc hf
      obtain rfl := hyr hf
      rw [if_neg (hbc hf), if_pos rfl]
      exact .last (hcs hf) hy hzb (hbc hf) (hb hf) hfirst hlast
    · simp only [if_neg hlast, wp_bind]
      refine wp_modifyProc_or hlb fun z hzb => ?_
      refine (m.writeLinks (f := fun q => { q with nextSibling := x.nextSibling }) ht hzb fun _ => rfl).wp_reapFinish
        cs hl ht (mapProc_heap_some hx) (by split <;> exact hz) (s := s) (r := r) fun hf => ⟨hfam hf, ?_⟩
      obtain rfl := hpc hf
      obtain rfl := hyr hf
      rw [if_neg (hbc hf)]
      exact .middle (hcs hf) hy hx hzb (hb hf) hfirst hlast

end reaping

/-! ## The system call -/

section waitpid

variable {K : Kind} {F : Prop} {s s₀ t : Kernel} {c p q a b : Ptr} {r x : Process} {cs : List Ptr}
  {found : Process → Bool}

theorem Mid.wp_findCurrentChild {Q : Option (Ptr × Ptr) → Kernel → Prop} (m : Mid K s₀ ∅ s c r)
    (hsafe : K.usesFreed ∨ F) (hcs : F → Children s c r cs) (hnone : Q none s)
    (hsome : ∀ q b x, s.heap q = some x → found x = true → (F → Before cs b q) → Q (some (q, b)) s) :
    wp (findCurrentChild found) Q K.Allows s := by
  simp only [findCurrentChild, wp_bind, wp_getCurrentProcess, m.running.table, wp_derefOpt m.running.heap]
  cases hh : r.childrenHead with
  | none => exact hnone
  | some head =>
    simp only [wp_bind, wp_get]
    refine wp_findChild _ _ _ hsafe (fun hf q hq => ?_) (fun hf => ?_) hnone hsome
    · obtain ⟨x, hx, _⟩ := ((hcs hf).mem q).1 hq
      exact ⟨x, hx⟩
    · have hchain := (hcs hf).chain
      rw [hh] at hchain
      exact ⟨[], cs, rfl, hchain, fun _ q hq => Option.some.inj hq, fun h => absurd rfl h⟩

/-- A turn of the loop over all children. -/
theorem waitpidAny_done (m : Mid K.quiet s₀ ∅ s c r) (hl : K.resched) (ht : K.family)
    (hu : s.pidProcessHashTable idleId ≠ some c) (hsafe : K.usesFreed ∨ F) (hfam : F → Family s)
    (hcs : F → Children s c r cs) (retvalp : Bool) :
    wp (waitpidAny retvalp) (fun _ t => Done K s₀ t ∧ (F → Family t)) K.Allows s := by
  rw [waitpidAny, wp_bind]
  refine (m.resched hl).wp_findCurrentChild hsafe hcs ?_ fun q b x hx hz hb => ?_
  · exact (m.resched hl).wp_waitForChild hl hu (.inr rfl) rfl hfam (fun _ h => by cases h) (fun _ _ _ h => by cases h)
  · exact m.wp_waitpidFinish hl ht hx (by simpa using hz) hsafe hfam hcs hb retvalp

/-- A turn of the loop for one child. -/
theorem waitpidChild_done (m : Mid K.quiet s₀ ∅ s c r) (hl : K.resched) (ht : K.family)
    (hu : s.pidProcessHashTable idleId ≠ some c) (hsafe : K.usesFreed ∨ F) (hfam : F → Family s)
    (hcs : F → Children s c r cs ∧ Before cs b a) (retvalp : Bool) :
    wp (waitpidChild a b retvalp) (fun _ t => Done K s₀ t ∧ (F → Family t)) K.Allows s := by
  rw [waitpidChild, wp_bind]
  refine wp_deref_or (hsafe.imp id fun hf => ?_) fun x hx => ?_
  · obtain ⟨x, hx, _⟩ := ((hcs hf).1.mem a).1 (hcs hf).2.mem.1
    exact ⟨x, hx⟩
  by_cases hz : x.state = .zombie
  · rw [if_pos hz]
    exact m.wp_waitpidFinish hl ht hx hz hsafe hfam (fun hf => (hcs hf).1) (fun hf => (hcs hf).2) retvalp
  · rw [if_neg hz]
    refine (m.resched hl).wp_waitForChild hl hu (.inl ht) rfl hfam (fun _ h => by cases h) fun q b v hk hf => ?_
    cases hk
    exact ⟨cs, hcs hf⟩

theorem waitpid_done (m : Mid K.quiet s₀ ∅ s c r) (hl : K.resched) (ht : K.family)
    (hu : s.pidProcessHashTable idleId ≠ some c) (hsafe : K.usesFreed ∨ F) (hfam : F → Family s) (pid : Int)
    (retvalp : Bool) :
    wp (waitpid pid retvalp) (fun _ t => Done K s₀ t ∧ (F → Family t)) K.Allows s := by
  obtain ⟨cs, hcs⟩ := exists_list_of_imp fun hf =>
    (hfam hf).children c r m.running.heap m.running.started (by rw [m.running.state]; rfl)
  simp only [waitpid, wp_bind, wp_getCurrentProcess, m.running.table, wp_derefOpt m.running.heap]
  by_cases hempty : r.childrenHead = none ∧ r.childrenTail = none
  · rw [if_pos hempty]
    exact m.wp_answerFamily hl hfam _ _
  rw [if_neg hempty]
  by_cases hneg : pid < 0
  · rw [if_pos hneg]
    exact waitpidAny_done m hl ht hu hsafe hfam hcs retvalp
  rw [if_neg hneg, wp_bind]
  refine (m.resched hl).wp_findCurrentChild hsafe hcs ?_ fun q b x hx _ hb => ?_
  · exact m.wp_answerFamily hl hfam _ _
  · exact waitpidChild_done m hl ht hu hsafe hfam (fun hf => ⟨hcs hf, hb hf⟩) retvalp

end waitpid

end Xinul
