import Xinul.Proofs.Awaiting
import Xinul.Runs.Base

/-!
# What `waitpid` answers

Of the children it is about, `waitpid` reaps the first one in the list that has ended.
-/

namespace Xinul

open Prog Linked

/-- The running process at `c` was answered for its child at `q`, which was freed. -/
structure Reaped (s : Kernel) (c q : Ptr) (retvalp : Bool) (x : Process) (t : Kernel) : Prop where
  record : s.heap q = some x
  ended : x.state = .zombie
  answer : Answers t c x.pid (if retvalp then [x.returnValue] else [])
  freed : t.heap q = none

/-- Nothing but links of the family was written. -/
structure Kernel.SameFaces (s u : Kernel) : Prop where
  table : u.pidProcessHashTable = s.pidProcessHashTable
  running : u.currentRunningProcessPid = s.currentRunningProcessPid
  record : ∀ p x, s.heap p = some x → ∃ y, u.heap p = some y ∧ y.state = x.state ∧ y.pid = x.pid

section reaping

variable {s t u : Kernel} {c p q b : Ptr} {r x : Process} {cs : List Ptr}

theorem Kernel.SameFaces.map {f : Process → Process} (h : s.SameFaces u)
    (hf : ∀ z : Process, (f z).state = z.state ∧ (f z).pid = z.pid) : s.SameFaces (u.mapProc p f) where
  table := h.table
  running := h.running
  record a z hz := by
    obtain ⟨y, hy, hst, hpid⟩ := h.record a z hz
    by_cases ha : a = p
    · subst ha
      exact ⟨f y, by simp [hy], (hf y).1.trans hst, (hf y).2.trans hpid⟩
    · exact ⟨y, by simp [ha, hy], hst, hpid⟩

/-- The zombie is freed and the running process gets its answer. -/
theorem Kernel.SameFaces.wp_answer (h : s.SameFaces u) (hr : Running s c r) (hq : s.heap q = some x) (hz : x.state = .zombie)
    (hne : x.pid ≠ s.currentRunningProcessPid) (v w : Int) (l l' : List Int) :
    wp (freeChildZombieProcess q) (fun e t => wp (if e < 0 then answer v l else answer w l')
      (fun _ t => Answers t c w l' ∧ t.heap q = none) (fun _ => True) t) (fun _ => True) u := by
  obtain ⟨y, hy, hst, hpid⟩ := h.record q x hq
  obtain ⟨z, hz', hzst, -⟩ := h.record c r hr.heap
  have hcq : c ≠ q := by
    rintro rfl
    rw [hr.heap] at hq
    cases hq
    rw [hr.state] at hz
    cases hz
  refine wp_freeChildZombie hy (hst.trans hz) (by rw [hpid, h.running]; exact hne) ?_
  rw [if_neg (by decide)]
  have htab : (u.freeRecord q y.pid).pidProcessHashTable (u.freeRecord q y.pid).currentRunningProcessPid = some c := by
    have : s.currentRunningProcessPid ≠ y.pid := by rw [hpid]; exact hne.symm
    simp [Kernel.freeRecord, h.table, h.running, this, hr.table]
  have hc : (u.freeRecord q y.pid).heap c = some z := by simp [Kernel.freeRecord, hcq, hz']
  rw [Xinul.wp_answer htab hc]
  refine ⟨answers_mapProc hc, ?_⟩
  simp [Kernel.freeRecord, hcq.symm]

theorem wp_waitpidFinish_reaps (hi : Inv ∅ s) (hr : Running s c r) (hcs : Children s c r cs) (hq : q ∈ cs)
    (hx : s.heap q = some x) (hz : x.state = .zombie) (retvalp : Bool) :
    wp (waitpidFinish q b retvalp) (fun _ t => Reaped s c q retvalp x t) (fun _ => True) s := by
  obtain ⟨x', hx', -, hpar⟩ := (hcs.mem q).1 hq
  rw [hx] at hx'
  cases hx'
  have hne : x.pid ≠ s.currentRunningProcessPid := by
    intro he
    have hqc := hi.pid_inj hx hr.heap (he.trans (hr.caller.pid hi.toCore).symm)
    subst hqc
    rw [hr.heap] at hx
    cases hx
    rw [hr.state] at hz
    cases hz
  have hlist : ¬ (r.childrenHead = none ∨ r.childrenTail = none) := by
    have hhead := hcs.chain.head
    have htail := hcs.tail
    cases cs with
    | nil => cases hq
    | cons a cs =>
      rintro (h | h)
      · rw [h] at hhead
        cases hhead
      · rw [h] at htail
        exact absurd (List.getLast?_eq_none_iff.1 htail.symm) (by simp)
  have h0 : s.SameFaces s := ⟨rfl, rfl, fun p x hp => ⟨x, hp, rfl, rfl⟩⟩
  have done : ∀ {u : Kernel}, s.SameFaces u → wp (freeChildZombieProcess q) (fun e t => wp (if e < 0 then
      answer (-1) (if retvalp then [x.returnValue] else []) else answer x.pid (if retvalp then [x.returnValue] else []))
      (fun _ t => Reaped s c q retvalp x t) (fun _ => True) t) (fun _ => True) u := by
    intro u hu
    have hanswer := hu.wp_answer hr hx hz hne (-1) x.pid (if retvalp then [x.returnValue] else [])
      (if retvalp then [x.returnValue] else [])
    refine wp_mono hanswer (fun e t _ h => ?_) (fun _ _ h => h)
    exact wp_mono h (fun _ _ _ h => ⟨hx, hz, h.1, h.2⟩) (fun _ _ h => h)
  simp only [waitpidFinish, freeProcessArgAndFixTreeLink, wp_bind, wp_deref hx, hpar, wp_deref hr.heap, if_neg hlist]
  split
  · rw [wp_bind]
    exact wp_modifyProc_any trivial fun _ _ => done (h0.map fun _ => ⟨rfl, rfl⟩)
  · split
    · rw [wp_bind]
      exact wp_modifyProc_any trivial fun _ _ => done (h0.map fun _ => ⟨rfl, rfl⟩)
    · split
      · simp only [wp_bind]
        refine wp_modifyProc_any trivial fun _ _ => wp_modifyProc_any trivial fun _ _ => ?_
        apply done
        apply Kernel.SameFaces.map
        · exact h0.map fun _ => ⟨rfl, rfl⟩
        · exact fun _ => ⟨rfl, rfl⟩
      · rw [wp_bind]
        exact wp_modifyProc_any trivial fun _ _ => done (h0.map fun _ => ⟨rfl, rfl⟩)

end reaping

/-! ## The calls -/

/-- How a `waitpid` about the children of `cs` that are `wanted` goes on. -/
inductive Waited (s : Kernel) (c : Ptr) (cs : List Ptr) (wanted : Ptr → Process → Prop) (retvalp : Bool) (t : Kernel) : Prop where
  /-- The first of them that has ended is reaped. -/
  | reaps {l q l' x} : cs = l ++ q :: l' → wanted q x → Reaped s c q retvalp x t →
      (∀ a ∈ l, ∀ y, s.heap a = some y → wanted a y → y.state ≠ .zombie) → Waited s c cs wanted retvalp t
  /-- None has ended, and the call does not return. -/
  | waits : (∀ a ∈ cs, ∀ y, s.heap a = some y → wanted a y → y.state ≠ .zombie) → (∀ v w, ¬ Answers t c v w) →
      Waited s c cs wanted retvalp t
  /-- There is none. -/
  | nobody : (∀ a ∈ cs, ∀ y, s.heap a = some y → ¬ wanted a y) → Answers t c (-1) [] → Waited s c cs wanted retvalp t

section calls

variable {s t : Kernel} {c p q b : Ptr} {r x : Process} {cs : List Ptr} {k : Context}

/-- A process that goes on in the kernel has no answer yet. -/
theorem Blocks.not_answers (h : Blocks s c k t) (v : Int) (w : List Int) : ¬ Answers t c v w := by
  intro ha
  obtain ⟨y, hy, hctx⟩ := Option.map_eq_some_iff.1 ha
  have hk := h.waiting
  rw [← (h.self y hy).1, hctx] at hk
  cases hk

theorem wp_waitpidAny_waited (hs : Ready s) (hr : Running s c r) (hcs : Children s c r cs) (hall : AllStarted s) (v : Bool) :
    wp (waitpidAny v) (fun _ t => Waited s c cs (fun _ _ => True) v t) (fun _ => True) s := by
  rw [waitpidAny, wp_bind]
  refine wp_mono (finds_findCurrentChild hr hcs) (fun o t _ h => ?_) (fun _ _ h => h)
  obtain ⟨rfl, hfinds⟩ := h
  cases o with
  | none =>
    have unmet : ∀ a ∈ cs, ∀ y, t.heap a = some y → y.state ≠ .zombie := by
      intro a ha y hy
      simpa using hfinds.none rfl a ha y hy
    refine wp_mono (wp_waitForChild_blocks hr rfl fun q x hx haw => ?_) (fun _ _ _ h => ?_) (fun _ _ h => h)
    · obtain ⟨-, hpar⟩ | ⟨_, _, hc⟩ := haw
      · exact unmet q ((hcs.mem q).2 ⟨x, hx, hall q x hx, hpar⟩) x hx
      · cases hc
    · exact .waits (fun a ha y hy _ => unmet a ha y hy) h.not_answers
  | some f =>
    obtain ⟨l, l', x, rfl, hx, hz, hl⟩ := hfinds.some f.1 f.2 rfl
    refine wp_mono (wp_waitpidFinish_reaps hs.inv hr hcs (by simp) hx (by simpa using hz) v) (fun _ _ _ h => ?_)
      (fun _ _ h => h)
    exact .reaps rfl trivial h fun a ha y hy _ => by simpa using hl a ha y hy

theorem wp_waitpidChild_waited (hs : Ready s) (hr : Running s c r) (hcs : Children s c r cs) (hq : q ∈ cs) (v : Bool) :
    wp (waitpidChild q b v) (fun _ t => Waited s c cs (fun a _ => a = q) v t) (fun _ => True) s := by
  rw [waitpidChild, wp_bind]
  refine wp_deref_any trivial fun x hx => ?_
  by_cases hz : x.state = .zombie
  · rw [if_pos hz]
    refine wp_mono (wp_waitpidFinish_reaps hs.inv hr hcs hq hx hz v) (fun _ _ _ h => ?_) (fun _ _ h => h)
    obtain ⟨l, l', rfl, hl⟩ : ∃ l l', cs = l ++ q :: l' ∧ q ∉ l := by
      obtain ⟨l, l', he, hl⟩ := List.eq_append_cons_of_mem hq
      exact ⟨l, l', he, hl⟩
    exact .reaps rfl rfl h fun a ha y _ hw => absurd (hw ▸ ha) hl
  · rw [if_neg hz]
    refine wp_mono (wp_waitForChild_blocks hr rfl fun a y hy haw => ?_) (fun _ _ _ h => ?_) (fun _ _ h => h)
    · obtain ⟨⟨_, hc⟩, -⟩ | ⟨_, _, hc⟩ := haw
      · cases hc
      · cases hc
        rw [hx] at hy
        cases hy
        exact hz
    · refine .waits (fun a _ y hy hw => ?_) h.not_answers
      subst hw
      rw [hx] at hy
      cases hy
      exact hz

/-- The two loops look for the same child. -/
theorem Waited.congr {wanted wanted' : Ptr → Process → Prop} {v : Bool} (h : Waited s c cs wanted v t)
    (same : ∀ a ∈ cs, ∀ y, s.heap a = some y → (wanted a y ↔ wanted' a y)) : Waited s c cs wanted' v t := by
  cases h with
  | @reaps l q l' x he hw hreap hl =>
    subst he
    refine .reaps rfl ((same q (by simp) x hreap.record).1 hw) hreap fun a ha y hy hw' => ?_
    exact hl a ha y hy ((same a (by simp [ha]) y hy).2 hw')
  | waits hn ha => exact .waits (fun a ha' y hy hw => hn a ha' y hy ((same a ha' y hy).2 hw)) ha
  | nobody hn ha => exact .nobody (fun a ha' y hy hw => hn a ha' y hy ((same a ha' y hy).2 hw)) ha

theorem wp_waitpid_waited (hs : Ready s) (hr : Running s c r) (hcs : Children s c r cs) (hall : AllStarted s) (pid : Int)
    (v : Bool) : wp (waitpid pid v) (fun _ t => Waited s c cs (fun _ y => pid < 0 ∨ y.pid = pid) v t ∧
      ((∃ a ∈ cs, ∃ y, s.heap a = some y ∧ (pid < 0 ∨ y.pid = pid)) ∨ Answers t c (-1) [])) (fun _ => True) s := by
  have refuse : wp (answer (-1) []) (fun _ t => Answers t c (-1) []) (fun _ => True) s := by
    rw [wp_answer hr.table hr.heap]
    exact answers_mapProc hr.heap
  have kid : ∀ a ∈ cs, ∃ y, s.heap a = some y := by
    intro a ha
    obtain ⟨y, hy, -⟩ := (hcs.mem a).1 ha
    exact ⟨y, hy⟩
  simp only [waitpid, wp_bind, wp_getCurrentProcess, hr.table, wp_derefOpt hr.heap]
  have hhead := hcs.chain.head
  by_cases hnull : r.childrenHead = none ∧ r.childrenTail = none
  · rw [if_pos hnull]
    rw [hnull.1] at hhead
    obtain rfl : cs = [] := List.head?_eq_none_iff.1 hhead.symm
    exact wp_mono refuse (fun _ _ _ h => ⟨.nobody (fun a ha => absurd ha (by simp)) h, .inr h⟩) (fun _ _ h => h)
  rw [if_neg hnull]
  by_cases hneg : pid < 0
  · rw [if_pos hneg]
    refine wp_mono (wp_waitpidAny_waited hs hr hcs hall v) (fun _ t _ h => ⟨h.congr fun _ _ _ _ => ?_, .inl ?_⟩)
      (fun _ _ h => h)
    · simp [hneg]
    · cases cs with
      | nil =>
        refine absurd ⟨?_, ?_⟩ hnull
        · exact hhead
        · exact hcs.tail
      | cons a cs =>
        obtain ⟨y, hy⟩ := kid a (by simp)
        exact ⟨a, by simp, y, hy, .inl hneg⟩
  rw [if_neg hneg, wp_bind]
  refine wp_mono (finds_findCurrentChild hr hcs) (fun o t _ h => ?_) (fun _ _ h => h)
  obtain ⟨rfl, hfinds⟩ := h
  cases o with
  | none =>
    refine wp_mono refuse (fun _ _ _ h => ⟨.nobody (fun a ha y hy hw => ?_) h, .inr h⟩) (fun _ _ h => h)
    have := hfinds.none rfl a ha y hy
    rcases hw with hw | hw
    · exact hneg hw
    · simp [hw] at this
  | some f =>
    obtain ⟨l, l', x, rfl, hx, hpid, -⟩ := hfinds.some f.1 f.2 rfl
    simp only [decide_eq_true_eq] at hpid
    refine wp_mono (wp_waitpidChild_waited hs hr hcs (by simp) v) (fun _ u _ h => ⟨h.congr fun a _ y hy => ?_, .inl ?_⟩)
      (fun _ _ h => h)
    · constructor
      · rintro rfl
        rw [hx] at hy
        cases hy
        exact .inr hpid
      · rintro (h | h)
        · exact absurd h hneg
        · exact hs.inv.pid_inj hy hx (h.trans hpid.symm)
    · exact ⟨f.1, by simp, x, hx, .inr hpid⟩

end calls

end Xinul
