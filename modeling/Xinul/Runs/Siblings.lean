import Xinul.Runs.Children

/-!
# Children in the order they were started

Records are numbered in the order they are allocated in. A child is chained behind the
children there are, and what is taken off the list leaves the others in their order.
-/

namespace Xinul

open Prog Machine Linked

/-- The process has the same sibling behind it. -/
def SameSibling (x y : Process) : Prop := y.nextSibling = x.nextSibling ∧ y.started = x.started

instance : IsPreorder Process SameSibling where
  refl _ := ⟨rfl, rfl⟩
  trans _ _ _ h h' := ⟨h'.1.trans h.1, h'.2.trans h.2⟩

instance : IgnoresOtherFields SameSibling where
  keepsFamily _ _ h := ⟨h.sibling, h.started⟩

/-- The sibling behind a process is younger. -/
def Elder (s : Kernel) : Prop := ∀ q x a, s.heap q = some x → x.started = true → x.nextSibling = some a → q < a

section elder

variable {s t u : Kernel} {c p q a b : Ptr} {r x y : Process} {o : Option Ptr} {cs : List Ptr} {e : Event} {k : Context}
  {α : Type}

theorem Elder.along (h : Elder s) (ht : Along SameSibling s t) : Elder t := by
  intro q y a hy hst hs
  obtain ⟨x, hx, hsib, hstart⟩ := ht q y hy
  exact h q x a hx (hstart.symm.trans hst) (hsib.symm.trans hs)

theorem Elder.respects {m : KernelM α} (h : Elder s) (hm : Respects (Along SameSibling) m) :
    wp m (fun _ t => Elder t) (fun _ => True) s :=
  wp_mono (hm.run s) (fun _ _ _ ht => h.along ht) (fun _ _ h => h)

/-- A process gets another sibling behind it. -/
theorem Elder.link (h : Elder s) (ho : ∀ x a, s.heap q = some x → x.started = true → o = some a → q < a) :
    Elder (s.mapProc q fun r => { r with nextSibling := o }) := by
  intro p y a hy hst hs
  rcases heap_update_cases hy with ⟨rfl, hv⟩ | ⟨_, hy⟩
  · obtain ⟨x, hx, rfl⟩ := Option.map_eq_some_iff.1 hv
    exact ho x a hx hst hs
  · exact h p y a hy hst hs

/-- The siblings from one on are in order. -/
theorem Elder.sorted (h : Elder s) (hseg : Seg s.sibling o cs none)
    (hst : ∀ q ∈ cs, ∃ x, s.heap q = some x ∧ x.started = true) :
    cs.Pairwise (· < ·) ∧ ∀ a, (∀ b, o = some b → a < b) → ∀ q ∈ cs, a < q := by
  induction cs generalizing o with
  | nil => exact ⟨.nil, by simp⟩
  | cons d cs ih =>
    obtain ⟨rfl, hrest⟩ := hseg
    obtain ⟨hsorted, hbound⟩ := ih hrest fun q hq => hst q (by simp [hq])
    obtain ⟨x, hx, hxs⟩ := hst d (by simp)
    have behind : ∀ q ∈ cs, d < q := hbound d fun b hb => h d x b hx hxs (by simpa [Kernel.sibling, hx] using hb)
    refine ⟨List.pairwise_cons.2 ⟨behind, hsorted⟩, fun a ha q hq => ?_⟩
    have had := ha d rfl
    rcases List.mem_cons.1 hq with rfl | hq
    · exact had
    · exact lt_trans had (behind q hq)

/-! ## Processes that end -/

theorem sibling_write {f : Process → Process} (hf : ∀ r : Process, SameSibling r (f r)) :
    Respects (Along SameSibling) (modifyProc q f) := along_modifyProc hf

theorem sibling_turn (b : Bool) (pid : Int) : Respects (Along SameSibling) (turnCurrentProcessIntoAZombieOrKillIt b pid) := by
  refine .bind respects_getpid fun running => .bind (.bind .get fun _ => .pure _) fun o => ?_
  split
  · exact .pure _
  · refine .bind unmoved_makeChildren fun _ => .ite (.pure _) (.bind (sibling_write fun _ => ⟨rfl, rfl⟩) fun _ =>
      .bind (respects_deref _) fun r => ?_)
    split
    · exact unmoved_freeChildZombieProcess
    · refine .bind (respects_deref _) fun pr => .ite unmoved_freeChildZombieProcess (.ite ?_ (.pure _))
      exact .bind (unmoved_state (by decide) (by decide)) fun _ => .bind unmoved_queueAdd fun _ => .pure _

theorem sibling_exitProcess (v : Int) : Respects (Along SameSibling) (exitProcess v k) := by
  refine .bind respects_getCurrentProcess fun o => .bind (respects_validate _) fun _ => .ite (.throw fun _ => trivial)
    (.bind (sibling_turn _ _) fun _ => .ite (.throw fun _ => trivial) (.bind respects_getCurrentProcess fun o => ?_))
  split
  · exact .throw fun _ => trivial
  · exact .bind (sibling_write fun _ => ⟨rfl, rfl⟩) fun _ => unmoved_schedule

theorem sibling_killWith {pid : Int} {after : Ptr → Context} {finish : Int → KernelM Unit}
    (hfin : ∀ v, Respects (Along SameSibling) (finish v)) : Respects (Along SameSibling) (killWith pid after finish) := by
  have other : ∀ p, Respects (Along SameSibling) (killOther p pid) := fun p =>
    .bind unmoved_leaveQueue fun _ => .ite (.pure _) (.bind (sibling_turn _ _) fun _ => .ite (.pure _)
      (.bind (sibling_write fun _ => ⟨rfl, rfl⟩) fun _ => .pure _))
  refine .ite (hfin _) (.bind (.bind .get fun _ => .pure _) fun o => ?_)
  split
  · exact hfin _
  · exact .bind (respects_validate _) fun _ => .ite (hfin _) (.bind (respects_deref _) fun _ => .bind respects_getpid fun _ =>
      .ite (sibling_exitProcess _) (.bind (other _) fun _ => hfin _))

/-! ## `waitpid` -/

theorem wp_waitpidFinish_elder (h : Elder s) (hcs : Children s c r cs) (hx : s.heap a = some x) (hb : Before cs b a) (v : Bool) :
    wp (waitpidFinish a b v) (fun _ t => Elder t) (fun _ => True) s := by
  have finish : ∀ {u : Kernel}, Elder u → wp (freeChildZombieProcess a) (fun w t => wp (if w < 0 then
      answer (-1) (if v then [x.returnValue] else []) else answer x.pid (if v then [x.returnValue] else []))
      (fun _ t => Elder t) (fun _ => True) t) (fun _ => True) u := by
    intro u hu
    refine wp_mono (hu.respects unmoved_freeChildZombieProcess) (fun w t _ ht => ?_) (fun _ _ h => h)
    exact ht.respects (.ite (unmoved_answer _ _) (unmoved_answer _ _))
  have links : ∀ {u : Kernel} {p : Ptr} {f : Process → Process}, Elder u → (∀ r : Process, SameSibling r (f r)) →
      Elder (u.mapProc p f) := fun hu hf => hu.along (.map hf rfl)
  simp only [waitpidFinish, freeProcessArgAndFixTreeLink, wp_bind, wp_deref hx]
  cases x.parent with
  | none => exact h.respects (.ite (unmoved_answer _ _) (unmoved_answer _ _))
  | some p =>
    simp only [wp_bind]
    refine wp_deref_any trivial fun y _ => ?_
    split
    · exact h.respects (.ite (unmoved_answer _ _) (unmoved_answer _ _))
    · split
      · rw [wp_bind]
        exact wp_modifyProc_any trivial fun _ _ => finish (links h fun _ => ⟨rfl, rfl⟩)
      · split
        · rw [wp_bind]
          exact wp_modifyProc_any trivial fun _ _ => finish (links h fun _ => ⟨rfl, rfl⟩)
        · split
          · simp only [wp_bind]
            refine wp_modifyProc_any trivial fun _ _ => wp_modifyProc_any trivial fun _ _ => ?_
            exact finish (links (h.link fun _ _ _ _ hn => by cases hn) fun _ => ⟨rfl, rfl⟩)
          · rw [wp_bind]
            refine wp_modifyProc_any trivial fun _ _ => finish (h.link fun z d hz hzs hd => ?_)
            obtain ⟨x', hx', hxs, -⟩ := (hcs.mem a).1 hb.mem.1
            rw [hx] at hx'
            cases hx'
            have had := h a x d hx hxs hd
            rcases hb with ⟨l, -, rfl⟩ | ⟨l, k, rfl⟩
            · exact had
            · obtain ⟨m, -, hm⟩ := seg_append.1 hcs.chain
              obtain ⟨rfl, hm⟩ := hm
              have hsib : s.sibling b = some a := hm.1
              exact lt_trans (h b z a hz hzs (by simpa [Kernel.sibling, hz] using hsib)) had

theorem sibling_waitForChild : Respects (Along SameSibling) (waitForChild k) := by
  refine .bind respects_getCurrentProcess fun o => ?_
  split
  · exact .throw fun _ => trivial
  · exact .bind (sibling_write fun _ => ⟨rfl, rfl⟩) fun _ => unmoved_schedule

/-- The child found and the one before it. -/
theorem before_findCurrentChild {found : Process → Bool} (m : Mid .any s ∅ s c r) (hcs : Children s c r cs) :
    wp (findCurrentChild found) (fun o t => t = s ∧ ∀ q b, o = some (q, b) → ∃ x, s.heap q = some x ∧ Before cs b q)
      (fun _ => True) s := by
  refine wp_mono (m.wp_findCurrentChild (F := True) (.inl trivial) (fun _ => hcs) ⟨rfl, fun q b h => by cases h⟩
    fun q b x hx _ hb => ⟨rfl, fun q' b' h => ?_⟩) (fun _ _ _ h => h) (fun _ _ _ => trivial)
  cases h
  exact ⟨x, hx, hb trivial⟩

theorem wp_waitpidAny_elder (h : Elder s) (m : Mid .any s ∅ s c r) (hcs : Children s c r cs) (v : Bool) :
    wp (waitpidAny v) (fun _ t => Elder t) (fun _ => True) s := by
  rw [waitpidAny, wp_bind]
  refine wp_mono (before_findCurrentChild m hcs) (fun o t _ hf => ?_) (fun _ _ h => h)
  obtain ⟨rfl, hfound⟩ := hf
  cases o with
  | none => exact h.respects sibling_waitForChild
  | some f =>
    obtain ⟨x, hx, hb⟩ := hfound f.1 f.2 rfl
    exact wp_waitpidFinish_elder h hcs hx hb v

theorem wp_waitpidChild_elder (h : Elder s) (hcs : Children s c r cs) (hb : Before cs b a) (v : Bool) :
    wp (waitpidChild a b v) (fun _ t => Elder t) (fun _ => True) s := by
  rw [waitpidChild, wp_bind]
  refine wp_deref_any trivial fun x hx => ?_
  split
  · exact wp_waitpidFinish_elder h hcs hx hb v
  · exact h.respects sibling_waitForChild

theorem wp_waitpid_elder (h : Elder s) (m : Mid .any s ∅ s c r) (hcs : Children s c r cs) (pid : Int) (v : Bool) :
    wp (waitpid pid v) (fun _ t => Elder t) (fun _ => True) s := by
  simp only [waitpid, wp_bind, wp_getCurrentProcess, m.running.table, wp_derefOpt m.running.heap]
  split
  · exact h.respects (unmoved_answer _ _)
  · split
    · exact wp_waitpidAny_elder h m hcs v
    · rw [wp_bind]
      refine wp_mono (before_findCurrentChild m hcs) (fun o t _ hf => ?_) (fun _ _ h => h)
      obtain ⟨rfl, hfound⟩ := hf
      cases o with
      | none => exact h.respects (unmoved_answer _ _)
      | some f =>
        obtain ⟨x, -, hb⟩ := hfound f.1 f.2 rfl
        exact wp_waitpidChild_elder h hcs hb v

/-! ## `start_virtual` -/

/-- The record at `p` is the youngest and not filled in. -/
structure Youngest (p : Ptr) (u : Kernel) : Prop where
  elder : Elder u
  last : ∀ q y, u.heap q = some y → y.started = true → q < p

theorem Youngest.along (h : Youngest p u) (ht : Along SameSibling u t) : Youngest p t where
  elder := h.elder.along ht
  last q z hz hst := by
    obtain ⟨y, hy, -, hstart⟩ := ht q z hz
    exact h.last q y hy (hstart.symm.trans hst)

theorem Youngest.attach {Q : Unit → Kernel → Prop} (h : Youngest p u) (hQ : ∀ t, Youngest p t → Q () t) :
    wp (attachToParent p) Q (fun _ => True) u := by
  have write : ∀ {u : Kernel} {q : Ptr} {f : Process → Process}, Youngest p u → (∀ r : Process, SameSibling r (f r)) →
      Youngest p (u.mapProc q f) := fun hu hf => hu.along (.map hf rfl)
  rw [attachToParent, wp_bind, wp_getCurrentProcess]
  cases u.pidProcessHashTable u.currentRunningProcessPid with
  | none => exact wp_modifyProc_any trivial fun _ _ => hQ _ (write h fun _ => ⟨rfl, rfl⟩)
  | some parent =>
    simp only [wp_bind]
    refine wp_modifyProc_any trivial fun _ _ => ?_
    have h1 : Youngest p (u.mapProc p fun r => { r with parent := some parent }) := write h fun _ => ⟨rfl, rfl⟩
    refine wp_deref_any trivial fun r _ => ?_
    split
    · next tail _ =>
      rw [wp_bind]
      refine wp_modifyProc_any trivial fun _ _ => ?_
      -- the new process goes behind the youngest child
      refine wp_modifyProc_any trivial fun _ _ => hQ _ (write ⟨?_, ?_⟩ fun _ => ⟨rfl, rfl⟩)
      · refine h1.elder.link fun x a hx hst ha => ?_
        cases ha
        exact h1.last tail x hx hst
      · intro q y hy hst
        rcases heap_update_cases hy with ⟨rfl, hv⟩ | ⟨_, hy⟩
        · obtain ⟨x, hx, rfl⟩ := Option.map_eq_some_iff.1 hv
          exact h1.last q x hx hst
        · exact h1.last q y hy hst
    · exact wp_modifyProc_any trivial fun _ _ => hQ _ (write h1 fun _ => ⟨rfl, rfl⟩)

theorem Youngest.finish (h : Youngest p u) (prio : Int) : wp (startFinish p prio) (fun _ t => Elder t) (fun _ => True) u := by
  rw [startFinish, wp_bind]
  refine h.attach fun t ht => ?_
  rw [wp_bind]
  refine wp_modifyProc_any trivial fun _ _ => ?_
  apply Elder.respects
  · intro q y a hy hst hs
    rcases heap_update_cases hy with ⟨rfl, hv⟩ | ⟨_, hy⟩
    · obtain ⟨x, -, rfl⟩ := Option.map_eq_some_iff.1 hv
      cases hs
    · exact ht.elder q y a hy hst hs
  · exact .bind unmoved_queueAdd fun _ => .bind respects_getpid fun _ => .bind (unmoved_getprio _) fun running =>
      .ite unmoved_schedule (.bind (respects_deref p) fun _ => unmoved_answer _ _)

theorem wp_startVirtual_elder (h : Elder s) (m : Mid .any s ∅ s c r) (name : Option (List UInt8)) (ssize : Nat) (prio : Int)
    (env : StartEnv) : wp (startVirtual name ssize prio env) (fun _ t => Elder t) (fun _ => True) s := by
  refine wp_startVirtual_cases m name ssize prio env (fun u hu => ?_) fun u x _ hu hx => ?_
  · have h1 : Elder u := fun q y a hy => h q y a (hu ▸ hy)
    exact h1.respects (unmoved_answer _ _)
  · have old : ∀ q y, u.heap q = some y → y.started = true → s.heap q = some y := by
      intro q y hy hst
      rw [hu] at hy
      rcases heap_update_cases hy with ⟨rfl, hv⟩ | ⟨_, hy⟩
      · cases hv
        rw [hx] at hst
        cases hst
      · exact hy
    have h1 : Youngest s.nextPtr u :=
      ⟨fun q y a hy hst => h q y a (old q y hy hst) hst, fun q y hy hst => m.inv.fresh q y (old q y hy hst)⟩
    exact ⟨h1.finish prio, h1.elder.respects (unmoved_answer _ _)⟩

/-! ## Runs -/

theorem Boot.elder (h : Boot s) : Elder s := by
  obtain ⟨symbols, virt, idle, shell, rfl⟩ := h.eq
  intro q x a hx _ hs
  rcases bootState_heap hx with ⟨rfl, rfl⟩ | ⟨rfl, rfl⟩ <;> cases hs

theorem Elder.step (hs : Ready s) (hfam : Family s) (hst : Step s e t) (h : Elder s) : Elder t := by
  have along : ∀ {k : KernelM Unit}, Respects (Along SameSibling) k → k s = .ok ((), t) → Elder t := fun hk hrun =>
    wp_ok (h.respects hk) hrun
  have hfault : Respects (Along SameSibling) pageFault :=
    .bind respects_getpid fun _ => sibling_killWith fun _ => unmoved_schedule
  have hrun := hst.2
  cases e with
  | timer => exact along (.bind .get fun _ => unmoved_handleStimerInterrupt) hrun
  | keyboard k => exact along (unmoved_handleKeyboardInterrupt k) hrun
  | pageFault => exact along hfault hrun
  | resume =>
    obtain ⟨c, r, hr⟩ := hs.running_of_resume hst
    have m : Mid .any s ∅ s c r := hr.mid hs.inv (fun _ _ _ _ _ => trivial) trivial
    obtain ⟨cs, hcs⟩ := hfam.children c r hr.heap hr.started hr.alive
    have hnf := hs.not_final hr
    have spec : wp resume (fun _ t => Elder t) (fun _ => True) s := by
      simp only [resume, wp_bind, wp_getCurrentProcess, hr.table, wp_derefOpt hr.heap]
      cases hctx : r.context with
      | user a => exact h
      | start q => exact h.respects (.bind (respects_deref q) fun _ => unmoved_answer _ _)
      | psend => exact h.respects unmoved_psendResume
      | preceive message => exact h.respects (unmoved_preceiveResumeWith hfault message)
      | wait => exact h.respects unmoved_waitResume
      | waitpidAny retvalp => exact wp_waitpidAny_elder h m hcs retvalp
      | waitpidChild temp before retvalp =>
        obtain ⟨cs', hcs', hb⟩ := hfam.waits c r temp before retvalp hr.heap hr.started hr.alive hctx
        exact wp_waitpidChild_elder h hcs' hb retvalp
      | consRead length => exact h.respects (unmoved_consReadLoop length)
      | stimer => exact h.respects unmoved_handleStimerInterrupt
      | exitProcess => exact absurd (by rw [hctx]; rfl) hnf
      | killSelf p pid => exact absurd (by rw [hctx]; rfl) hnf
      | pageFault p pid => exact absurd (by rw [hctx]; rfl) hnf
    exact wp_ok spec hrun
  | syscall sc =>
    obtain ⟨c, r, hr⟩ := hs.running_of_syscall hst
    have m : Mid .any s ∅ s c r := hr.mid hs.inv (fun _ _ _ _ _ => trivial) trivial
    obtain ⟨cs, hcs⟩ := hfam.children c r hr.heap hr.started hr.alive
    have hcall : syscallHandler sc s = .ok ((), t) := hrun
    cases sc with
    | start name ssize prio env => exact wp_ok (wp_startVirtual_elder h m name ssize (toInt32 prio) env) hcall
    | kill pid =>
      have hk : Respects (Along SameSibling) (kill (toInt32 pid)) := sibling_killWith fun _ => unmoved_answer _ _
      exact along hk hcall
    | waitpid pid retvalp => exact wp_ok (wp_waitpid_elder h m hcs (toInt32 pid) retvalp) hcall
    | exit retval => exact along (sibling_exitProcess _) hcall
    | preceive fid message => exact along (unmoved_preceiveWith hfault message) hcall
    | _ => exact along (unmoved_syscallHandler (by rfl)) hcall

end elder

/-- In every run of the family the children list of a process that has not ended, from
`children_head` along `next_sibling` to `children_tail`, holds exactly the processes that have it
as their parent, each once and in the order they were started in. -/
theorem children_in_start_order {s : Kernel} (hs : Reached NoneLeft s) {p : Ptr} {x : Process} (hp : s.heap p = some x)
    (hd : x.state.dead = false) : ∃ cs, Children s p x cs ∧ cs.Pairwise (· < ·) := by
  have both : (Ready s ∧ Family s ∧ AllStarted s) ∧ Elder s := by
    refine hs.invariant (I := fun s => (Ready s ∧ Family s ∧ AllStarted s) ∧ Elder s)
      (fun _ h => ⟨⟨h.ready, h.family, h.allStarted⟩, h.elder⟩) fun s e t hi hc hst => ?_
    obtain ⟨⟨hready, hfam, hall⟩, helder⟩ := hi
    have ho := hst.outcome hready (hc.admits hfam) (fun _ => hfam) (G := True) fun _ => ⟨hall, hc.born⟩
    exact ⟨⟨ho.ready hready, ho.family trivial, ho.started trivial⟩, helder.step hready hfam hst⟩
  obtain ⟨⟨-, hfam, hall⟩, helder⟩ := both
  obtain ⟨cs, hcs⟩ := hfam.children p x hp (hall p x hp) hd
  refine ⟨cs, hcs, (helder.sorted hcs.chain fun q hq => ?_).1⟩
  obtain ⟨y, hy, hst, -⟩ := (hcs.mem q).1 hq
  exact ⟨y, hy, hst⟩

/-- The shell starts two processes. -/
theorem children_in_start_order_shell : ∃ s x, Reached NoneLeft s ∧ s.heap 1 = some x ∧ x.childrenHead = some 2 ∧
    x.childrenTail = some 3 ∧ ∃ cs, Children s 1 x cs ∧ cs.Pairwise (· < ·) := by
  have hrun : (run boot [.timer, startShell 1, startShell 1]).bind
      (fun s => (s.heap 1).map fun x => (x.childrenHead, x.childrenTail, x.state.dead)) =
        some (some 2, some 3, false) := by decide +kernel
  have hcond : ∀ u, ∀ e ∈ [.timer, startShell 1, startShell 1], NoneLeft u e := by
    intro u e he
    simp only [List.mem_cons, List.not_mem_nil, or_false] at he
    rcases he with rfl | rfl | rfl
    · exact .of_none rfl rfl id
    · exact .of_none rfl rfl fun h => absurd h.2.2.2.2.2 (by decide)
    · exact .of_none rfl rfl fun h => absurd h.2.2.2.2.2 (by decide)
  obtain ⟨s, hs, hval⟩ := reached_of_run hcond hrun
  obtain ⟨x, hx, hv⟩ := Option.map_eq_some_iff.1 hval
  simp only [Prod.mk.injEq] at hv
  exact ⟨s, x, hs, hx, hv.1, hv.2.1, children_in_start_order hs hx hv.2.2⟩

end Xinul
