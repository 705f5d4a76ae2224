import Xinul.Proofs.Apart

/-!
# What `scheduler` does to the records

`scheduler` writes the links of the records, makes processes ACTIF or ACTIVATABLE and
frees the dead. A relation that allows these writes holds between a record before it
and the record at the same address after it.
-/

namespace Xinul

open Prog

/-- The records are where they were, related by `R` to what they were. -/
def Along (R : Process → Process → Prop) (s t : Kernel) : Prop := ∀ p y, t.heap p = some y → ∃ x, s.heap p = some x ∧ R x y

instance {R : Process → Process → Prop} [IsPreorder Process R] : IsPreorder Kernel (Along R) where
  refl _ _ y hy := ⟨y, hy, refl_of R y⟩
  trans s t u h h' p z hz := by
    obtain ⟨y, hy, hyz⟩ := h' p z hz
    obtain ⟨x, hx, hxy⟩ := h p y hy
    exact ⟨x, hx, trans_of R hxy hyz⟩

/-- The relation allows what `scheduler` writes. -/
structure Allows (R : Process → Process → Prop) : Prop where
  link : ∀ x l n, R x { x with nextPrev := l, stamp := n }
  actif : ∀ x, R x { x with state := .actif }
  activatable : ∀ x, R x { x with state := .activatable }

section

variable {R : Process → Process → Prop} [IsPreorder Process R] {s t : Kernel} {p : Ptr} {hd : QueueHead}

theorem Along.map {f : Process → Process} (hf : ∀ r, R r (f r)) (heap : t.heap = (s.mapProc p f).heap) : Along R s t := by
  intro q y hy
  rw [heap] at hy
  rcases heap_update_cases hy with ⟨rfl, hv⟩ | ⟨_, hy⟩
  · obtain ⟨x, hx, rfl⟩ := Option.map_eq_some_iff.1 hv
    exact ⟨x, hx, hf x⟩
  · exact ⟨y, hy, refl_of R y⟩

theorem along_modifyProc {f : Process → Process} (hf : ∀ r, R r (f r)) : Respects (Along R) (modifyProc p f) :=
  .bind (respects_deref p) fun _ => .modify fun _ => .map hf rfl

theorem along_globals {f : Kernel → Kernel} (h : ∀ s, (f s).heap = s.heap) : Respects (Along R) (modify f : KernelM Unit) :=
  .modify fun s _ y hy => ⟨y, h s ▸ hy, refl_of R y⟩

theorem along_queueAdd (hR : Allows R) {f : Process → Int} : Respects (Along R) (queueAdd p hd f) := by
  refine .bind (respects_deref p) fun r => ?_
  split
  · exact .throw fun _ => trivial
  · refine .bind .get fun s => .bind (respects_queueWalk _) fun l => .modify fun s => ?_
    exact .map (f := fun r => { r with nextPrev := some hd, stamp := s.insertions }) (fun r => hR.link r _ _) rfl

theorem along_queueOut (hR : Allows R) : Respects (Along R) (queueOut hd) := by
  refine .bind .get fun s => ?_
  split
  · exact .pure _
  · refine .bind (respects_deref _) fun _ => .bind (.modify fun s => ?_) fun _ => .pure _
    exact .map (f := fun r => { r with nextPrev := none }) (fun r => hR.link r none r.stamp) rfl

theorem along_dispatch (hR : Allows R) {k : KernelM Unit} (hk : Respects (Along R) k) : Respects (Along R) (dispatch p k) := by
  refine .bind (along_queueOut hR) fun _ => .bind (respects_deref p) fun _ => .bind (.bind (.bind .get fun _ => .pure _)
    fun o => ?_) fun _ => .ite (.pure _) hk
  split
  · exact .pure _
  · exact .bind (along_globals fun _ => rfl) fun _ => .pure _

theorem along_awake (hR : Allows R) : Respects (Along R) awakeSleepingProcess := by
  have wake : Respects (Along R) getNextWakeTime := by
    refine .bind (.bind .get fun _ => .pure _) fun p => ?_
    split
    · exact .pure _
    · refine .bind (respects_deref _) fun r => ?_
      dsimp only
      split
      · exact .throw fun _ => trivial
      · exact .pure _
  have loop : ∀ n, Respects (Along R) (awakeSleepingLoop n) := by
    intro n
    induction n with
    | zero => exact .throw fun _ => trivial
    | succ n ih =>
      refine .bind wake fun t => .bind .get fun s => .ite ?_ (.pure _)
      refine .bind (along_queueOut hR) fun o => ?_
      split
      · exact .throw fun _ => trivial
      · exact .bind (along_queueAdd hR) fun _ => ih
  exact .bind .get fun s => loop _

theorem along_freeDead (hR : Allows R) : Respects (Along R) freeDeadProcess := by
  have free : ∀ p, Respects (Along R) (freeProcessMemory p) := by
    intro p
    refine .bind (respects_deref p) fun r => .bind (.modify fun s q y hy => ?_) fun _ => .pure _
    rcases heap_update_cases hy with ⟨_, hv⟩ | ⟨_, hy⟩
    · cases hv
    · exact ⟨y, hy, refl_of R y⟩
  have loop : ∀ n, Respects (Along R) (freeDeadLoop n) := by
    intro n
    induction n with
    | zero => exact .throw fun _ => trivial
    | succ n ih =>
      refine .bind (along_queueOut hR) fun o => ?_
      split
      · exact .pure _
      · exact .bind (free _) fun _ => ih
  exact .bind .get fun s => loop _

theorem along_scheduler (hR : Allows R) : Respects (Along R) scheduler := by
  have started : Respects (Along R) (modify fun s : Kernel => { s with startedUserProcess := true }) :=
    along_globals fun _ => rfl
  have actif : ∀ p, Respects (Along R) (modifyProc p fun r => { r with state := .actif }) :=
    fun _ => along_modifyProc hR.actif
  have activatable : ∀ p, Respects (Along R) (modifyProc p fun r => { r with state := .activatable }) :=
    fun _ => along_modifyProc hR.activatable
  refine .bind (along_awake hR) fun _ => .bind (along_freeDead hR) fun _ => .bind respects_getpid fun pid => .ite ?_
    (.bind .get fun s => .ite ?_ ?_)
  · refine .bind (.bind .get fun _ => .pure _) fun o => ?_
    split
    · exact .pure _
    · exact along_dispatch hR (.bind (actif _) fun _ => started)
  · refine .bind respects_getCurrentProcess fun o => ?_
    split
    · exact .pure _
    · exact started
  · refine .bind respects_getCurrentProcess fun o => .bind (.bind .get fun _ => .pure _) fun o' => ?_
    split
    · refine .bind (respects_deref _) fun c => .ite ?_ (.ite ?_ ?_)
      · refine .bind (respects_deref _) fun r => .ite ?_ (.pure _)
        exact along_dispatch hR (.bind (activatable _) fun _ => .bind (actif _) fun _ => along_queueAdd hR)
      · exact .bind (along_queueAdd hR) fun _ => along_dispatch hR (actif _)
      · exact along_dispatch hR (actif _)
    · exact .pure _

end

/-- The process goes on as it was to. -/
def SameContext (x y : Process) : Prop := x.context = y.context

instance : IsPreorder Process SameContext where
  refl _ := rfl
  trans _ _ _ h h' := Eq.trans h h'

theorem Allows.sameContext : Allows SameContext := ⟨fun _ _ _ => rfl, fun _ => rfl, fun _ => rfl⟩

/-- A process that was ready still is. -/
def StaysReady (x y : Process) : Prop := x.state.ready = true → y.state.ready = true

instance : IsPreorder Process StaysReady where
  refl _ := id
  trans _ _ _ h h' hx := h' (h hx)

theorem Allows.staysReady : Allows StaysReady := ⟨fun _ _ _ => id, fun _ _ => rfl, fun _ _ => rfl⟩

/-- A call of `scheduler` leaves everybody ready who was. -/
theorem schedule_staysReady (k : Context) : Respects (Along StaysReady) (schedule k) := by
  refine .bind (.bind respects_getCurrentProcess fun o => ?_) fun _ => along_scheduler .staysReady
  split
  · exact .pure _
  · exact along_modifyProc fun _ => id

end Xinul
