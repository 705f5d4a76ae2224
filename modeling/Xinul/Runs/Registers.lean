import Xinul.Lib.Run
import Xinul.Proofs.Hart

/-!
# Registers over runs

Over any run of the hart, whatever the other processes do in between: a call of
`context_switch` comes back with the registers it was made with, a trap is left with
the registers it was taken with, and a new process starts with those `start_virtual`
gave it.
-/

namespace Xinul

open Bytes Rv Machine

variable {code : Activation → Milestone} {wrapper : Nat} {h h₀ h₁ h₂ h₃ h₄ : Hart} {e : HartEvent} {p q : Nat} {t u : Task}
  {a : Activation} {c d : Cpu} {x : StartArgs}

/-- The states of the hart that a run reaches. -/
def HartReached (code : Activation → Milestone) (wrapper : Nat) : Hart → Prop :=
  Reach HartInit (HartStep code wrapper) fun _ _ => True

theorem HartReached.sound (hc : Convention code) (hr : HartReached code wrapper h) : h.Sound code wrapper :=
  Reach.invariant (fun _ hi => hi.sound) (fun _ _ _ hs _ hst => hs.step hc hst) hr

theorem HartReached.next (hr : HartReached code wrapper h) (hst : HartStep code wrapper h e h₁) : HartReached code wrapper h₁ :=
  Reach.step hr trivial hst

theorem HartReached.along {C : Hart → HartEvent → Prop} (hr : HartReached code wrapper h)
    (hp : Path (HartStep code wrapper) C h h₁) : HartReached code wrapper h₁ := by
  induction hp with
  | refl => exact hr
  | step _ _ hst ih => exact ih.next hst

/-! ## A process that does not run -/

/-- The step does not let `p` go on, nor free it. -/
def LeavesOut (p : Nat) (_ : Hart) (e : HartEvent) : Prop := e ≠ .switch p ∧ e ≠ .swap p ∧ e ≠ .free p

/-- Another stage of another process. -/
theorem Hart.withStage_other {s : Stage} (ht : h.tasks q = some t) (hne : q ≠ p) : (h.withStage p s).tasks q = some t :=
  (Hart.setStage_of_ne hne).trans ht

theorem Hart.switched_other {s : Stage} (ht : h.tasks q = some t) (hne : q ≠ p) : (h.switched c p s).tasks q = some t :=
  (Hart.setStage_of_ne hne).trans ht

theorem HartStep.leavesOut (hst : HartStep code wrapper h e h₁) (hout : LeavesOut p h e) (ht : h.tasks p = some t)
    (hcur : h.current ≠ some p) : h₁.tasks p = some t ∧ h₁.current ≠ some p := by
  obtain ⟨hsw, hsp, hfr⟩ := hout
  cases hst with
  | user => exact ⟨ht, hcur⟩
  | trap hq | begin hq | ret hq =>
    have hne : p ≠ _ := fun he => hcur (he ▸ hq)
    exact ⟨Hart.withStage_other ht hne, hcur⟩
  | @start x _ hnew =>
    have hne : p ≠ x.pid := by
      rintro rfl
      cases hnew.symm.trans ht
    exact ⟨(Function.update_of_ne hne _ _).trans ht, hcur⟩
  | @free q =>
    have hne : p ≠ q := fun he => hfr (he ▸ rfl)
    exact ⟨(Function.update_of_ne hne _ _).trans ht, hcur⟩
  | @switch p' q t' u a d s hq =>
    have hne : p ≠ p' := fun he => hcur (he ▸ hq)
    have hne' : p ≠ q := fun he => hsw (he ▸ rfl)
    exact ⟨Hart.switched_other (Hart.withStage_other ht hne) hne', fun hc => hne' (Option.some.inj hc).symm⟩
  | @swap p' q t' u a d s hq =>
    have hne : p ≠ p' := fun he => hcur (he ▸ hq)
    have hne' : p ≠ q := fun he => hsp (he ▸ rfl)
    exact ⟨Hart.switched_other (Hart.withStage_other ht hne) hne', fun hc => hne' (Option.some.inj hc).symm⟩
  | @boot q =>
    have hne' : p ≠ q := fun he => hsw (he ▸ rfl)
    exact ⟨Hart.switched_other ht hne', fun hc => hne' (Option.some.inj hc).symm⟩

theorem leavesOut_path (hp : Path (HartStep code wrapper) (LeavesOut p) h h₁) (ht : h.tasks p = some t)
    (hcur : h.current ≠ some p) : h₁.tasks p = some t ∧ h₁.current ≠ some p := by
  induction hp with
  | refl => exact ⟨ht, hcur⟩
  | step _ hout hst ih => exact hst.leavesOut hout ih.1 ih.2

/-- A process that is switched to goes on from its stage. -/
theorem HartStep.goes (hst : HartStep code wrapper h e h₁) (he : e = .switch p ∨ e = .swap p) (ht : h.tasks p = some t) :
    ∃ s, t.stage.resumed h₁.cpu = some s ∧ h₁.tasks p = some { t with stage := s } ∧ h₁.current = some p := by
  cases hst with
  | @switch p' q t' u a d s hq _ _ _ _ _ hne hu _ hres =>
    obtain he | he := he
    · cases he
      cases hu.symm.trans ht
      exact ⟨s, hres, Hart.setStage_self (Hart.withStage_other hu hne.symm), rfl⟩
    · cases he
  | @swap p' q t' u a d s hq _ _ _ _ hne hu _ hres =>
    obtain he | he := he
    · cases he
    · cases he
      cases hu.symm.trans ht
      exact ⟨s, hres, Hart.setStage_self (Hart.withStage_other hu hne.symm), rfl⟩
  | @boot q u d s _ _ _ _ hu _ hres =>
    obtain he | he := he
    · cases he
      cases hu.symm.trans ht
      exact ⟨s, hres, Hart.setStage_self hu, rfl⟩
    · cases he
  | user | trap | begin | ret | start | free => obtain he | he := he <;> cases he

/-! ## Two processes in turn -/

section turns

/-- Code that switches to the other of two processes, and returns when it comes back. -/
def turnsCode (a : Activation) : Milestone :=
  if a.before.isEmpty then
    if a.top = 0x80101000 then .switches ((a.now.set .a0 0x80300000).set .a1 0x80300100)
    else .switches ((a.now.set .a0 0x80300100).set .a1 0x80300000)
  else .returns (a.now.setCsr .sepc (returnPc a.trap (a.now.csr .sepc)))

theorem turnsCode_nil (ha : a.before = []) : ∃ v w, turnsCode a = .switches ((a.now.set .a0 v).set .a1 w) := by
  unfold turnsCode
  rw [ha]
  by_cases htop : a.top = 0x80101000
  · exact ⟨0x80300000, 0x80300100, by rw [if_pos htop]; rfl⟩
  · exact ⟨0x80300100, 0x80300000, by rw [if_neg htop]; rfl⟩

theorem turnsCode_cons (ha : a.before ≠ []) :
    turnsCode a = .returns (a.now.setCsr .sepc (returnPc a.trap (a.now.csr .sepc))) := by
  have : a.before.isEmpty = false := by
    rw [← Bool.not_eq_true, List.isEmpty_iff]
    exact ha
  unfold turnsCode
  rw [this]
  rfl

theorem turnsCode_mem : (turnsCode a).cpu.mem = a.now.mem := by
  by_cases ha : a.before = []
  · obtain ⟨v, w, hd⟩ := turnsCode_nil ha
    rw [hd]
    show ((a.now.set .a0 v).set .a1 w).mem = _
    rw [Cpu.set_mem, Cpu.set_mem]
  · rw [turnsCode_cons ha]
    rfl

theorem turnsCode_csr {k : Csr} (hk : k ≠ .sepc) : (turnsCode a).cpu.csr k = a.now.csr k := by
  by_cases ha : a.before = []
  · obtain ⟨v, w, hd⟩ := turnsCode_nil ha
    rw [hd]
    show ((a.now.set .a0 v).set .a1 w).csr k = _
    rw [Cpu.set_csr, Cpu.set_csr]
  · rw [turnsCode_cons ha]
    exact Cpu.setCsr_of_ne hk

theorem turnsCode_convention : Convention turnsCode := by
  constructor
  · intro a d hl hd r hr
    cases hl with
    | entered t =>
      obtain ⟨v, w, hsw⟩ := turnsCode_nil (a := ⟨t, exec strapEntry 0 t, []⟩) rfl
      cases hsw.symm.trans hd
    | @resumed b c e hb hcode hal =>
      rw [turnsCode_cons (List.cons_ne_nil _ _)] at hd
      cases hd
      have hnil : b.before = [] := by
        by_contra hne
        cases (turnsCode_cons hne).symm.trans hcode
      have hcs : ∀ r ∈ calleeSaved, r ≠ .a0 ∧ r ≠ .a1 ∧ ∃ o, (r, o) ∈ contextRegs := by
        intro r hr
        have : ∀ r ∈ calleeSaved, r ≠ .a0 ∧ r ≠ .a1 ∧ r ∈ contextRegs.map Prod.fst := by decide
        obtain ⟨h0, h1, hm⟩ := this r hr
        obtain ⟨⟨r', o⟩, ho, rfl⟩ := List.mem_map.1 hm
        exact ⟨h0, h1, o, ho⟩
      obtain ⟨h0, h1, o, ho⟩ := hcs r hr
      obtain ⟨v, w, hsw⟩ := turnsCode_nil hnil
      cases hsw.symm.trans hcode
      have hreg : c.get r = _ := hal.regs (r, o) ho
      show c.get r = (exec strapEntry 0 b.trap).get r
      rw [hreg, Cpu.get_set_of_ne h1, Cpu.get_set_of_ne h0]
      cases hb with
      | entered t => rfl
      | resumed => cases hnil
  · intro a _ p _ _
    rw [turnsCode_mem]
  · intro a _
    exact turnsCode_csr (by decide)
  · intro a _
    exact turnsCode_csr (by decide)
  · intro a d _ hd
    by_cases ha : a.before = []
    · obtain ⟨v, w, hsw⟩ := turnsCode_nil ha
      cases hsw.symm.trans hd
      rw [Cpu.set_csr, Cpu.set_csr]
    · cases (turnsCode_cons ha).symm.trans hd
  · intro a d _ hd
    by_cases ha : a.before = []
    · obtain ⟨v, w, hsw⟩ := turnsCode_nil ha
      cases hsw.symm.trans hd
    · cases (turnsCode_cons ha).symm.trans hd
      exact Cpu.setCsr_self

/-- Two processes that are made while the kernel boots. -/
def turnsFirst : StartArgs := ⟨1, 0x80300000, 0x80100000, 3, 7, 0x80200000⟩

def turnsSecond : StartArgs := ⟨2, 0x80300100, 0x80101000, 3, 8, 0x80201000⟩

/-- The first is switched to, takes a trap and is switched away from for the second; when
that takes a trap the first is switched to again and returns from its own. -/
structure TurnsRun (s : Nat → Hart) (a : Activation) (d : Cpu) : Prop where
  init : HartInit (s 0)
  start₁ : HartStep turnsCode 0x80000000 (s 0) (.start turnsFirst) (s 1)
  start₂ : HartStep turnsCode 0x80000000 (s 1) (.start turnsSecond) (s 2)
  boot : HartStep turnsCode 0x80000000 (s 2) (.switch 1) (s 3)
  begin₁ : HartStep turnsCode 0x80000000 (s 3) .begin (s 4)
  trap₁ : HartStep turnsCode 0x80000000 (s 4) .trap (s 5)
  switch₁ : HartStep turnsCode 0x80000000 (s 5) (.switch 2) (s 6)
  begin₂ : HartStep turnsCode 0x80000000 (s 6) .begin (s 7)
  trap₂ : HartStep turnsCode 0x80000000 (s 7) .trap (s 8)
  switch₂ : HartStep turnsCode 0x80000000 (s 8) (.switch 1) (s 9)
  ret : HartStep turnsCode 0x80000000 (s 9) .ret (s 10)
  user : (s 4).current = some 1
  kernel : (s 5).current = some 1
  other : (s 6).current = some 2
  other' : (s 7).current = some 2
  other'' : (s 8).current = some 2
  back : (s 9).current = some 1
  task : (s 5).tasks 1 = some ⟨0x80300000, 0x80100000, .kernel a⟩
  call : turnsCode a = .switches d

/-- A process in user mode can take a trap. -/
theorem HartReached.can_trap (hc : Convention code) (hr : HartReached code wrapper h) {ctx frame : Nat} (hcur : h.current = some p)
    (ht : h.tasks p = some ⟨ctx, frame, .user⟩) : ∃ (a : Activation) (h' : Hart), HartStep code wrapper h .trap h' ∧
      h'.current = some p ∧ h'.tasks p = some ⟨ctx, frame, .kernel a⟩ ∧ (∀ q, q ≠ p → h'.tasks q = h.tasks q) ∧
      a.before = [] ∧ a.top = frame + 0x1000 ∧ a.now.mem = h'.cpu.mem := by
  obtain ⟨c, hcd⟩ : ∃ c, c = h.cpu.setCsr .sepc h.cpu.pc := ⟨_, rfl⟩
  have hscratch : c.csr .sscratch = h.cpu.csr .sscratch := by
    rw [hcd]
    exact Cpu.setCsr_of_ne (by decide)
  have hsatp : c.csr .satp = h.cpu.csr .satp := by
    rw [hcd]
    exact Cpu.setCsr_of_ne (by decide)
  have hsepc : c.csr .sepc = h.cpu.pc := by
    rw [hcd]
    exact Cpu.setCsr_self
  have hx : c.x = h.cpu.x := by rw [hcd]; rfl
  have hmem : c.mem = h.cpu.mem := by rw [hcd]; rfl
  have hpc : c.pc = h.cpu.pc := by rw [hcd]; rfl
  refine ⟨⟨c, exec strapEntry 0 c, []⟩, _, .trap hcur ht rfl hx hmem hpc hsepc hscratch hsatp, hcur, Hart.setStage_self ht,
    fun q hq => Hart.setStage_of_ne hq, rfl, ?_, rfl⟩
  show (c.csr .sscratch).toNat = frame + 0x1000
  rw [hscratch]
  exact (hr.sound hc).sscratch hcur ht rfl

/-- A new process that is switched to begins. -/
theorem can_begin (code : Activation → Milestone) (wrapper : Nat) {ctx frame : Nat} (hcur : h.current = some p)
    (ht : h.tasks p = some ⟨ctx, frame, .starting x⟩) :
    ∃ h' : Hart, HartStep code wrapper h .begin h' ∧ h'.current = some p ∧ h'.tasks p = some ⟨ctx, frame, .user⟩ ∧
      ∀ q, q ≠ p → h'.tasks q = h.tasks q :=
  ⟨_, .begin hcur ht rfl, hcur, Hart.setStage_self ht, fun _ hq => Hart.setStage_of_ne hq⟩

/-- A process in a trap can be switched away from when its code calls `context_switch`. -/
theorem can_switch (wrapper : Nat) {ctx frame ctx' frame' : Nat} {st st' : Stage} (hcur : h.current = some p)
    (hp : h.tasks p = some ⟨ctx, frame, .kernel a⟩) (hd : code a = .switches d) (hmem : d.mem = h.cpu.mem)
    (h0 : (d.get .a0).toNat = ctx) (hne : p ≠ q) (hq : h.tasks q = some ⟨ctx', frame', st⟩) (h1 : (d.get .a1).toNat = ctx')
    (hs : st.resumed (exec contextSwitch 0 d) = some st') :
    ∃ h' : Hart, HartStep code wrapper h (.switch q) h' ∧ h'.current = some q ∧ h'.tasks p = some ⟨ctx, frame, .away a⟩ ∧
      h'.tasks q = some ⟨ctx', frame', st'⟩ ∧ h'.cpu = exec contextSwitch 0 d :=
  ⟨_, .switch hcur hp rfl hd (fun _ _ _ _ i _ => by rw [hmem]) h0 hne hq h1 hs, rfl,
    Hart.switched_other (Hart.setStage_self hp) hne, Hart.setStage_self (Hart.withStage_other hq hne.symm), rfl⟩

/-- The registers of a call with two arguments. -/
theorem Cpu.get_args (c : Cpu) (v w : BitVec 64) : ((c.set .a0 v).set .a1 w).get .a0 = v ∧ ((c.set .a0 v).set .a1 w).get .a1 = w ∧
    ((c.set .a0 v).set .a1 w).mem = c.mem := by
  refine ⟨?_, Cpu.get_set_self (by decide), ?_⟩
  · rw [Cpu.get_set_of_ne (by decide), Cpu.get_set_self (by decide)]
  · rw [Cpu.set_mem, Cpu.set_mem]

/-- Both are made. -/
theorem turns_start : ∃ s0 s1 s2 : Hart, HartInit s0 ∧ HartStep turnsCode 0x80000000 s0 (.start turnsFirst) s1 ∧
    HartStep turnsCode 0x80000000 s1 (.start turnsSecond) s2 ∧ s2.current = none ∧
    s2.tasks 1 = some ⟨0x80300000, 0x80100000, .fresh turnsFirst⟩ ∧ s2.tasks 2 = some ⟨0x80300100, 0x80101000, .fresh turnsSecond⟩ ∧
    ∀ q, q ≠ 1 → q ≠ 2 → s2.tasks q = none := by
  obtain ⟨s0, hs0⟩ : ∃ s0 : Hart, s0 = ⟨⟨fun _ => 0, fun _ => 0, fun _ => 0, 0⟩, fun _ => none, none⟩ := ⟨_, rfl⟩
  have hinit : HartInit s0 := by
    rw [hs0]
    exact ⟨rfl, fun _ => rfl⟩
  have hkernel : ∀ h : Hart, h.current = none → h.InKernel := by
    intro h hn p hp
    cases hn.symm.trans hp
  obtain ⟨s1, hs1⟩ : ∃ s1, s1 = s0.started 0x80000000 turnsFirst := ⟨_, rfl⟩
  have step0 : HartStep turnsCode 0x80000000 s0 (.start turnsFirst) s1 := by
    rw [hs1]
    refine .start (hkernel _ hinit.1) (hinit.2 _) ⟨by decide, by decide, fun i => ?_, fun q u hu => ?_⟩
    · show ¬((0x80300000 ≤ i ∧ i < 0x80300000 + 136) ∧ 0x80100000 ≤ i ∧ i < 0x80100000 + 0x1000)
      omega
    · cases (hinit.2 q).symm.trans hu
  have cur1 : s1.current = none := by rw [hs1]; exact hinit.1
  have task1 : s1.tasks = Function.update s0.tasks 1 (some ⟨0x80300000, 0x80100000, .fresh turnsFirst⟩) := by rw [hs1]; rfl
  have hnone : ∀ q, q ≠ 1 → s1.tasks q = none := by
    intro q hq
    rw [task1, Function.update_of_ne hq, hinit.2]
  obtain ⟨s2, hs2⟩ : ∃ s2, s2 = s1.started 0x80000000 turnsSecond := ⟨_, rfl⟩
  have step1 : HartStep turnsCode 0x80000000 s1 (.start turnsSecond) s2 := by
    rw [hs2]
    refine .start (hkernel _ cur1) (hnone 2 (by decide)) ⟨by decide, by decide, fun i => ?_, fun q u hu i => ?_⟩
    · show ¬((0x80300100 ≤ i ∧ i < 0x80300100 + 136) ∧ 0x80101000 ≤ i ∧ i < 0x80101000 + 0x1000)
      omega
    · by_cases hq : q = 1
      · subst hq
        rw [task1, Function.update_self] at hu
        cases hu
        show ¬(((0x80300100 ≤ i ∧ i < 0x80300100 + 136) ∨ (0x80101000 ≤ i ∧ i < 0x80101000 + 0x1000)) ∧
          ((0x80300000 ≤ i ∧ i < 0x80300000 + 136) ∨ (0x80100000 ≤ i ∧ i < 0x80100000 + 0x1000)))
        omega
      · cases (hnone q hq).symm.trans hu
  have task2 : s2.tasks = Function.update s1.tasks 2 (some ⟨0x80300100, 0x80101000, .fresh turnsSecond⟩) := by rw [hs2]; rfl
  refine ⟨s0, s1, s2, hinit, step0, step1, ?_, ?_, ?_, fun q h1 h2 => ?_⟩
  · rw [hs2]
    exact cur1
  · rw [task2, Function.update_of_ne (by decide), task1, Function.update_self]
  · rw [task2, Function.update_self]
  · rw [task2, Function.update_of_ne h2, hnone q h1]

/-- The code that boots switches to the first. -/
theorem turns_boot (cur : h.current = none) (first : h.tasks 1 = some ⟨0x80300000, 0x80100000, .fresh turnsFirst⟩)
    (second : h.tasks 2 = some ⟨0x80300100, 0x80101000, .fresh turnsSecond⟩) (only : ∀ q, q ≠ 1 → q ≠ 2 → h.tasks q = none) :
    ∃ h' : Hart, HartStep turnsCode 0x80000000 h (.switch 1) h' ∧ h'.current = some 1 ∧
      h'.tasks 1 = some ⟨0x80300000, 0x80100000, .starting turnsFirst⟩ ∧
      h'.tasks 2 = some ⟨0x80300100, 0x80101000, .fresh turnsSecond⟩ := by
  obtain ⟨d, hd⟩ : ∃ d, d = (h.cpu.set .a0 0x80400000).set .a1 0x80300000 := ⟨_, rfl⟩
  obtain ⟨a0, a1, hmem⟩ := Cpu.get_args h.cpu 0x80400000 0x80300000
  rw [← hd] at a0 a1 hmem
  have apart : ∀ q t, h.tasks q = some t → ∀ i, ¬(t.Owns i ∧ (d.get .a0).toNat ≤ i ∧ i < (d.get .a0).toNat + contextSize) := by
    intro q t ht i
    rw [a0]
    by_cases h1 : q = 1
    · subst h1
      cases first.symm.trans ht
      show ¬(((0x80300000 ≤ i ∧ i < 0x80300000 + 136) ∨ (0x80100000 ≤ i ∧ i < 0x80100000 + 0x1000)) ∧
        0x80400000 ≤ i ∧ i < 0x80400000 + 136)
      omega
    by_cases h2 : q = 2
    · subst h2
      cases second.symm.trans ht
      show ¬(((0x80300100 ≤ i ∧ i < 0x80300100 + 136) ∨ (0x80101000 ≤ i ∧ i < 0x80101000 + 0x1000)) ∧
        0x80400000 ≤ i ∧ i < 0x80400000 + 136)
      omega
    · cases (only q h1 h2).symm.trans ht
  exact ⟨h.switched (exec contextSwitch 0 d) 1 (.starting turnsFirst),
    .boot cur (fun q t _ _ i _ => by rw [hmem]) (by rw [a0]; decide) apart first (by rw [a1]; rfl) rfl, rfl,
    Hart.setStage_self first, Hart.switched_other second (by decide)⟩

theorem turns_run : ∃ s a d, TurnsRun s a d := by
  obtain ⟨s0, s1, s2, hinit, step0, step1, cur2, first2, second2, only2⟩ := turns_start
  obtain ⟨s3, step2, cur3, first3, second3⟩ := turns_boot cur2 first2 second2 only2
  -- the first process
  obtain ⟨s4, step3, cur4, first4, others4⟩ := can_begin turnsCode 0x80000000 cur3 first3
  have second4 := (others4 2 (by decide)).trans second3
  have reached4 : HartReached turnsCode 0x80000000 s4 :=
    ((((HartReached.next (.init hinit) step0).next step1).next step2).next step3)
  obtain ⟨a, s5, step4, cur5, first5, others5, hnil, htop, hmem5⟩ := reached4.can_trap turnsCode_convention cur4 first4
  have second5 := (others5 2 (by decide)).trans second4
  obtain ⟨d, hd⟩ : ∃ d, d = (a.now.set .a0 0x80300000).set .a1 0x80300100 := ⟨_, rfl⟩
  obtain ⟨d0, d1, dmem⟩ := Cpu.get_args a.now 0x80300000 0x80300100
  rw [← hd] at d0 d1 dmem
  have call : turnsCode a = .switches d := by
    unfold turnsCode
    rw [hnil, htop, hd]
    rfl
  obtain ⟨s6, step5, cur6, first6, second6, -⟩ := can_switch 0x80000000 cur5 first5 call (dmem.trans hmem5) (by rw [d0]; rfl)
    (by decide) second5 (by rw [d1]; rfl) rfl
  -- the second process
  obtain ⟨s7, step6, cur7, second7, others7⟩ := can_begin turnsCode 0x80000000 cur6 second6
  have first7 := (others7 1 (by decide)).trans first6
  obtain ⟨b, s8, step7, cur8, second8, others8, hnil', htop', hmem8⟩ :=
    (((reached4.next step4).next step5).next step6).can_trap turnsCode_convention cur7 second7
  have first8 := (others8 1 (by decide)).trans first7
  obtain ⟨e, he⟩ : ∃ e, e = (b.now.set .a0 0x80300100).set .a1 0x80300000 := ⟨_, rfl⟩
  obtain ⟨e0, e1, emem⟩ := Cpu.get_args b.now 0x80300100 0x80300000
  rw [← he] at e0 e1 emem
  have call' : turnsCode b = .switches e := by
    unfold turnsCode
    rw [hnil', htop', he]
    rfl
  obtain ⟨s9, step8, cur9, second9, first9, hcpu⟩ := can_switch 0x80000000 cur8 second8 call' (emem.trans hmem8)
    (by rw [e0]; rfl) (by decide) first8 (by rw [e1]; rfl) rfl
  -- and back
  have call'' := turnsCode_cons (a := a.resume (exec contextSwitch 0 e)) (List.cons_ne_nil _ _)
  obtain ⟨s10, step9⟩ : ∃ s10, HartStep turnsCode 0x80000000 s9 .ret s10 :=
    ⟨_, .ret cur9 first9 rfl call'' fun q t _ _ i _ => by rw [hcpu]; rfl⟩
  exact ⟨fun n => [s0, s1, s2, s3, s4, s5, s6, s7, s8, s9, s10].getD n s0, a, d, hinit, step0, step1, step2, step3, step4, step5,
    step6, step7, step8, step9, cur4, cur5, cur6, cur7, cur8, cur9, first5, call⟩

end turns

/-! ## A call of `context_switch` -/

/-- A call of `context_switch` comes back: `p` calls it in `d` and is switched away from;
when it is switched to again, after any steps in which it is neither switched to
nor freed, it goes on after the call, with the registers of a `context_t` and
with its stack as they were in `d`. -/
theorem context_switch_comes_back (hc : Convention code) (hr : HartReached code wrapper h₀) (hcur : h₀.current = some p)
    (ht : h₀.tasks p = some t) (hk : t.stage = .kernel a) (hd : code a = .switches d)
    (hgo : HartStep code wrapper h₀ (.switch q) h₁) (hpath : Path (HartStep code wrapper) (LeavesOut p) h₁ h₂)
    (hback : HartStep code wrapper h₂ e h₃) (he : e = .switch p ∨ e = .swap p) :
    Alike h₃.cpu d ∧ h₃.cpu.pc = d.get .ra ∧ (∀ i, t.frame ≤ i → i < t.frame + 0x1000 → h₃.cpu.mem i = d.mem i) ∧
    h₃.current = some p := by
  have hs₁ := (hr.next hgo).sound hc
  have haway : h₁.tasks p = some { t with stage := .away a } ∧ h₁.current ≠ some p := by
    cases hgo with
    | @switch p' q t' u a' d' s hq ht' hk' _ _ _ hne =>
      obtain rfl : p = p' := Option.some.inj (hcur.symm.trans hq)
      cases ht'.symm.trans ht
      cases hk'.symm.trans hk
      exact ⟨Hart.switched_other (Hart.setStage_self ht) hne, fun hc => hne (Option.some.inj hc).symm⟩
    | boot hq => cases hq.symm.trans hcur
  obtain ⟨ht₂, hcur₂⟩ := leavesOut_path hpath haway.1 haway.2
  obtain ⟨s, hres, ht₃, hcur₃⟩ := hback.goes he ht₂
  cases hres
  have hs₃ := (((hr.next hgo).along hpath).next hback).sound hc
  obtain ⟨hl, htop, -⟩ := hs₃.runs p _ ht₃ hcur₃
  obtain ⟨d', hd', hal, hst, hpc⟩ := hl.of_resume
  cases hd'.symm.trans hd
  have htop : a.top = t.frame + 0x1000 := htop
  refine ⟨hal, hpc, fun i h1 h2 => hst i ?_ ?_, hcur₃⟩
  · omega
  · omega

/-- The first process's call of `context_switch` comes back. -/
theorem context_switch_comes_back_turns : ∃ s a d, TurnsRun s a d ∧ Alike (s 9).cpu d ∧ (s 9).cpu.pc = d.get .ra ∧
    (∀ i, 0x80100000 ≤ i → i < 0x80101000 → (s 9).cpu.mem i = d.mem i) ∧ (s 9).current = some 1 := by
  obtain ⟨s, a, d, r⟩ := turns_run
  have reached : HartReached turnsCode 0x80000000 (s 5) :=
    (((((HartReached.next (.init r.init) r.start₁).next r.start₂).next r.boot).next r.begin₁).next r.trap₁)
  have path : Path (HartStep turnsCode 0x80000000) (LeavesOut 1) (s 6) (s 8) :=
    (Machine.Path.refl.step ⟨by decide, by decide, by decide⟩ r.begin₂).step ⟨by decide, by decide, by decide⟩ r.trap₂
  exact ⟨s, a, d, r, context_switch_comes_back turnsCode_convention reached r.kernel r.task rfl r.call r.switch₁ path r.switch₂
    (.inl rfl)⟩

/-! ## From a trap to its return -/

/-- The step is not the return of `p` from its trap, and does not free `p`. -/
def BeforeReturn (p : Nat) (h : Hart) (e : HartEvent) : Prop := ¬(e = .ret ∧ h.current = some p) ∧ e ≠ .free p

/-- The process has taken a trap in `c`, and that trap is being handled. -/
def Handles (c : Cpu) (t : Task) : Prop :=
  t.stage = .gone ∨ ∃ a : Activation, a.trap = c ∧ (t.stage = .kernel a ∨ t.stage = .away a)

/-- The process that runs the C code of a trap: it goes on, or it is switched away from. -/
theorem HartStep.handles_current (hst : HartStep code wrapper h e h₁) (hb : BeforeReturn p h e) (hcur : h.current = some p)
    (ht : h.tasks p = some t) (hk : t.stage = .kernel a) :
    ∃ u, h₁.tasks p = some u ∧ u.frame = t.frame ∧ Handles a.trap u := by
  have hself : Handles a.trap t := .inr ⟨a, rfl, .inl hk⟩
  cases hst with
  | @user p' t' c hq ht' hu =>
    obtain rfl : p = p' := Option.some.inj (hcur.symm.trans hq)
    cases ht'.symm.trans ht
    cases hu.symm.trans hk
  | @trap p' t' c hq ht' hu =>
    obtain rfl : p = p' := Option.some.inj (hcur.symm.trans hq)
    cases ht'.symm.trans ht
    cases hu.symm.trans hk
  | @begin p' t' x hq ht' hu =>
    obtain rfl : p = p' := Option.some.inj (hcur.symm.trans hq)
    cases ht'.symm.trans ht
    cases hu.symm.trans hk
  | ret => exact absurd ⟨rfl, hcur⟩ hb.1
  | @start x _ hnew =>
    have hne : p ≠ x.pid := by
      rintro rfl
      cases hnew.symm.trans ht
    exact ⟨t, (Function.update_of_ne hne _ _).trans ht, rfl, hself⟩
  | @free q =>
    have hne : p ≠ q := fun he => hb.2 (he ▸ rfl)
    exact ⟨t, (Function.update_of_ne hne _ _).trans ht, rfl, hself⟩
  | @switch p' q t' u a' d s hq ht' hk' _ _ _ hne =>
    obtain rfl : p = p' := Option.some.inj (hcur.symm.trans hq)
    cases ht'.symm.trans ht
    cases hk'.symm.trans hk
    exact ⟨{ t with stage := .away a }, Hart.switched_other (Hart.setStage_self ht) hne, rfl, .inr ⟨a, rfl, .inr rfl⟩⟩
  | @swap p' q t' u a' d s hq ht' hk' _ _ hne =>
    obtain rfl : p = p' := Option.some.inj (hcur.symm.trans hq)
    cases ht'.symm.trans ht
    exact ⟨{ t with stage := .gone }, Hart.switched_other (Hart.setStage_self ht) hne, rfl, .inl rfl⟩
  | boot hq => cases hq.symm.trans hcur

theorem HartStep.handles (hs : h.Sound code wrapper) (hst : HartStep code wrapper h e h₁) (hb : BeforeReturn p h e)
    (ht : h.tasks p = some t) (hh : Handles c t) : ∃ u, h₁.tasks p = some u ∧ u.frame = t.frame ∧ Handles c u := by
  by_cases hcur : h.current = some p
  · have hrun := hs.runs p t ht hcur
    unfold Task.Runs at hrun
    obtain hg | ⟨a, rfl, hk | hk⟩ := hh
    · rw [hg] at hrun
      exact hrun.elim
    · exact hst.handles_current hb hcur ht hk
    · rw [hk] at hrun
      exact hrun.elim
  by_cases hgo : e = .switch p ∨ e = .swap p
  · obtain ⟨s, hres, ht₁, -⟩ := hst.goes hgo ht
    refine ⟨_, ht₁, rfl, ?_⟩
    obtain hg | ⟨a, ha, hk | hk⟩ := hh
    · rw [hg] at hres
      cases hres
    · rw [hk] at hres
      cases hres
    · rw [hk] at hres
      cases hres
      exact .inr ⟨a.resume h₁.cpu, ha, .inl rfl⟩
  · have hout : LeavesOut p h e := ⟨fun he => hgo (.inl he), fun he => hgo (.inr he), hb.2⟩
    exact ⟨t, (hst.leavesOut hout ht hcur).1, rfl, hh⟩

theorem handles_path (hc : Convention code) (hr : HartReached code wrapper h)
    (hp : Path (HartStep code wrapper) (BeforeReturn p) h h₁) (ht : h.tasks p = some t) (hh : Handles c t) :
    ∃ u, h₁.tasks p = some u ∧ u.frame = t.frame ∧ Handles c u := by
  induction hp with
  | refl => exact ⟨t, ht, rfl, hh⟩
  | step hp hb hst ih =>
    obtain ⟨u, hu, hf, hh'⟩ := ih
    obtain ⟨v, hv, hf', hh''⟩ := hst.handles ((hr.along hp).sound hc) hb hu hh'
    exact ⟨v, hv, hf'.trans hf, hh''⟩

/-- What the end of `strap_entry` gives back of the trap. -/
theorem Activation.Linked.returned (hc : Convention code) (hl : a.Linked code) (hd : code a = .returns d)
    (htop : trapFrameSize ≤ a.top) :
    (∀ r, r ≠ .gp → r ≠ .tp → (r = .a0 → isEcall a.trap = false) → (exec strapExit 0 d).get r = a.trap.get r) ∧
    (exec strapExit 0 d).pc = returnPc a.trap (a.trap.csr .sepc) ∧
    (exec strapExit 0 d).csr .satp = a.trap.csr .satp ∧
    (exec strapExit 0 d).csr .sscratch = a.trap.csr .sscratch := by
  have hin := hl.intact hc htop
  have hsp := hl.sp_returns hc hd htop
  have htop' : (a.trap.csr .sscratch).toNat = a.top := rfl
  have hlt := (a.trap.csr .sscratch).isLt
  have hex : Exited d (exec strapExit 0 d) := strapExit_spec (by omega)
  have hcpu : (code a).cpu = d := by rw [hd]; rfl
  have hscratch := hc.sscratch a hl
  have hsatp := hc.satp a hl
  rw [hcpu] at hscratch hsatp
  refine ⟨fun r hgp htp ha0 => ?_, ?_, ?_, ?_⟩
  · have hcases : ∀ r, r = .gp ∨ r = .tp ∨ r = .zero ∨ r = .sp ∨ (r ∈ trapKept ∧ r ∈ calleeSaved) ∨ r ∈ trapFrameRegs.map Prod.fst := by
      intro r
      cases r <;> decide
    obtain h | h | h | h | ⟨hk, hcs⟩ | hslot := hcases r
    · exact absurd h hgp
    · exact absurd h htp
    · rw [h]
      rfl
    · rw [h, hex.sp, hscratch, hin.sscratch]
    · have he : Entered a.trap (exec strapEntry 0 a.trap) := strapEntry_spec htop
      rw [hex.kept r hk, hc.callee a d hl hd r hcs, he.kept r hk]
    · obtain ⟨s, hs, rfl⟩ := List.mem_map.1 hslot
      have hframe := hc.frame a hl s hs ha0
      rw [hcpu] at hframe
      rw [hex.slots s hs, hsp, hframe, hin.slots s hs ha0]
  · rw [hex.pc, hc.sepc_returns a d hl hd, hin.sepc]
  · rw [hex.csrs .satp (by decide), hsatp, hin.satp]
  · have : trapFrameSize = 296 := rfl
    apply BitVec.eq_of_toNat_eq
    rw [hex.sscratch, BitVec.toNat_add, hsp, BitVec.toNat_ofNat]
    omega

/-- A trap is left as it was taken: `p` takes a trap in `h₀`, and its C code runs, is
switched away from and comes back any number of times, among any steps of the others;
when it returns from the trap, every register is as it was, but for `gp` and `tp`, which
nobody saves, and for the result of a system call. It goes on where it was, or after
the `ecall`, in its own address space and with its own frame ready for the next trap. -/
theorem trap_returns (hc : Convention code) (hr : HartReached code wrapper h₀) (hcur : h₀.current = some p)
    (htrap : HartStep code wrapper h₀ .trap h₁) (hpath : Path (HartStep code wrapper) (BeforeReturn p) h₁ h₂)
    (hcur₂ : h₂.current = some p) (hret : HartStep code wrapper h₂ .ret h₃) :
    (∀ r, r ≠ .gp → r ≠ .tp → (r = .a0 → isEcall h₁.cpu = false) → h₃.cpu.get r = h₀.cpu.get r) ∧
    h₃.cpu.pc = returnPc h₁.cpu h₀.cpu.pc ∧ h₃.cpu.csr .satp = h₀.cpu.csr .satp ∧
    h₃.cpu.csr .sscratch = h₀.cpu.csr .sscratch := by
  have hs₀ := hr.sound hc
  have hs₂ := ((hr.next htrap).along hpath).sound hc
  have hsize : trapFrameSize = 296 := rfl
  cases htrap with
  | @trap p' t c hq ht hst hx hmem hpc hsepc hscratch hsatp =>
    obtain rfl : p = p' := Option.some.inj (hcur.symm.trans hq)
    have htop := hs₀.sscratch hcur ht hst
    have he : Entered c (exec strapEntry 0 c) := strapEntry_spec (by rw [hscratch]; omega)
    obtain ⟨u, hu, hf, hh⟩ := handles_path (c := c) hc (hr.next (.trap hq ht hst hx hmem hpc hsepc hscratch hsatp)) hpath
      (Hart.setStage_self ht) (.inr ⟨_, rfl, .inl rfl⟩)
    cases hret with
    | @ret p' v a d hq' hv hk hd hm =>
      obtain rfl : p = p' := Option.some.inj (hcur₂.symm.trans hq')
      cases hv.symm.trans hu
      obtain ⟨hl, htop', -⟩ : a.Linked code ∧ a.top = u.frame + 0x1000 ∧ a.SameStack a.now.mem h₂.cpu.mem := by
        have hrun := hs₂.runs p u hu hcur₂
        unfold Task.Runs at hrun
        rwa [hk] at hrun
      obtain rfl : a.trap = c := by
        obtain hg | ⟨b, hb, hb' | hb'⟩ := hh
        · cases hg.symm.trans hk
        · cases hb'.symm.trans hk
          exact hb
        · cases hb'.symm.trans hk
      obtain ⟨hregs, hpc', hsatp', hscratch'⟩ := hl.returned hc hd (by omega)
      have hget : ∀ r, a.trap.get r = h₀.cpu.get r := by
        intro r
        unfold Cpu.get
        rw [hx]
      have hcall : isEcall (exec strapEntry 0 a.trap) = isEcall a.trap := by
        unfold isEcall
        rw [he.csrs .scause (by decide)]
      show (∀ r, _ → _ → (r = .a0 → isEcall (exec strapEntry 0 a.trap) = false) → (exec strapExit 0 d).get r = _) ∧
        (exec strapExit 0 d).pc = returnPc (exec strapEntry 0 a.trap) _ ∧ (exec strapExit 0 d).csr .satp = _ ∧
        (exec strapExit 0 d).csr .sscratch = _
      rw [hcall, returnPc, hcall, ← hsepc, ← hsatp, ← hscratch]
      exact ⟨fun r h1 h2 h3 => (hregs r h1 h2 h3).trans (hget r), hpc', hsatp', hscratch'⟩

/-- The first process returns from its trap. -/
theorem trap_returns_turns : ∃ s a d, TurnsRun s a d ∧
    (∀ r, r ≠ .gp → r ≠ .tp → (r = .a0 → isEcall (s 5).cpu = false) → (s 10).cpu.get r = (s 4).cpu.get r) ∧
    (s 10).cpu.pc = returnPc (s 5).cpu (s 4).cpu.pc ∧ (s 10).cpu.csr .satp = (s 4).cpu.csr .satp ∧
    (s 10).cpu.csr .sscratch = (s 4).cpu.csr .sscratch := by
  obtain ⟨s, a, d, r⟩ := turns_run
  have reached : HartReached turnsCode 0x80000000 (s 4) :=
    ((((HartReached.next (.init r.init) r.start₁).next r.start₂).next r.boot).next r.begin₁)
  have path : Path (HartStep turnsCode 0x80000000) (BeforeReturn 1) (s 5) (s 9) := by
    have other : ∀ h e, e ≠ .ret → e ≠ .free 1 → BeforeReturn 1 h e := fun _ _ hr hf => ⟨fun hc => hr hc.1, hf⟩
    exact (((Machine.Path.refl.step (other _ _ (by decide) (by decide)) r.switch₁).step (other _ _ (by decide) (by decide)) r.begin₂).step
      (other _ _ (by decide) (by decide)) r.trap₂).step (other _ _ (by decide) (by decide)) r.switch₂
  exact ⟨s, a, d, r, trap_returns turnsCode_convention reached r.user r.trap₁ path r.back r.ret⟩

/-! ## The first instruction of a process -/

/-- `satp` of a process: the mode, the address space and the frame of its page table. -/
theorem satp_fields {pid pageTable : Nat} (hpid : pid < 2 ^ 16) (hpt : pageTable < 2 ^ 56) :
    (0x8000000000000000 ||| pageTable >>> 12 ||| pid <<< 44) / 2 ^ 60 = 8 ∧
    (0x8000000000000000 ||| pageTable >>> 12 ||| pid <<< 44) / 2 ^ 44 % 2 ^ 16 = pid ∧
    (0x8000000000000000 ||| pageTable >>> 12 ||| pid <<< 44) % 2 ^ 44 = pageTable / 2 ^ 12 := by
  have hppn : pageTable >>> 12 = pageTable / 2 ^ 12 := Nat.shiftRight_eq_div_pow _ _
  have hlow : pageTable >>> 12 < 2 ^ 44 := by
    rw [hppn]
    omega
  have hasid : pid <<< 44 ||| pageTable >>> 12 = 2 ^ 44 * pid + pageTable / 2 ^ 12 := by
    rw [← Nat.shiftLeft_add_eq_or_of_lt hlow, Nat.shiftLeft_eq, hppn, Nat.mul_comm]
  have hmode : 0x8000000000000000 ||| (2 ^ 44 * pid + pageTable / 2 ^ 12) = 2 ^ 63 + (2 ^ 44 * pid + pageTable / 2 ^ 12) := by
    rw [show (0x8000000000000000 : Nat) = 1 <<< 63 from rfl,
      ← Nat.shiftLeft_add_eq_or_of_lt (show 2 ^ 44 * pid + pageTable / 2 ^ 12 < 2 ^ 63 by omega), Nat.shiftLeft_eq, Nat.one_mul]
  rw [Nat.or_assoc, Nat.or_comm (pageTable >>> 12), hasid, hmode]
  omega

/-- A new process starts as `start_virtual` set it up: whatever runs between its creation
and its first turn, its first instruction is at `0x40000000`, with its argument in `a0`, the
top of its stack in `sp`, its frame in `sscratch`, and `satp` naming Sv39, its address space and its page table. -/
theorem start_launches (hc : Convention code) (hr : HartReached code wrapper h₀) (hstart : HartStep code wrapper h₀ (.start x) h₁)
    (hpath : Path (HartStep code wrapper) (LeavesOut x.pid) h₁ h₂) (hgo : HartStep code wrapper h₂ e h₃)
    (he : e = .switch x.pid ∨ e = .swap x.pid) (hbegin : HartStep code wrapper h₃ .begin h₄) :
    h₃.cpu.pc = BitVec.ofNat 64 wrapper ∧ h₄.cpu.pc = 0x40000000 ∧ h₄.cpu.get .a0 = BitVec.ofNat 64 x.arg ∧
    h₄.cpu.get .sp = BitVec.ofNat 64 (0x40000000 + 0x1000 * x.stackShift) ∧
    h₄.cpu.csr .sscratch = BitVec.ofNat 64 (x.frame + 0x1000) ∧
    (x.pid < 2 ^ 16 → x.pageTable < 2 ^ 56 → (h₄.cpu.csr .satp).toNat / 2 ^ 60 = 8 ∧
      (h₄.cpu.csr .satp).toNat / 2 ^ 44 % 2 ^ 16 = x.pid ∧ (h₄.cpu.csr .satp).toNat % 2 ^ 44 = x.pageTable / 2 ^ 12) := by
  have hnew : h₁.tasks x.pid = some ⟨x.context, x.frame, .fresh x⟩ ∧ h₁.current ≠ some x.pid := by
    cases hstart with
    | start hin hnone =>
      refine ⟨Function.update_self _ _ _, fun hcur => ?_⟩
      obtain ⟨t, a, ht, -⟩ := hin x.pid hcur
      cases hnone.symm.trans ht
  obtain ⟨ht₂, hcur₂⟩ := leavesOut_path hpath hnew.1 hnew.2
  obtain ⟨s, hres, ht₃, hcur₃⟩ := hgo.goes he ht₂
  cases hres
  obtain ⟨hpc, -, hl⟩ := (((hr.next hstart).along hpath).next hgo).sound hc |>.runs x.pid _ ht₃ hcur₃
  cases hbegin with
  | @begin p' t x' hq ht hst =>
    refine ⟨hpc, hl.sepc, ?_, ?_, ?_, fun hpid hpt => ?_⟩
    · show (h₃.cpu.set .a0 (h₃.cpu.get .s2)).get .a0 = _
      rw [Cpu.get_set_self (by decide), hl.s2]
    · show (h₃.cpu.set .a0 (h₃.cpu.get .s2)).get .sp = _
      rw [Cpu.get_set_of_ne (by decide), hl.sp]
    · exact hl.sscratch
    · have hfields := satp_fields hpid hpt
      show (h₃.cpu.csr .satp).toNat / 2 ^ 60 = 8 ∧ (h₃.cpu.csr .satp).toNat / 2 ^ 44 % 2 ^ 16 = x.pid ∧
        (h₃.cpu.csr .satp).toNat % 2 ^ 44 = x.pageTable / 2 ^ 12
      rw [hl.satp, BitVec.toNat_ofNat, Nat.mod_eq_of_lt (by omega)]
      exact hfields

/-- The first process begins as it was made. -/
theorem start_launches_turns : ∃ s a d, TurnsRun s a d ∧ (s 4).cpu.pc = 0x40000000 ∧ (s 4).cpu.get .a0 = 7 ∧
    (s 4).cpu.get .sp = 0x40003000 := by
  obtain ⟨s, a, d, r⟩ := turns_run
  have reached : HartReached turnsCode 0x80000000 (s 0) := .init r.init
  have path : Path (HartStep turnsCode 0x80000000) (LeavesOut 1) (s 1) (s 2) :=
    Machine.Path.refl.step ⟨by decide, by decide, by decide⟩ r.start₂
  obtain ⟨-, hpc, ha0, hsp, -⟩ := start_launches turnsCode_convention reached r.start₁ path r.boot (.inl rfl) r.begin₁
  exact ⟨s, a, d, r, hpc, ha0, hsp⟩

end Xinul
