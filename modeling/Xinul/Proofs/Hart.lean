import Xinul.Kernel.Hart
import Xinul.Proofs.Context

/-!
# What every step of the hart keeps

The process that runs has its frame in `sscratch`, or its trap frame on it; every other
process has its registers in its `context_t` and its frame as it left it.
-/

namespace Xinul

open Bytes Rv

variable {m m' : Memory} {c c' d : Cpu}

/-! ## Words -/

theorem load64_store64_mod {a v : Nat} : load64 (store64 m a v) a = v % 2 ^ 64 := by
  have h0 : (store64 m a v (a + 0)).toNat = v / 256 ^ 0 % 256 := store64_byte (by decide)
  rw [Nat.add_zero, Nat.pow_zero, Nat.div_one] at h0
  rw [load64, h0, store64_byte (by decide), store64_byte (by decide), store64_byte (by decide),
    store64_byte (by decide), store64_byte (by decide), store64_byte (by decide), store64_byte (by decide)]
  omega

theorem word_store {a v : Nat} : word (store64 m a v) a = BitVec.ofNat 64 v := by
  rw [word, load64_store64_mod]
  apply BitVec.eq_of_toNat_eq
  rw [BitVec.toNat_ofNat, BitVec.toNat_ofNat, Nat.mod_mod]

theorem word_store_of_ne {a b v : Nat} (h : b + 8 ≤ a ∨ a + 8 ≤ b) : word (store64 m a v) b = word m b := by
  rw [word, load64_store64_of_ne h, word]

/-! ## A new process -/

/-- What the context of a process that has not run holds. -/
structure Fresh (wrapper : Nat) (x : StartArgs) (m : Memory) : Prop where
  sp : word m (x.context + 0) = BitVec.ofNat 64 (0x40000000 + 0x1000 * x.stackShift)
  ra : word m (x.context + 8) = BitVec.ofNat 64 wrapper
  s2 : word m (x.context + 32) = BitVec.ofNat 64 x.arg
  sscratch : word m (x.context + 112) = BitVec.ofNat 64 (x.frame + 0x1000)
  sepc : word m (x.context + 120) = BitVec.ofNat 64 0x40000000
  satp : word m (x.context + 128) = BitVec.ofNat 64 (0x8000000000000000 ||| x.pageTable >>> 12 ||| x.pid <<< 44)

theorem startContext_fresh {wrapper : Nat} {x : StartArgs} :
    Fresh wrapper x (startContext m x.context wrapper x.stackShift x.arg x.pageTable x.pid x.frame) := by
  unfold startContext
  constructor
  · simp (disch := omega) only [word_store_of_ne, word_store]
  · simp (disch := omega) only [word_store_of_ne, word_store]
  · simp (disch := omega) only [word_store_of_ne, word_store]
  · exact word_store
  · simp (disch := omega) only [word_store_of_ne, word_store]
  · simp (disch := omega) only [word_store_of_ne, word_store]

/-- Only the context is written. -/
theorem startContext_mem {wrapper : Nat} {x : StartArgs} {i : Nat} (h : i < x.context ∨ x.context + contextSize ≤ i) :
    startContext m x.context wrapper x.stackShift x.arg x.pageTable x.pid x.frame i = m i := by
  have hsize : contextSize = 136 := rfl
  unfold startContext
  obtain h | h := h
  · simp (disch := omega) only [store64_of_lt]
  · simp (disch := omega) only [store64_of_ge]

theorem Fresh.congr {wrapper : Nat} {x : StartArgs} (h : Fresh wrapper x m)
    (hm : ∀ i, x.context ≤ i → i < x.context + contextSize → m' i = m i) : Fresh wrapper x m' := by
  have hsize : contextSize = 136 := rfl
  have hword : ∀ o, o + 8 ≤ 136 → word m' (x.context + o) = word m (x.context + o) := fun o ho =>
    word_congr fun i h1 h2 => hm i (by omega) (by omega)
  constructor
  · rw [hword 0 (by decide), h.sp]
  · rw [hword 8 (by decide), h.ra]
  · rw [hword 32 (by decide), h.s2]
  · rw [hword 112 (by decide), h.sscratch]
  · rw [hword 120 (by decide), h.sepc]
  · rw [hword 128 (by decide), h.satp]

/-! ## Coming back to the C code -/

section activation

variable {code : Activation → Milestone} {a : Activation}

/-- The trap frame is on the stack. -/
theorem Activation.SameStack.word_eq (h : a.SameStack m m') (htop : trapFrameSize ≤ a.top) {o : Nat} (ho : o + 8 ≤ trapFrameSize) :
    word m' (a.top - trapFrameSize + o) = word m (a.top - trapFrameSize + o) := by
  have hsize : trapFrameSize = 296 := rfl
  rw [hsize] at ho htop ⊢
  apply word_congr
  intro i h1 h2
  apply h
  · omega
  · omega

/-- What is left of the trap wherever its C code is resumed. -/
structure Activation.Intact (a : Activation) : Prop where
  sscratch : a.now.csr .sscratch = a.trap.get .sp
  sepc : a.now.csr .sepc = a.trap.csr .sepc
  satp : a.now.csr .satp = a.trap.csr .satp
  slots : ∀ p ∈ trapFrameRegs, (p.1 = .a0 → isEcall a.trap = false) →
    word a.now.mem (a.top - trapFrameSize + p.2) = a.trap.get p.1

theorem Activation.Linked.intact (hc : Convention code) (h : a.Linked code) (htop : trapFrameSize ≤ a.top) :
    a.Intact := by
  induction h with
  | entered t =>
    have he : Entered t (exec strapEntry 0 t) := strapEntry_spec htop
    constructor
    · exact he.sscratch
    · exact he.csrs .sepc (by decide)
    · exact he.csrs .satp (by decide)
    · intro p hp _
      have := he.slots p hp
      rw [he.sp] at this
      exact this
  | @resumed a c d hl hcode hal hst hpc ih =>
    have ih := ih htop
    have hcpu : (code a).cpu = d := by rw [hcode]; rfl
    have hscratch := hc.sscratch a hl
    have hsatp := hc.satp a hl
    have hsepc := hc.sepc a d hl hcode
    rw [hcpu] at hscratch hsatp
    constructor
    · exact (hal.csrs (.sscratch, 112) (by decide)).trans (hscratch.trans ih.sscratch)
    · exact (hal.csrs (.sepc, 120) (by decide)).trans (hsepc.trans ih.sepc)
    · exact (hal.csrs (.satp, 128) (by decide)).trans (hsatp.trans ih.satp)
    · intro p hp ha0
      have hframe := hc.frame a hl p hp ha0
      rw [hcpu] at hframe
      show word c.mem (a.top - trapFrameSize + p.2) = a.trap.get p.1
      rw [hst.word_eq htop (trapFrameRegs_lt p hp), hframe]
      exact ih.slots p hp ha0

/-- The last call of `context_switch` came back. -/
theorem Activation.Linked.of_resume (h : (a.resume c).Linked code) :
    ∃ d, code a = .switches d ∧ Alike c d ∧ a.SameStack d.mem c.mem ∧ c.pc = d.get .ra := by
  generalize hb : a.resume c = b at h
  cases h with
  | entered t => cases hb
  | @resumed a' c' d _ hcode hal hst hpc =>
    obtain ⟨t, n, l⟩ := a
    obtain ⟨t', n', l'⟩ := a'
    cases hb
    exact ⟨d, hcode, hal, hst, hpc⟩

end activation

/-! ## The processes -/

/-- A process that does not run: its context and its frame are as they were left. -/
def Task.Rests (code : Activation → Milestone) (wrapper : Nat) (m : Memory) (t : Task) : Prop :=
  match t.stage with
  | .fresh x => x.context = t.context ∧ x.frame = t.frame ∧ Fresh wrapper x m
  | .away a => a.Linked code ∧ a.top = t.frame + 0x1000 ∧ ∃ d, code a = .switches d ∧ Saved m t.context d ∧ a.SameStack d.mem m
  | .gone => True
  | _ => False

/-- The registers a process is started with. -/
structure Launched (x : StartArgs) (c : Cpu) : Prop where
  sp : c.get .sp = BitVec.ofNat 64 (0x40000000 + 0x1000 * x.stackShift)
  s2 : c.get .s2 = BitVec.ofNat 64 x.arg
  sscratch : c.csr .sscratch = BitVec.ofNat 64 (x.frame + 0x1000)
  sepc : c.csr .sepc = BitVec.ofNat 64 0x40000000
  satp : c.csr .satp = BitVec.ofNat 64 (0x8000000000000000 ||| x.pageTable >>> 12 ||| x.pid <<< 44)

/-- The process that runs. -/
def Task.Runs (code : Activation → Milestone) (wrapper : Nat) (c : Cpu) (t : Task) : Prop :=
  match t.stage with
  | .starting x => c.pc = BitVec.ofNat 64 wrapper ∧ x.frame = t.frame ∧ Launched x c
  | .user => (c.csr .sscratch).toNat = t.frame + 0x1000
  | .kernel a => a.Linked code ∧ a.top = t.frame + 0x1000 ∧ a.SameStack a.now.mem c.mem
  | _ => False

/-- The memory of a process is in the address space, and its context is not in its frame. -/
structure Task.Fits (t : Task) : Prop where
  context : t.context + contextSize ≤ 2 ^ 64
  frame : t.frame + 0x1000 < 2 ^ 64
  apart : ∀ i, ¬((t.context ≤ i ∧ i < t.context + contextSize) ∧ t.frame ≤ i ∧ i < t.frame + 0x1000)

/-- What every step keeps. -/
structure Hart.Sound (code : Activation → Milestone) (wrapper : Nat) (h : Hart) : Prop where
  fits : ∀ p t, h.tasks p = some t → t.Fits
  apart : ∀ p q t u, p ≠ q → h.tasks p = some t → h.tasks q = some u → ∀ i, ¬(t.Owns i ∧ u.Owns i)
  rests : ∀ p t, h.tasks p = some t → h.current ≠ some p → t.Rests code wrapper h.cpu.mem
  runs : ∀ p t, h.tasks p = some t → h.current = some p → t.Runs code wrapper h.cpu

section sound

variable {code : Activation → Milestone} {wrapper : Nat} {h h' : Hart} {p q : Nat} {t u : Task} {s : Stage} {a : Activation}

theorem Hart.setStage_self (ht : h.tasks p = some t) : h.setStage p s p = some { t with stage := s } := by
  rw [Hart.setStage, Function.update_self, ht]
  rfl

theorem Hart.setStage_of_ne (hq : q ≠ p) : h.setStage p s q = h.tasks q := Function.update_of_ne hq _ _

/-- A stage changes neither the context nor the frame. -/
theorem Hart.setStage_some {t' : Task} (ht' : h.setStage p s q = some t') :
    ∃ t, h.tasks q = some t ∧ t'.context = t.context ∧ t'.frame = t.frame := by
  by_cases hq : q = p
  · subst hq
    rw [Hart.setStage, Function.update_self] at ht'
    obtain ⟨t, ht, rfl⟩ := Option.map_eq_some_iff.1 ht'
    exact ⟨t, ht, rfl, rfl⟩
  · rw [Hart.setStage_of_ne hq] at ht'
    exact ⟨t', ht', rfl, rfl⟩

theorem Task.owns_congr {i : Nat} (hc : u.context = t.context) (hf : u.frame = t.frame) : u.Owns i ↔ t.Owns i := by
  rw [Task.Owns, Task.Owns, hc, hf]

theorem Task.owns_context {i : Nat} (h1 : t.context ≤ i) (h2 : i < t.context + contextSize) : t.Owns i := Or.inl ⟨h1, h2⟩

theorem Task.owns_stack {i : Nat} (htop : a.top = t.frame + 0x1000) (h1 : a.top - 0x1000 ≤ i) (h2 : i < a.top) : t.Owns i :=
  Or.inr ⟨by omega, by omega⟩

/-- A process that does not run looks at its own memory only. -/
theorem Task.Rests.congr (hr : t.Rests code wrapper m) (hm : ∀ i, t.Owns i → m' i = m i) : t.Rests code wrapper m' := by
  unfold Task.Rests at hr ⊢
  split at hr
  · obtain ⟨hc, hf, hx⟩ := hr
    refine ⟨hc, hf, hx.congr fun i h1 h2 => ?_⟩
    rw [hc] at h1 h2
    exact hm i (Task.owns_context h1 h2)
  · obtain ⟨hl, htop, d, hd, hsv, hst⟩ := hr
    refine ⟨hl, htop, d, hd, hsv.congr fun i h1 h2 => hm i (Task.owns_context h1 h2), fun i h1 h2 => ?_⟩
    rw [hm i (Task.owns_stack htop h1 h2)]
    exact hst i h1 h2
  · trivial
  · exact hr

/-- The other processes rest when the code of one leaves their memory alone. -/
theorem Hart.Sound.spared (hs : h.Sound code wrapper) {o : Option Nat} (hm : h.Spares o m) (hq : h.tasks q = some u)
    (hcur : h.current ≠ some q) (ho : o ≠ some q) : u.Rests code wrapper m :=
  (hs.rests q u hq hcur).congr (hm q u hq ho)

/-- A step that leaves the contexts and the frames where they are. -/
theorem Hart.Sound.of_shape (hs : h.Sound code wrapper)
    (hshape : ∀ r t', h'.tasks r = some t' → ∃ t, h.tasks r = some t ∧ t'.context = t.context ∧ t'.frame = t.frame)
    (hrests : ∀ r t, h'.tasks r = some t → h'.current ≠ some r → t.Rests code wrapper h'.cpu.mem)
    (hruns : ∀ r t, h'.tasks r = some t → h'.current = some r → t.Runs code wrapper h'.cpu) : h'.Sound code wrapper := by
  constructor
  · intro r t' ht'
    obtain ⟨t, ht, hc, hf⟩ := hshape r t' ht'
    have := hs.fits r t ht
    constructor
    · rw [hc]
      exact this.context
    · rw [hf]
      exact this.frame
    · rw [hc, hf]
      exact this.apart
  · intro r1 r2 t1 t2 hne ht1 ht2 i
    obtain ⟨t, ht, hc, hf⟩ := hshape r1 t1 ht1
    obtain ⟨u, hu, hc', hf'⟩ := hshape r2 t2 ht2
    rw [Task.owns_congr hc hf, Task.owns_congr hc' hf']
    exact hs.apart r1 r2 t u hne ht hu i
  · exact hrests
  · exact hruns

/-- A step of the process that runs. -/
theorem Hart.Sound.stays (hs : h.Sound code wrapper) (hp : h.current = some p) (ht : h.tasks p = some t)
    (hm : h.Spares (some p) c.mem) (hr : Task.Runs code wrapper c { t with stage := s }) :
    Hart.Sound code wrapper { h.withStage p s with cpu := c } := by
  refine hs.of_shape ?_ ?_ ?_
  · intro r t' ht'
    exact Hart.setStage_some ht'
  · intro r u hu hcur
    have hne : p ≠ r := fun he => hcur (he ▸ hp)
    have hu' : h.tasks r = some u := by
      rw [← Hart.setStage_of_ne (s := s) (h := h) hne.symm]
      exact hu
    exact hs.spared hm hu' hcur (by simpa using hne)
  · intro r u hu hcur
    obtain rfl : p = r := Option.some.inj (hp.symm.trans hcur)
    have hu' : h.setStage p s p = some u := hu
    rw [Hart.setStage_self ht] at hu'
    cases hu'
    exact hr

/-- A process goes on from its context. -/
theorem Task.Rests.resumed (hr : u.Rests code wrapper c.mem) (hsv : Saved c.mem u.context c)
    (hpc : c.pc = c.get .ra) (hres : u.stage.resumed c = some s) : Task.Runs code wrapper c { u with stage := s } := by
  unfold Task.Rests at hr
  split at hr
  case h_1 x hx =>
    obtain ⟨hc, hf, hfresh⟩ := hr
    rw [hx] at hres
    cases hres
    rw [← hc] at hsv
    have hregs := hsv.regs
    have hcsrs := hsv.csrs
    refine ⟨?_, hf, ?_⟩
    · rw [hpc, ← hregs (.ra, 8) (by decide), hfresh.ra]
    · constructor
      · rw [← hregs (.sp, 0) (by decide), hfresh.sp]
      · rw [← hregs (.s2, 32) (by decide), hfresh.s2]
      · rw [← hcsrs (.sscratch, 112) (by decide), hfresh.sscratch]
      · rw [← hcsrs (.sepc, 120) (by decide), hfresh.sepc]
      · rw [← hcsrs (.satp, 128) (by decide), hfresh.satp]
  case h_2 a ha =>
    obtain ⟨hl, htop, d, hd, hsd, hst⟩ := hr
    rw [ha] at hres
    cases hres
    have hal : Alike c d := hsd.alike hsv
    have hra : c.get .ra = d.get .ra := hal.regs (.ra, 8) (by decide)
    exact ⟨hl.resumed hd hal hst (hpc.trans hra), htop, fun _ _ _ => rfl⟩
  case h_3 hg =>
    rw [hg] at hres
    cases hres
  case h_4 => exact hr.elim

/-- A switch to a process, once the others rest. -/
theorem Hart.Sound.goes {h₁ : Hart} (hs : h.Sound code wrapper)
    (hshape : ∀ r t', h₁.tasks r = some t' → ∃ t, h.tasks r = some t ∧ t'.context = t.context ∧ t'.frame = t.frame)
    (hrests : ∀ r t, h₁.tasks r = some t → t.Rests code wrapper c.mem) (hu : h₁.tasks q = some u)
    (hsv : Saved c.mem u.context c) (hpc : c.pc = c.get .ra) (hres : u.stage.resumed c = some s) :
    (h₁.switched c q s).Sound code wrapper := by
  refine hs.of_shape ?_ ?_ ?_
  · intro r t' ht'
    obtain ⟨t₁, ht₁, hc₁, hf₁⟩ := Hart.setStage_some ht'
    obtain ⟨t, ht, hc, hf⟩ := hshape r t₁ ht₁
    exact ⟨t, ht, hc₁.trans hc, hf₁.trans hf⟩
  · intro r v hv hcur
    have hne : r ≠ q := fun he => hcur (he ▸ rfl)
    have hv' : h₁.setStage q s r = some v := hv
    rw [Hart.setStage_of_ne hne] at hv'
    exact hrests r v hv'
  · intro r v hv hcur
    obtain rfl : q = r := Option.some.inj hcur
    have hv' : h₁.setStage q s q = some v := hv
    rw [Hart.setStage_self hu] at hv'
    cases hv'
    exact (hrests q u hu).resumed hsv hpc hres

/-- What the process that runs leaves when it is switched away. -/
theorem Hart.Sound.leaves (hs : h.Sound code wrapper) (hp : h.current = some p) (ht : h.tasks p = some t)
    (hm : h.Spares (some p) m) (hr : Task.Rests code wrapper m { t with stage := s }) :
    ∀ r v, (h.withStage p s).tasks r = some v → v.Rests code wrapper m := by
  intro r v hv
  have hv' : h.setStage p s r = some v := hv
  by_cases hne : r = p
  · subst hne
    rw [Hart.setStage_self ht] at hv'
    cases hv'
    exact hr
  · rw [Hart.setStage_of_ne hne] at hv'
    exact hs.spared hm hv' (fun hc => hne (Option.some.inj (hc.symm.trans hp))) fun hc => hne (Option.some.inj hc).symm

/-- `context_switch` from `p` writes nothing of another process. -/
theorem Hart.Sound.spares_switch (hs : h.Sound code wrapper) (ht : h.tasks p = some t) (hm : h.Spares (some p) m)
    (hc : ∀ i, i < t.context ∨ t.context + contextSize ≤ i → m' i = m i) : h.Spares (some p) m' := by
  intro r v hv hne i hi
  have hpr : p ≠ r := fun he => hne (congrArg some he)
  have hout : i < t.context ∨ t.context + contextSize ≤ i := by
    by_contra hin
    exact hs.apart p r t v hpr ht hv i ⟨Task.owns_context (by omega) (by omega), hi⟩
  rw [hc i hout]
  exact hm r v hv hne i hi

theorem Hart.Sound.switch (hs : h.Sound code wrapper) (hp : h.current = some p) (ht : h.tasks p = some t)
    (hst : t.stage = .kernel a) (hd : code a = .switches d) (hm : h.Spares (some p) d.mem)
    (ha0 : (d.get .a0).toNat = t.context) (hpq : p ≠ q) (hu : h.tasks q = some u) (ha1 : (d.get .a1).toNat = u.context)
    (hres : u.stage.resumed (exec contextSwitch 0 d) = some s) :
    ((h.withStage p (.away a)).switched (exec contextSwitch 0 d) q s).Sound code wrapper := by
  have hfit := hs.fits p t ht
  obtain ⟨hsaved, hload, hmem, hpc⟩ := contextSwitch_spec (c := d) (by rw [ha0]; exact hfit.context)
    (by rw [ha1]; exact (hs.fits q u hu).context)
  rw [ha0] at hsaved hmem
  rw [ha1] at hload
  have hrun := hs.runs p t ht hp
  unfold Task.Runs at hrun
  rw [hst] at hrun
  obtain ⟨hl, htop, -⟩ := hrun
  refine hs.goes (fun r t' ht' => Hart.setStage_some ht') (hs.leaves hp ht (hs.spares_switch ht hm hmem) ?_) ?_ hload hpc hres
  · -- its own frame is not in its context
    refine ⟨hl, htop, d, hd, hsaved, fun i h1 h2 => hmem i ?_⟩
    by_contra hin
    exact hfit.apart i ⟨by omega, by omega⟩
  · show h.setStage p (.away a) q = some u
    rw [Hart.setStage_of_ne hpq.symm, hu]

theorem Hart.Sound.swap (hs : h.Sound code wrapper) (hp : h.current = some p) (ht : h.tasks p = some t)
    (hm : h.Spares (some p) d.mem) (hpq : p ≠ q) (hu : h.tasks q = some u) (ha0 : (d.get .a0).toNat = u.context)
    (hres : u.stage.resumed (exec directContextSwap 0 d) = some s) :
    ((h.withStage p .gone).switched (exec directContextSwap 0 d) q s).Sound code wrapper := by
  obtain ⟨hload, hmem, hpc⟩ := directContextSwap_spec (c := d) (by rw [ha0]; exact (hs.fits q u hu).context)
  rw [ha0] at hload
  rw [← hmem] at hm hload
  refine hs.goes (fun r t' ht' => Hart.setStage_some ht') (hs.leaves hp ht hm trivial) ?_ hload hpc hres
  show h.setStage p .gone q = some u
  rw [Hart.setStage_of_ne hpq.symm, hu]

theorem Hart.Sound.boot (hs : h.Sound code wrapper) (hcur : h.current = none) (hm : h.Spares none d.mem)
    (hfit : (d.get .a0).toNat + contextSize ≤ 2 ^ 64)
    (hmain : ∀ p t, h.tasks p = some t → ∀ i, ¬(t.Owns i ∧ (d.get .a0).toNat ≤ i ∧ i < (d.get .a0).toNat + contextSize))
    (hu : h.tasks q = some u) (ha1 : (d.get .a1).toNat = u.context)
    (hres : u.stage.resumed (exec contextSwitch 0 d) = some s) :
    (h.switched (exec contextSwitch 0 d) q s).Sound code wrapper := by
  obtain ⟨-, hload, hmem, hpc⟩ := contextSwitch_spec (c := d) hfit (by rw [ha1]; exact (hs.fits q u hu).context)
  rw [ha1] at hload
  refine hs.goes (fun r t' ht' => ⟨t', ht', rfl, rfl⟩) (fun r v hv => ?_) hu hload hpc hres
  refine (hs.spared hm hv (by simp [hcur]) (by simp)).congr fun i hi => hmem i ?_
  by_contra hin
  exact hmain r v hv i ⟨hi, by omega, by omega⟩

theorem Hart.Sound.start {x : StartArgs} (hs : h.Sound code wrapper) (hin : h.InKernel) (hnew : h.tasks x.pid = none)
    (hroom : h.Room ⟨x.context, x.frame, .fresh x⟩) : (h.started wrapper x).Sound code wrapper := by
  obtain ⟨hfc, hff, hown, happ⟩ := hroom
  have hmem : ∀ q u, h.tasks q = some u → ∀ i, u.Owns i → (h.started wrapper x).cpu.mem i = h.cpu.mem i := by
    intro q u hu i hi
    apply startContext_mem
    by_contra hc
    exact happ q u hu i ⟨Or.inl ⟨by show x.context ≤ i; omega, by show i < x.context + contextSize; omega⟩, hi⟩
  have hold : ∀ q, q ≠ x.pid → (h.started wrapper x).tasks q = h.tasks q := fun q hq => Function.update_of_ne hq _ _
  have hself : (h.started wrapper x).tasks x.pid = some ⟨x.context, x.frame, .fresh x⟩ := Function.update_self _ _ _
  constructor
  · intro p t ht
    by_cases hp : p = x.pid
    · subst hp
      cases hself.symm.trans ht
      exact ⟨hfc, hff, hown⟩
    · rw [hold p hp] at ht
      exact hs.fits p t ht
  · intro p q t u hne ht hu i
    by_cases hp : p = x.pid
    · subst hp
      cases hself.symm.trans ht
      rw [hold q hne.symm] at hu
      exact happ q u hu i
    · rw [hold p hp] at ht
      by_cases hq : q = x.pid
      · subst hq
        cases hself.symm.trans hu
        exact fun hc => happ p t ht i hc.symm
      · rw [hold q hq] at hu
        exact hs.apart p q t u hne ht hu i
  · intro p t ht hcur
    by_cases hp : p = x.pid
    · subst hp
      cases hself.symm.trans ht
      exact ⟨rfl, rfl, startContext_fresh⟩
    · rw [hold p hp] at ht
      exact (hs.rests p t ht hcur).congr (hmem p t ht)
  · intro p t ht hcur
    have hcur' : h.current = some p := hcur
    obtain ⟨v, a, hv, hva⟩ := hin p hcur'
    have hp : p ≠ x.pid := by
      rintro rfl
      cases hnew.symm.trans hv
    rw [hold p hp] at ht
    cases hv.symm.trans ht
    have hrun := hs.runs p t ht hcur'
    unfold Task.Runs at hrun ⊢
    rw [hva] at hrun ⊢
    obtain ⟨hl, htop, hst⟩ := hrun
    refine ⟨hl, htop, fun i h1 h2 => ?_⟩
    rw [hmem p t hv i (Task.owns_stack htop h1 h2)]
    exact hst i h1 h2

theorem Hart.Sound.free (hs : h.Sound code wrapper) :
    Hart.Sound code wrapper { h with tasks := Function.update h.tasks p none } := by
  have hsub : ∀ r t, Function.update h.tasks p none r = some t → h.tasks r = some t := by
    intro r t ht
    by_cases hr : r = p
    · subst hr
      rw [Function.update_self] at ht
      cases ht
    · rwa [Function.update_of_ne hr] at ht
  exact hs.of_shape (fun r t ht => ⟨t, hsub r t ht, rfl, rfl⟩) (fun r t ht => hs.rests r t (hsub r t ht))
    fun r t ht => hs.runs r t (hsub r t ht)

/-- A process with the stage it has. -/
theorem Hart.withStage_stage (ht : h.tasks p = some t) : h.withStage p t.stage = h := by
  have : h.setStage p t.stage = h.tasks := by
    rw [Hart.setStage, ht, Option.map_some, ← ht, Function.update_eq_self]
  rw [Hart.withStage, this]

/-- The frame of a process is nobody else's. -/
theorem Hart.Sound.spares_frame (hs : h.Sound code wrapper) (ht : h.tasks p = some t)
    (hm : ∀ i, i < t.frame ∨ t.frame + 0x1000 ≤ i → m i = h.cpu.mem i) : h.Spares (some p) m := by
  intro r v hv hne i hi
  have hpr : p ≠ r := fun he => hne (congrArg some he)
  apply hm
  by_contra hin
  exact hs.apart p r t v hpr ht hv i ⟨Or.inr ⟨by omega, by omega⟩, hi⟩

theorem Hart.Sound.sscratch (hs : h.Sound code wrapper) (hp : h.current = some p) (ht : h.tasks p = some t)
    (hst : t.stage = .user) : (h.cpu.csr .sscratch).toNat = t.frame + 0x1000 := by
  have hrun := hs.runs p t ht hp
  unfold Task.Runs at hrun
  rw [hst] at hrun
  exact hrun

theorem Hart.Sound.user (hs : h.Sound code wrapper) (hp : h.current = some p) (ht : h.tasks p = some t) (hst : t.stage = .user)
    (hcsr : c.csr = h.cpu.csr) (hm : h.Spares none c.mem) : Hart.Sound code wrapper { h with cpu := c } := by
  have hsame : h.withStage p .user = h := hst ▸ Hart.withStage_stage ht
  have := hs.stays (c := c) (s := .user) hp ht (fun r v hv _ => hm r v hv (by simp)) (by
    show (c.csr .sscratch).toNat = t.frame + 0x1000
    rw [hcsr, hs.sscratch hp ht hst])
  rwa [hsame] at this

theorem Hart.Sound.trap (hs : h.Sound code wrapper) (hp : h.current = some p) (ht : h.tasks p = some t) (hst : t.stage = .user)
    (hmem : c.mem = h.cpu.mem) (hscratch : c.csr .sscratch = h.cpu.csr .sscratch) :
    Hart.Sound code wrapper
      { h.withStage p (.kernel ⟨c, exec strapEntry 0 c, []⟩) with cpu := exec strapEntry 0 c } := by
  have hsize : trapFrameSize = 296 := rfl
  have htop : (c.csr .sscratch).toNat = t.frame + 0x1000 := by rw [hscratch, hs.sscratch hp ht hst]
  have he : Entered c (exec strapEntry 0 c) := strapEntry_spec (by omega)
  have hsp := he.sp
  refine hs.stays hp ht (hs.spares_frame ht fun i hi => ?_) ⟨.entered c, htop, fun _ _ _ => rfl⟩
  rw [he.mem i (by omega), hmem]

theorem Hart.Sound.begin (hs : h.Sound code wrapper) {x : StartArgs} (hp : h.current = some p) (ht : h.tasks p = some t)
    (hst : t.stage = .starting x) :
    Hart.Sound code wrapper { h.withStage p .user with cpu := exec processCallWrapperUser 0 h.cpu } := by
  have hrun := hs.runs p t ht hp
  unfold Task.Runs at hrun
  rw [hst] at hrun
  obtain ⟨-, hf, hl⟩ := hrun
  have hfit := (hs.fits p t ht).frame
  refine hs.stays hp ht (fun r v _ _ i _ => ?_) ?_
  · show (h.cpu.set .a0 (h.cpu.get .s2)).mem i = h.cpu.mem i
    rw [Cpu.set_mem]
  · show ((h.cpu.set .a0 (h.cpu.get .s2)).csr .sscratch).toNat = t.frame + 0x1000
    rw [Cpu.set_csr, hl.sscratch, BitVec.toNat_ofNat, hf, Nat.mod_eq_of_lt hfit]

/-- The stack pointer the C code of a trap is called with, and returns with. -/
theorem Activation.Linked.sp_returns (hc : Convention code) (hl : a.Linked code) (hd : code a = .returns d)
    (htop : trapFrameSize ≤ a.top) : (d.get .sp).toNat = a.top - trapFrameSize := by
  have he : Entered a.trap (exec strapEntry 0 a.trap) := strapEntry_spec htop
  rw [hc.callee a d hl hd .sp (by decide), he.sp]
  rfl

theorem Hart.Sound.ret (hc : Convention code) (hs : h.Sound code wrapper) (hp : h.current = some p) (ht : h.tasks p = some t)
    (hst : t.stage = .kernel a) (hd : code a = .returns d) (hm : h.Spares (some p) d.mem) :
    Hart.Sound code wrapper { h.withStage p .user with cpu := exec strapExit 0 d } := by
  have hsize : trapFrameSize = 296 := rfl
  have hrun := hs.runs p t ht hp
  unfold Task.Runs at hrun
  rw [hst] at hrun
  obtain ⟨hl, htop, -⟩ := hrun
  have hfit := (hs.fits p t ht).frame
  have hsp := hl.sp_returns hc hd (by omega)
  have hex : Exited d (exec strapExit 0 d) := strapExit_spec (by omega)
  rw [← hex.mem] at hm
  refine hs.stays hp ht hm ?_
  show ((exec strapExit 0 d).csr .sscratch).toNat = t.frame + 0x1000
  rw [hex.sscratch, BitVec.toNat_add, hsp, BitVec.toNat_ofNat, hsize]
  omega

/-- Every step. -/
theorem Hart.Sound.step (hc : Convention code) {e : HartEvent} (hs : h.Sound code wrapper) (hst : HartStep code wrapper h e h') :
    h'.Sound code wrapper := by
  cases hst with
  | user hp ht hst hcsr hm => exact hs.user hp ht hst hcsr hm
  | trap hp ht hst _ hmem _ _ hscratch _ => exact hs.trap hp ht hst hmem hscratch
  | begin hp ht hst => exact hs.begin hp ht hst
  | ret hp ht hst hd hm => exact hs.ret hc hp ht hst hd hm
  | start hin hnew hroom => exact hs.start hin hnew hroom
  | free => exact hs.free
  | switch hp ht hst hd hm ha0 hpq hu ha1 hres => exact hs.switch hp ht hst hd hm ha0 hpq hu ha1 hres
  | swap hp ht _ _ hm hpq hu ha0 hres => exact hs.swap hp ht hm hpq hu ha0 hres
  | boot hcur hm hfit hmain hu ha1 hres => exact hs.boot hcur hm hfit hmain hu ha1 hres

theorem HartInit.sound (hi : HartInit h) : h.Sound code wrapper := by
  constructor
  · intro p t ht
    cases (hi.2 p).symm.trans ht
  · intro p q t u _ ht
    cases (hi.2 p).symm.trans ht
  · intro p t ht
    cases (hi.2 p).symm.trans ht
  · intro p t ht
    cases (hi.2 p).symm.trans ht

end sound

end Xinul
