import Xinul.Kernel.Context

/-!
# What a switch and a trap do to the registers

`context_switch` is four rows of stores and loads; `strap_entry` is a row of stores
followed by code that only touches scratch registers and the rest of its frame.
-/

namespace Xinul

open Bytes Rv

/-! ## `context_t` -/

variable {m m' : Memory} {a : Nat} {c c' d : Cpu}

theorem contextRegs_lt : ∀ p ∈ contextRegs, p.2 + 8 ≤ contextSize := by decide

theorem contextCsrs_lt : ∀ p ∈ contextCsrs, p.2 + 8 ≤ contextSize := by decide

/-- A context is in its own bytes. -/
theorem Saved.congr (h : Saved m a c) (hm : ∀ i, a ≤ i → i < a + contextSize → m' i = m i) : Saved m' a c := by
  constructor
  · intro p hp
    have := contextRegs_lt p hp
    rw [word_congr fun i h1 h2 => hm i (by omega) (by omega)]
    exact h.regs p hp
  · intro p hp
    have := contextCsrs_lt p hp
    rw [word_congr fun i h1 h2 => hm i (by omega) (by omega)]
    exact h.csrs p hp

theorem Saved.alike (h : Saved m a c) (h' : Saved m a c') : Alike c' c := by
  constructor
  · intro p hp
    rw [← h.regs p hp, h'.regs p hp]
  · intro p hp
    rw [← h.csrs p hp, h'.csrs p hp]

/-! ## `context_switch` and `direct_context_swap` -/

theorem contextSwitch_eq : contextSwitch =
    (saves .a0 contextRegs ++ (saveCsrs .t0 .a0 contextCsrs ++ (loads .a1 contextRegs ++ loadCsrs .t0 .a1 contextCsrs)))
      ++ [.jr .ra, .jr .ra] := rfl

theorem directContextSwap_eq : directContextSwap = (loads .a0 contextRegs ++ loadCsrs .t0 .a0 contextCsrs) ++ [.jr .ra] := rfl

section load

variable {base : Reg}

/-- The rows of loads, from a base register they do not load. -/
theorem load_saved (hb : base ∉ contextRegs.map Prod.fst) (hbt : base ≠ .t0)
    (hfit : (c.get base).toNat + contextSize ≤ 2 ^ 64) :
    Saved c.mem (c.get base).toNat (runAll c (loads base contextRegs ++ loadCsrs .t0 base contextCsrs)) := by
  have hregs : ∀ q ∈ contextRegs, (c.get base).toNat + q.2 < 2 ^ 64 := by
    intro q hq
    have := contextRegs_lt q hq
    omega
  have hcsrs : ∀ q ∈ contextCsrs, (c.get base).toNat + q.2 < 2 ^ 64 := by
    intro q hq
    have := contextCsrs_lt q hq
    omega
  have hbase : (runAll c (loads base contextRegs)).get base = c.get base := by
    apply runAll_get
    rw [loads, List.all_map, List.all_eq_true]
    intro q hq
    have : q.1 ≠ base := fun he => hb (he ▸ List.mem_map_of_mem hq)
    simp [Instr.dest, this]
  have hmem : (runAll c (loads base contextRegs)).mem = c.mem := runAll_mem rfl
  constructor
  · intro p hp
    rw [runAll_append, runAll_get]
    · exact (loads_get (by decide) hb (by decide) hregs hp).symm
    · rw [loadCsrs, List.all_flatMap, List.all_eq_true]
      intro q _
      have : ∀ p ∈ contextRegs, Reg.t0 ≠ p.1 := by decide
      simp [Instr.dest, this p hp]
  · intro p hp
    rw [runAll_append, loadCsrs_csr hbt.symm (by decide) (by decide) (by rwa [hbase]) hp, hbase, hmem]

end load

/-- What `context_switch` does: the context at `a0` holds the registers, the registers
are those the context at `a1` holds, and it goes on at the loaded `ra`. -/
theorem contextSwitch_spec (hold : (c.get .a0).toNat + contextSize ≤ 2 ^ 64) (hnew : (c.get .a1).toNat + contextSize ≤ 2 ^ 64) :
    Saved (exec contextSwitch 0 c).mem (c.get .a0).toNat c ∧
    Saved (exec contextSwitch 0 c).mem (c.get .a1).toNat (exec contextSwitch 0 c) ∧
    (∀ i, i < (c.get .a0).toNat ∨ (c.get .a0).toNat + contextSize ≤ i → (exec contextSwitch 0 c).mem i = c.mem i) ∧
    (exec contextSwitch 0 c).pc = (exec contextSwitch 0 c).get .ra := by
  have hregs : ∀ q ∈ contextRegs, (c.get .a0).toNat + q.2 < 2 ^ 64 := by
    intro q hq
    have := contextRegs_lt q hq
    omega
  have hcsrs : ∀ q ∈ contextCsrs, (c.get .a0).toNat + q.2 < 2 ^ 64 := by
    intro q hq
    have := contextCsrs_lt q hq
    omega
  obtain ⟨c1, hc1⟩ : ∃ c1, c1 = runAll c (saves .a0 contextRegs) := ⟨_, rfl⟩
  obtain ⟨c2, hc2⟩ : ∃ c2, c2 = runAll c1 (saveCsrs .t0 .a0 contextCsrs) := ⟨_, rfl⟩
  obtain ⟨c3, hc3⟩ : ∃ c3, c3 = runAll c2 (loads .a1 contextRegs ++ loadCsrs .t0 .a1 contextCsrs) := ⟨_, rfl⟩
  have hrun : exec contextSwitch 0 c = { c3 with pc := c3.get .ra } := by
    rw [contextSwitch_eq, exec_append _ (by decide), runAll_append, runAll_append, ← hc1, ← hc2, ← hc3]
    rfl
  have h01 : c1.get .a0 = c.get .a0 := by
    rw [hc1]
    exact runAll_get (by decide)
  have h11 : c2.get .a1 = c.get .a1 := by
    rw [hc2, runAll_get (by decide), hc1]
    exact runAll_get (by decide)
  have hmem : c3.mem = c2.mem := by
    rw [hc3]
    exact runAll_mem (by decide)
  rw [hrun]
  show Saved c3.mem _ c ∧ Saved c3.mem _ { c3 with pc := c3.get .ra } ∧ (∀ i, _ → c3.mem i = c.mem i) ∧ c3.get .ra = c3.get .ra
  rw [hmem]
  refine ⟨⟨?_, ?_⟩, ?_, ?_, rfl⟩
  · intro p hp
    have hlt := contextRegs_lt p hp
    have hrow : ∀ p ∈ contextRegs, ∀ q ∈ contextCsrs, p.2 + 8 ≤ q.2 := by decide
    have : word c2.mem ((c.get .a0).toNat + p.2) = word c1.mem ((c.get .a0).toNat + p.2) := by
      rw [hc2]
      apply word_congr
      intro i h1 h2
      apply saveCsrs_byte (by decide) (by rwa [h01])
      intro q hq
      have := hrow p hp q hq
      rw [h01]
      omega
    rw [this, hc1]
    exact saves_word (by decide) hregs hp
  · intro p hp
    have : c1.csr p.1 = c.csr p.1 := by
      rw [hc1, saves]
      apply runAll_csr
      simp [Instr.csrDest]
    rw [hc2, ← h01, saveCsrs_word (by decide) (by decide) (by decide) (by rwa [h01]) hp, this]
  · have : Saved c2.mem (c2.get .a1).toNat c3 := hc3 ▸ load_saved (by decide) (by decide) (by rwa [h11])
    rw [h11] at this
    exact ⟨this.regs, this.csrs⟩
  · intro i hi
    have hlater : c2.mem i = c1.mem i := by
      rw [hc2]
      apply saveCsrs_byte (by decide) (by rwa [h01])
      intro q hq
      have := contextCsrs_lt q hq
      rw [h01]
      omega
    rw [hlater, hc1]
    apply saves_byte hregs
    intro q hq
    have := contextRegs_lt q hq
    omega

/-- What `direct_context_swap` does. -/
theorem directContextSwap_spec (hnew : (c.get .a0).toNat + contextSize ≤ 2 ^ 64) :
    Saved c.mem (c.get .a0).toNat (exec directContextSwap 0 c) ∧
    (exec directContextSwap 0 c).mem = c.mem ∧
    (exec directContextSwap 0 c).pc = (exec directContextSwap 0 c).get .ra := by
  obtain ⟨c1, hc1⟩ : ∃ c1, c1 = runAll c (loads .a0 contextRegs ++ loadCsrs .t0 .a0 contextCsrs) := ⟨_, rfl⟩
  have hrun : exec directContextSwap 0 c = { c1 with pc := c1.get .ra } := by
    rw [directContextSwap_eq, exec_append _ (by decide), ← hc1]
    rfl
  have hs : Saved c.mem (c.get .a0).toNat c1 := hc1 ▸ load_saved (by decide) (by decide) hnew
  rw [hrun]
  refine ⟨⟨hs.regs, hs.csrs⟩, ?_, rfl⟩
  show c1.mem = c.mem
  rw [hc1]
  exact runAll_mem (by decide)

/-! ## `strap_entry` -/

/-- The parts of `strap_entry`: the stack of the process and room on it, the row of
stores, the arguments of `strap_handler`, and what depends on the cause. -/
def trapStack : List Instr := [.csrrw .sp .sscratch .sp, .addi .sp .sp (-37 * 8)]

def trapArguments : List Instr := [.csrr .a0 .scause, .csrr .a1 .sepc, .mv .a2 .sp]

def trapCause : List Instr :=
  .bltz .a0 (3 + saveFullTrapFrame.length) :: .andi .t0 .a0 0xf :: .li .t1 9 :: .beq .t0 .t1 saveFullTrapFrame.length ::
    saveFullTrapFrame

theorem strapEntry_eq : strapEntry = (trapStack ++ (saves .sp trapFrameRegs ++ trapArguments)) ++ trapCause := rfl

theorem strapExit_eq : strapExit = (loads .sp trapFrameRegs ++ [.addi .sp .sp (37 * 8), .csrrw .sp .sscratch .sp]) ++ [.sret] :=
  rfl

/-- The registers `strap_entry` leaves alone. -/
def trapKept : List Reg := [.gp, .tp, .s0, .s1, .s2, .s3, .s4, .s5, .s6, .s7, .s8, .s9, .s10, .s11]

/-- `c'` is where `strap_handler` is called when a trap is taken in `c`. -/
structure Entered (c c' : Cpu) : Prop where
  sp : (c'.get .sp).toNat = (c.csr .sscratch).toNat - trapFrameSize
  sscratch : c'.csr .sscratch = c.get .sp
  csrs : ∀ k, k ≠ .sscratch → c'.csr k = c.csr k
  kept : ∀ r ∈ trapKept, c'.get r = c.get r
  scause : c'.get .a0 = c.csr .scause
  sepc : c'.get .a1 = c.csr .sepc
  frame : c'.get .a2 = c'.get .sp
  slots : ∀ p ∈ trapFrameRegs, word c'.mem ((c'.get .sp).toNat + p.2) = c.get p.1
  mem : ∀ i, i < (c'.get .sp).toNat ∨ (c.csr .sscratch).toNat ≤ i → c'.mem i = c.mem i

theorem trapFrameRegs_lt : ∀ p ∈ trapFrameRegs, p.2 + 8 ≤ trapFrameSize := by decide

/-- What the code between the stores and the call of `strap_handler` keeps: on every
way through it the registers and the slots already in the frame stay. -/
structure Filled (c c' : Cpu) : Prop where
  regs : ∀ r, r ≠ .t0 → r ≠ .t1 → r ≠ .t2 → r ≠ .t3 → c'.get r = c.get r
  csrs : c'.csr = c.csr
  slots : ∀ p ∈ trapFrameRegs, word c'.mem ((c.get .sp).toNat + p.2) = word c.mem ((c.get .sp).toNat + p.2)
  mem : ∀ i, i < (c.get .sp).toNat ∨ (c.get .sp).toNat + trapFrameSize ≤ i → c'.mem i = c.mem i

theorem Filled.of_mem (hr : ∀ r, r ≠ .t0 → r ≠ .t1 → r ≠ .t2 → r ≠ .t3 → c'.get r = c.get r) (hk : c'.csr = c.csr)
    (hm : c'.mem = c.mem) : Filled c c' := by
  constructor
  · exact hr
  · exact hk
  · intro p _
    rw [hm]
  · intro i _
    rw [hm]

/-- The slots `save_full_trap_frame` fills. -/
def fullSlots : List Nat := saveFullTrapFrame.filterMap fun i => i.stores.map Prod.snd

theorem storesAt_saveFullTrapFrame : storesAt .sp (fun o => decide (o ∈ fullSlots)) saveFullTrapFrame = true := by decide

theorem saveFullTrapFrame_filled (hfit : (c.get .sp).toNat + trapFrameSize ≤ 2 ^ 64) :
    Filled c (runAll c saveFullTrapFrame) := by
  have hlt : ∀ o ∈ fullSlots, o + 8 ≤ trapFrameSize := by decide
  have hin : ∀ o, decide (o ∈ fullSlots) = true → (c.get .sp).toNat + o < 2 ^ 64 := by
    intro o ho
    have := hlt o (of_decide_eq_true ho)
    omega
  constructor
  · intro r h0 h1 h2 h3
    apply runAll_get
    simp only [saveFullTrapFrame, List.all_cons, List.all_nil, Instr.dest, ne_eq, reduceCtorEq, not_false_eq_true, decide_true,
      Option.some.injEq, h0.symm, h1.symm, h2.symm, h3.symm, Bool.and_self]
  · funext k
    apply runAll_csr
    simp [saveFullTrapFrame, Instr.csrDest]
  · intro p hp
    apply runAll_word storesAt_saveFullTrapFrame hin
    intro o ho
    have hne : ∀ p ∈ trapFrameRegs, ∀ o ∈ fullSlots, p.2 + 8 ≤ o ∨ o + 8 ≤ p.2 := by decide
    have := hne p hp o (of_decide_eq_true ho)
    omega
  · intro i hi
    apply runAll_byte storesAt_saveFullTrapFrame hin
    intro o ho
    have := hlt o (of_decide_eq_true ho)
    omega

/-- The three ways from the stores to the call of `strap_handler`: an interrupt, a
system call from supervisor mode, any other exception. -/
theorem trapCause_filled (hfit : (c.get .sp).toNat + trapFrameSize ≤ 2 ^ 64) : Filled c (exec trapCause 0 c) := by
  by_cases hirq : (c.get .a0).slt 0
  · have : exec trapCause 0 c = c := by
      rw [trapCause, exec, if_pos hirq]
      exact exec_skip (.andi .t0 .a0 0xf :: .li .t1 9 :: .beq .t0 .t1 saveFullTrapFrame.length :: saveFullTrapFrame) c
    rw [this]
    exact .of_mem (fun _ _ _ _ _ => rfl) rfl rfl
  · obtain ⟨d, hd⟩ : ∃ d, d = runAll c [.andi .t0 .a0 0xf, .li .t1 9] := ⟨_, rfl⟩
    have hregs : ∀ r, r ≠ .t0 → r ≠ .t1 → d.get r = c.get r := by
      intro r h0 h1
      rw [hd]
      apply runAll_get
      simp [Instr.dest, h0.symm, h1.symm]
    have hcsr : d.csr = c.csr := by
      funext k
      rw [hd]
      apply runAll_csr
      simp [Instr.csrDest]
    have hmem : d.mem = c.mem := by
      rw [hd]
      exact runAll_mem rfl
    have hrun : exec trapCause 0 c =
        exec saveFullTrapFrame (if d.get .t0 = d.get .t1 then saveFullTrapFrame.length else 0) d := by
      rw [trapCause, exec, if_neg hirq, hd]
      rfl
    rw [hrun]
    split
    · rw [exec_skip]
      exact .of_mem (fun r h0 h1 _ _ => hregs r h0 h1) hcsr hmem
    · rw [exec_straight (by decide)]
      have hsp : d.get .sp = c.get .sp := hregs .sp (by decide) (by decide)
      have h := saveFullTrapFrame_filled (c := d) (by rwa [hsp])
      constructor
      · intro r h0 h1 h2 h3
        rw [h.regs r h0 h1 h2 h3, hregs r h0 h1]
      · rw [h.csrs, hcsr]
      · intro p hp
        rw [← hsp, h.slots p hp, hmem]
      · intro i hi
        rw [h.mem i (by rwa [hsp]), hmem]

/-- The stack pointer `strap_entry` takes from `sscratch`, and the room it makes. -/
theorem trapStack_sp (htop : trapFrameSize ≤ (c.csr .sscratch).toNat) :
    ((runAll c trapStack).get .sp).toNat = (c.csr .sscratch).toNat - trapFrameSize := by
  show ((((c.setCsr .sscratch (c.get .sp)).set .sp (c.csr .sscratch)).set .sp
    (((c.setCsr .sscratch (c.get .sp)).set .sp (c.csr .sscratch)).get .sp + BitVec.ofInt 64 (-37 * 8))).get .sp).toNat = _
  rw [Cpu.get_set_self (by decide), Cpu.get_set_self (by decide)]
  have : trapFrameSize = 296 := rfl
  have hneg : (BitVec.ofInt 64 (-37 * 8)).toNat = 2 ^ 64 - 296 := by decide
  have hlt := (c.csr .sscratch).isLt
  rw [BitVec.toNat_add, hneg, this]
  omega

/-- `strap_entry` up to the call of `strap_handler`. -/
theorem strapEntry_spec (htop : trapFrameSize ≤ (c.csr .sscratch).toNat) : Entered c (exec strapEntry 0 c) := by
  obtain ⟨c1, hc1⟩ : ∃ c1, c1 = runAll c trapStack := ⟨_, rfl⟩
  obtain ⟨c2, hc2⟩ : ∃ c2, c2 = runAll c1 (saves .sp trapFrameRegs) := ⟨_, rfl⟩
  obtain ⟨c3, hc3⟩ : ∃ c3, c3 = runAll c2 trapArguments := ⟨_, rfl⟩
  have hrun : exec strapEntry 0 c = exec trapCause 0 c3 := by
    rw [strapEntry_eq, exec_append _ (by decide), runAll_append, runAll_append, ← hc1, ← hc2, ← hc3]
  have hlt := (c.csr .sscratch).isLt
  -- the stack
  have hsp1 : (c1.get .sp).toNat = (c.csr .sscratch).toNat - trapFrameSize := hc1 ▸ trapStack_sp htop
  have hreg1 : ∀ r, r ≠ .sp → c1.get r = c.get r := by
    intro r hr
    rw [hc1]
    apply runAll_get
    simp [trapStack, Instr.dest, hr.symm]
  have hscratch1 : c1.csr .sscratch = c.get .sp := by
    rw [hc1]
    rfl
  have hcsr1 : ∀ k, k ≠ .sscratch → c1.csr k = c.csr k := by
    intro k hk
    rw [hc1]
    apply runAll_csr
    simp [trapStack, Instr.csrDest, hk.symm]
  have hmem1 : c1.mem = c.mem := by
    rw [hc1]
    exact runAll_mem rfl
  -- the stores
  have hfit : ∀ q ∈ trapFrameRegs, (c1.get .sp).toNat + q.2 < 2 ^ 64 := by
    intro q hq
    have := trapFrameRegs_lt q hq
    omega
  have hreg2 : ∀ r, c2.get r = c1.get r := by
    intro r
    rw [hc2, saves]
    apply runAll_get
    simp [Instr.dest]
  have hcsr2 : c2.csr = c1.csr := by
    funext k
    rw [hc2, saves]
    apply runAll_csr
    simp [Instr.csrDest]
  have hslots2 : ∀ p ∈ trapFrameRegs, word c2.mem ((c1.get .sp).toNat + p.2) = c1.get p.1 := by
    intro p hp
    rw [hc2]
    exact saves_word (by decide) hfit hp
  -- the arguments
  have hreg3 : ∀ r, r ≠ .a0 → r ≠ .a1 → r ≠ .a2 → c3.get r = c1.get r := by
    intro r h0 h1 h2
    rw [← hreg2, hc3]
    apply runAll_get
    simp [trapArguments, Instr.dest, h0.symm, h1.symm, h2.symm]
  have hcsr3 : c3.csr = c1.csr := by
    funext k
    rw [← hcsr2, hc3]
    apply runAll_csr
    simp [trapArguments, Instr.csrDest]
  have hmem3 : c3.mem = c2.mem := by
    rw [hc3]
    exact runAll_mem rfl
  have hsp3 : c3.get .sp = c1.get .sp := hreg3 .sp (by decide) (by decide) (by decide)
  have h := trapCause_filled (c := c3) (by rw [hsp3]; omega)
  have hsp : (exec trapCause 0 c3).get .sp = c1.get .sp := by
    rw [h.regs .sp (by decide) (by decide) (by decide) (by decide), hsp3]
  rw [hrun]
  constructor
  · rw [hsp, hsp1]
  · rw [h.csrs, hcsr3, hscratch1]
  · intro k hk
    rw [h.csrs, hcsr3, hcsr1 k hk]
  · intro r hr
    have hne : ∀ r ∈ trapKept, r ∉ [Reg.t0, .t1, .t2, .t3, .a0, .a1, .a2, .sp] := by decide
    have := hne r hr
    simp only [List.mem_cons, List.not_mem_nil, or_false, not_or] at this
    obtain ⟨h0, h1, h2, h3, h4, h5, h6, h7⟩ := this
    rw [h.regs r h0 h1 h2 h3, hreg3 r h4 h5 h6, hreg1 r h7]
  · rw [h.regs .a0 (by decide) (by decide) (by decide) (by decide), ← hcsr1 .scause (by decide), ← hcsr2, hc3]
    rfl
  · rw [h.regs .a1 (by decide) (by decide) (by decide) (by decide), ← hcsr1 .sepc (by decide), ← hcsr2, hc3]
    rfl
  · rw [h.regs .a2 (by decide) (by decide) (by decide) (by decide), hsp, ← hreg2, hc3]
    rfl
  · intro p hp
    have hne : ∀ p ∈ trapFrameRegs, p.1 ≠ .sp := by decide
    rw [hsp, ← hsp3, h.slots p hp, hmem3, hsp3, hslots2 p hp, hreg1 p.1 (hne p hp)]
  · intro i hi
    rw [hsp] at hi
    rw [h.mem i (by rw [hsp3]; omega), hmem3, hc2]
    rw [saves_byte hfit, hmem1]
    intro q hq
    have := trapFrameRegs_lt q hq
    omega

/-! ## The way back -/

/-- `strap_entry` after the call of `strap_handler`. -/
structure Exited (c c' : Cpu) : Prop where
  slots : ∀ p ∈ trapFrameRegs, c'.get p.1 = word c.mem ((c.get .sp).toNat + p.2)
  sp : c'.get .sp = c.csr .sscratch
  sscratch : c'.csr .sscratch = c.get .sp + BitVec.ofNat 64 trapFrameSize
  csrs : ∀ k, k ≠ .sscratch → c'.csr k = c.csr k
  kept : ∀ r ∈ trapKept, c'.get r = c.get r
  mem : c'.mem = c.mem
  pc : c'.pc = c.csr .sepc

theorem strapExit_spec (hfit : (c.get .sp).toNat + trapFrameSize ≤ 2 ^ 64) : Exited c (exec strapExit 0 c) := by
  obtain ⟨c1, hc1⟩ : ∃ c1, c1 = runAll c (loads .sp trapFrameRegs) := ⟨_, rfl⟩
  obtain ⟨c2, hc2⟩ : ∃ c2, c2 = runAll c1 [.addi .sp .sp (37 * 8), .csrrw .sp .sscratch .sp] := ⟨_, rfl⟩
  have hrun : exec strapExit 0 c = { c2 with pc := c2.csr .sepc } := by
    rw [strapExit_eq, exec_append _ (by decide), runAll_append, ← hc1, ← hc2]
    rfl
  have hfit' : ∀ q ∈ trapFrameRegs, (c.get .sp).toNat + q.2 < 2 ^ 64 := by
    intro q hq
    have := trapFrameRegs_lt q hq
    omega
  have hslots : ∀ p ∈ trapFrameRegs, c1.get p.1 = word c.mem ((c.get .sp).toNat + p.2) := by
    intro p hp
    rw [hc1]
    exact loads_get (by decide) (by decide) (by decide) hfit' hp
  have hother : ∀ r, r ∉ trapFrameRegs.map Prod.fst → c1.get r = c.get r := by
    intro r hr
    rw [hc1, loads]
    apply runAll_get
    rw [List.all_map, List.all_eq_true]
    intro q hq
    have : q.1 ≠ r := fun he => hr (he ▸ List.mem_map_of_mem hq)
    simp [Instr.dest, this]
  have hcsr1 : c1.csr = c.csr := by
    funext k
    rw [hc1, loads]
    apply runAll_csr
    simp [Instr.csrDest]
  have hmem1 : c1.mem = c.mem := by
    rw [hc1]
    exact runAll_mem rfl
  have hsp1 : c1.get .sp = c.get .sp := hother .sp (by decide)
  have hreg2 : ∀ r, r ≠ .sp → c2.get r = c1.get r := by
    intro r hr
    rw [hc2]
    apply runAll_get
    simp [Instr.dest, hr.symm]
  have hcsr2 : ∀ k, k ≠ .sscratch → c2.csr k = c1.csr k := by
    intro k hk
    rw [hc2]
    apply runAll_csr
    simp [Instr.csrDest, hk.symm]
  rw [hrun]
  constructor
  · intro p hp
    have hne : ∀ p ∈ trapFrameRegs, p.1 ≠ .sp := by decide
    show c2.get p.1 = _
    rw [hreg2 p.1 (hne p hp), hslots p hp]
  · show c2.get .sp = _
    rw [← hcsr1, hc2]
    rfl
  · show c2.csr .sscratch = _
    rw [← hsp1, hc2]
    rfl
  · intro k hk
    show c2.csr k = _
    rw [hcsr2 k hk, hcsr1]
  · intro r hr
    have hne : ∀ r ∈ trapKept, r ≠ .sp ∧ r ∉ trapFrameRegs.map Prod.fst := by decide
    show c2.get r = _
    rw [hreg2 r (hne r hr).1, hother r (hne r hr).2]
  · show c2.mem = _
    rw [← hmem1, hc2]
    exact runAll_mem rfl
  · show c2.csr .sepc = _
    rw [hcsr2 .sepc (by decide), hcsr1]

end Xinul
