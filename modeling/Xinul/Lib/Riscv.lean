import Xinul.Lib.Bytes

/-!
# Straight pieces of RV64 code

The instructions that entry and switch code of a kernel is made of: moves, stores and
loads of double words, reads and writes of control registers, and branches forward
to a label. A piece of code without jumps is run by `runAll`; which registers and which
words of memory it leaves alone is read off its instructions, and a row of stores or of
loads is run in one step.
-/

namespace Rv

open Bytes

/-- A register or an address. -/
abbrev Word := BitVec 64

/-- The general registers, under their names in the calling convention. -/
inductive Reg where
  | zero | ra | sp | gp | tp | t0 | t1 | t2 | s0 | s1 | a0 | a1 | a2 | a3 | a4 | a5 | a6 | a7
  | s2 | s3 | s4 | s5 | s6 | s7 | s8 | s9 | s10 | s11 | t3 | t4 | t5 | t6
  deriving DecidableEq, Repr

/-- The control registers of supervisor mode. -/
inductive Csr where
  | sstatus | sscratch | sepc | scause | stval | satp
  deriving DecidableEq, Repr

/-- The processor and the memory. -/
structure Cpu where
  x : Reg → Word
  csr : Csr → Word
  mem : Memory
  pc : Word

/-- The value of a register; `zero` reads as zero. -/
def Cpu.get (c : Cpu) (r : Reg) : Word := if r = .zero then 0 else c.x r

/-- Writing a register; a write of `zero` has no effect. -/
def Cpu.set (c : Cpu) (r : Reg) (v : Word) : Cpu :=
  if r = .zero then c else { c with x := fun r' => if r' = r then v else c.x r' }

/-- Writing a control register. -/
def Cpu.setCsr (c : Cpu) (k : Csr) (v : Word) : Cpu := { c with csr := fun k' => if k' = k then v else c.csr k' }

/-- The word in memory at an address. -/
def word (m : Memory) (a : Nat) : Word := BitVec.ofNat 64 (load64 m a)

/-- The address `off(base)`. -/
def Cpu.addr (c : Cpu) (base : Reg) (off : Nat) : Nat := (c.get base + BitVec.ofNat 64 off).toNat

/-- The instructions. A branch names its label by the number of instructions before it. -/
inductive Instr where
  | sd (rs : Reg) (off : Nat) (base : Reg)
  | ld (rd : Reg) (off : Nat) (base : Reg)
  | addi (rd rs : Reg) (imm : Int)
  | andi (rd rs : Reg) (imm : Nat)
  | li (rd : Reg) (imm : Nat)
  | mv (rd rs : Reg)
  | csrr (rd : Reg) (k : Csr)
  | csrw (k : Csr) (rs : Reg)
  | csrrw (rd : Reg) (k : Csr) (rs : Reg)
  | bltz (rs : Reg) (label : Nat)
  | beq (rs rs' : Reg) (label : Nat)
  | jr (rs : Reg)
  | sret
  deriving DecidableEq, Repr

/-- The effect of an instruction that does not jump. -/
def Instr.run (c : Cpu) : Instr → Cpu
  | .sd rs off base => { c with mem := store64 c.mem (c.addr base off) (c.get rs).toNat }
  | .ld rd off base => c.set rd (word c.mem (c.addr base off))
  | .addi rd rs imm => c.set rd (c.get rs + BitVec.ofInt 64 imm)
  | .andi rd rs imm => c.set rd (c.get rs &&& BitVec.ofNat 64 imm)
  | .li rd imm => c.set rd (BitVec.ofNat 64 imm)
  | .mv rd rs => c.set rd (c.get rs)
  | .csrr rd k => c.set rd (c.csr k)
  | .csrw k rs => c.setCsr k (c.get rs)
  | .csrrw rd k rs => (c.setCsr k (c.get rs)).set rd (c.csr k)
  | _ => c

/-- Running code from its first instruction, or from the one after `skip` more, to its
end or to a jump out of it. -/
def exec : List Instr → Nat → Cpu → Cpu
  | [], _, c => c
  | _ :: is, skip + 1, c => exec is skip c
  | .bltz rs label :: is, 0, c => exec is (if (c.get rs).slt 0 then label else 0) c
  | .beq rs rs' label :: is, 0, c => exec is (if c.get rs = c.get rs' then label else 0) c
  | .jr rs :: _, 0, c => { c with pc := c.get rs }
  | .sret :: _, 0, c => { c with pc := c.csr .sepc }
  | i :: is, 0, c => exec is 0 (i.run c)

/-- The instruction does not jump. -/
def Instr.straight : Instr → Bool
  | .bltz .. | .beq .. | .jr .. | .sret => false
  | _ => true

/-- Running code that does not jump. -/
def runAll (c : Cpu) (code : List Instr) : Cpu := code.foldl Instr.run c

/-- The register an instruction writes. -/
def Instr.dest : Instr → Option Reg
  | .ld rd _ _ | .addi rd _ _ | .andi rd _ _ | .li rd _ | .mv rd _ | .csrr rd _ | .csrrw rd _ _ => some rd
  | _ => none

/-- The control register an instruction writes. -/
def Instr.csrDest : Instr → Option Csr
  | .csrw k _ | .csrrw _ k _ => some k
  | _ => none

/-- Where an instruction stores. -/
def Instr.stores : Instr → Option (Reg × Nat)
  | .sd _ off base => some (base, off)
  | _ => none

section cpu

variable {c : Cpu} {r r' : Reg} {k k' : Csr} {v : Word} {code : List Instr} {i : Instr} {base : Reg}

theorem Cpu.get_set_self (h : r ≠ .zero) : (c.set r v).get r = v := by
  simp [Cpu.set, Cpu.get, h]

theorem Cpu.get_set_of_ne (h : r' ≠ r) : (c.set r v).get r' = c.get r' := by
  unfold Cpu.set Cpu.get
  by_cases hr : r = .zero <;> simp [hr, h]

@[simp] theorem Cpu.set_csr : (c.set r v).csr = c.csr := by
  unfold Cpu.set
  split <;> rfl

@[simp] theorem Cpu.set_mem : (c.set r v).mem = c.mem := by
  unfold Cpu.set
  split <;> rfl

@[simp] theorem Cpu.set_pc : (c.set r v).pc = c.pc := by
  unfold Cpu.set
  split <;> rfl

@[simp] theorem Cpu.setCsr_get : (c.setCsr k v).get r = c.get r := rfl

@[simp] theorem Cpu.setCsr_mem : (c.setCsr k v).mem = c.mem := rfl

theorem Cpu.setCsr_self : (c.setCsr k v).csr k = v := if_pos rfl

theorem Cpu.setCsr_of_ne (h : k' ≠ k) : (c.setCsr k v).csr k' = c.csr k' := if_neg h

/-- An address that does not run over the end of the memory. -/
theorem Cpu.addr_eq {off : Nat} (h : (c.get base).toNat + off < 2 ^ 64) : c.addr base off = (c.get base).toNat + off := by
  rw [Cpu.addr, BitVec.toNat_add, BitVec.toNat_ofNat, Nat.mod_eq_of_lt (show off < 2 ^ 64 by omega), Nat.mod_eq_of_lt h]

theorem Cpu.addr_congr {c' : Cpu} {off : Nat} (h : c'.get base = c.get base) : c'.addr base off = c.addr base off := by
  rw [Cpu.addr, h, Cpu.addr]

/-! ## What an instruction leaves alone -/

theorem Instr.run_get (h : i.dest ≠ some r) : (i.run c).get r = c.get r := by
  have other : ∀ rd, i.dest = some rd → r ≠ rd := by
    rintro rd hd rfl
    exact h hd
  cases i with
  | sd => rfl
  | csrw => rfl
  | csrrw rd k rs => exact (Cpu.get_set_of_ne (other rd rfl)).trans rfl
  | ld rd | addi rd | andi rd | li rd | mv rd | csrr rd => exact Cpu.get_set_of_ne (other rd rfl)
  | _ => rfl

theorem Instr.run_csr (h : i.csrDest ≠ some k) : (i.run c).csr k = c.csr k := by
  have other : ∀ k', i.csrDest = some k' → k ≠ k' := by
    rintro k' hd rfl
    exact h hd
  cases i with
  | csrw k' => exact Cpu.setCsr_of_ne (other k' rfl)
  | csrrw rd k' rs => rw [Instr.run, Cpu.set_csr, Cpu.setCsr_of_ne (other k' rfl)]
  | ld | addi | andi | li | mv | csrr => rw [Instr.run, Cpu.set_csr]
  | _ => rfl

theorem Instr.run_mem (h : i.stores = none) : (i.run c).mem = c.mem := by
  cases i with
  | sd => cases h
  | ld | addi | andi | li | mv | csrr => rw [Instr.run, Cpu.set_mem]
  | csrrw => rw [Instr.run, Cpu.set_mem, Cpu.setCsr_mem]
  | _ => rfl

/-! ## What code leaves alone -/

@[simp] theorem runAll_nil : runAll c [] = c := rfl

theorem runAll_cons : runAll c (i :: code) = runAll (i.run c) code := rfl

theorem runAll_append {code' : List Instr} : runAll c (code ++ code') = runAll (runAll c code) code' := by
  rw [runAll, List.foldl_append, runAll, runAll]

/-- Code that does not jump, and what comes after it. -/
theorem exec_append (rest : List Instr) (h : code.all Instr.straight = true) :
    exec (code ++ rest) 0 c = exec rest 0 (runAll c code) := by
  induction code generalizing c with
  | nil => rfl
  | cons i code ih =>
    rw [List.all_cons, Bool.and_eq_true] at h
    rw [runAll_cons, ← ih h.2, List.cons_append]
    cases i with
    | bltz | beq | jr | sret => cases h.1
    | _ => rfl

theorem exec_skip (code : List Instr) (c : Cpu) : exec code code.length c = c := by
  induction code with
  | nil => rfl
  | cons i code ih => exact ih

theorem exec_straight (h : code.all Instr.straight = true) : exec code 0 c = runAll c code := by
  have := exec_append (c := c) [] h
  rwa [List.append_nil] at this

/-- A register that no instruction of the code writes. -/
theorem runAll_get (h : code.all (fun i => i.dest ≠ some r) = true) : (runAll c code).get r = c.get r := by
  induction code generalizing c with
  | nil => rfl
  | cons i code ih =>
    rw [List.all_cons, Bool.and_eq_true, decide_eq_true_eq] at h
    rw [runAll_cons, ih h.2, Instr.run_get h.1]

/-- A control register that no instruction of the code writes. -/
theorem runAll_csr (h : code.all (fun i => i.csrDest ≠ some k) = true) : (runAll c code).csr k = c.csr k := by
  induction code generalizing c with
  | nil => rfl
  | cons i code ih =>
    rw [List.all_cons, Bool.and_eq_true, decide_eq_true_eq] at h
    rw [runAll_cons, ih h.2, Instr.run_csr h.1]

/-- Code that does not store. -/
theorem runAll_mem (h : code.all (fun i => i.stores = none) = true) : (runAll c code).mem = c.mem := by
  induction code generalizing c with
  | nil => rfl
  | cons i code ih =>
    rw [List.all_cons, Bool.and_eq_true, decide_eq_true_eq] at h
    rw [runAll_cons, ih h.2, Instr.run_mem h.1]

/-- The code stores at `off(base)` only for the offsets that meet `ok`, and leaves `base` alone. -/
def storesAt (base : Reg) (ok : Nat → Bool) (code : List Instr) : Bool :=
  code.all fun i => decide (i.dest ≠ some base) && match i.stores with
    | none => true
    | some (b, off) => decide (b = base) && ok off

/-- A byte that no store of the code meets. -/
theorem runAll_byte {ok : Nat → Bool} (h : storesAt base ok code = true) {a : Nat}
    (hfit : ∀ off, ok off = true → (c.get base).toNat + off < 2 ^ 64)
    (ha : ∀ off, ok off = true → a < (c.get base).toNat + off ∨ (c.get base).toNat + off + 8 ≤ a) :
    (runAll c code).mem a = c.mem a := by
  induction code generalizing c with
  | nil => rfl
  | cons i code ih =>
    rw [storesAt, List.all_cons, Bool.and_eq_true, Bool.and_eq_true, decide_eq_true_eq] at h
    obtain ⟨⟨hd, hs⟩, hrest⟩ := h
    have hbase : (i.run c).get base = c.get base := Instr.run_get hd
    rw [runAll_cons, ih hrest (by rwa [hbase]) (by rwa [hbase])]
    cases i with
    | sd rs off b =>
      simp only [Instr.stores, Bool.and_eq_true, decide_eq_true_eq] at hs
      obtain ⟨rfl, hok⟩ := hs
      show store64 c.mem (c.addr b off) (c.get rs).toNat a = c.mem a
      rw [Cpu.addr_eq (hfit off hok)]
      obtain h | h := ha off hok
      · exact store64_of_lt h
      · exact store64_of_ge h
    | _ => rw [Instr.run_mem rfl]

theorem word_congr {m m' : Memory} {a : Nat} (h : ∀ i, a ≤ i → i < a + 8 → m' i = m i) : word m' a = word m a :=
  congrArg _ (load64_congr h)

/-- A word that no store of the code meets. -/
theorem runAll_word {ok : Nat → Bool} (h : storesAt base ok code = true) {a : Nat}
    (hfit : ∀ off, ok off = true → (c.get base).toNat + off < 2 ^ 64)
    (ha : ∀ off, ok off = true → a + 8 ≤ (c.get base).toNat + off ∨ (c.get base).toNat + off + 8 ≤ a) :
    word (runAll c code).mem a = word c.mem a := by
  apply word_congr
  intro i h1 h2
  refine runAll_byte h hfit fun off hok => ?_
  obtain h | h := ha off hok
  · left
    omega
  · right
    omega

/-! ## Rows of stores and loads -/

theorem word_store64 {m : Memory} {a : Nat} : word (store64 m a v.toNat) a = v := by
  rw [word, load64_store64 v.isLt, BitVec.ofNat_toNat, BitVec.setWidth_eq]

/-- Registers stored one after the other. -/
def saves (base : Reg) (l : List (Reg × Nat)) : List Instr := l.map fun p => .sd p.1 p.2 base

/-- Control registers stored one after the other, through `t`. -/
def saveCsrs (t base : Reg) (l : List (Csr × Nat)) : List Instr := l.flatMap fun p => [.csrr t p.1, .sd t p.2 base]

/-- Registers loaded one after the other. -/
def loads (base : Reg) (l : List (Reg × Nat)) : List Instr := l.map fun p => .ld p.1 p.2 base

/-- Control registers loaded one after the other, through `t`. -/
def loadCsrs (t base : Reg) (l : List (Csr × Nat)) : List Instr := l.flatMap fun p => [.ld t p.2 base, .csrw p.1 t]

/-- The words of a row do not overlap. -/
def Spaced {κ : Type} (l : List (κ × Nat)) : Prop := l.Pairwise fun p q => p.2 + 8 ≤ q.2 ∨ q.2 + 8 ≤ p.2

instance {κ : Type} (l : List (κ × Nat)) : Decidable (Spaced l) := inferInstanceAs (Decidable (l.Pairwise _))

variable {l : List (Reg × Nat)} {lk : List (Csr × Nat)} {t : Reg} {p : Reg × Nat} {pk : Csr × Nat}

theorem storesAt_saves : storesAt base (fun o => decide (o ∈ l.map Prod.snd)) (saves base l) = true := by
  rw [storesAt, saves, List.all_map, List.all_eq_true]
  intro q hq
  have : q.2 ∈ l.map Prod.snd := List.mem_map_of_mem hq
  simp only [Function.comp_apply, Instr.dest, Instr.stores, reduceCtorEq, ne_eq, not_false_eq_true, decide_true, Bool.true_and,
    this]

theorem storesAt_saveCsrs (ht : t ≠ base) :
    storesAt base (fun o => decide (o ∈ lk.map Prod.snd)) (saveCsrs t base lk) = true := by
  rw [storesAt, saveCsrs, List.all_flatMap, List.all_eq_true]
  intro q hq
  have : q.2 ∈ lk.map Prod.snd := List.mem_map_of_mem hq
  simp [Instr.dest, Instr.stores, ht, this]

/-- A byte outside a row of stores. -/
theorem saves_byte {a : Nat} (hfit : ∀ q ∈ l, (c.get base).toNat + q.2 < 2 ^ 64)
    (ha : ∀ q ∈ l, a < (c.get base).toNat + q.2 ∨ (c.get base).toNat + q.2 + 8 ≤ a) :
    (runAll c (saves base l)).mem a = c.mem a := by
  apply runAll_byte storesAt_saves
  · intro o ho
    obtain ⟨q, hq, rfl⟩ := List.mem_map.1 (of_decide_eq_true ho)
    exact hfit q hq
  · intro o ho
    obtain ⟨q, hq, rfl⟩ := List.mem_map.1 (of_decide_eq_true ho)
    exact ha q hq

/-- The same for control registers. -/
theorem saveCsrs_byte {a : Nat} (ht : t ≠ base) (hfit : ∀ q ∈ lk, (c.get base).toNat + q.2 < 2 ^ 64)
    (ha : ∀ q ∈ lk, a < (c.get base).toNat + q.2 ∨ (c.get base).toNat + q.2 + 8 ≤ a) :
    (runAll c (saveCsrs t base lk)).mem a = c.mem a := by
  apply runAll_byte (storesAt_saveCsrs ht)
  · intro o ho
    obtain ⟨q, hq, rfl⟩ := List.mem_map.1 (of_decide_eq_true ho)
    exact hfit q hq
  · intro o ho
    obtain ⟨q, hq, rfl⟩ := List.mem_map.1 (of_decide_eq_true ho)
    exact ha q hq

/-- What a row of stores leaves in memory. -/
theorem saves_word (hl : Spaced l) (hfit : ∀ q ∈ l, (c.get base).toNat + q.2 < 2 ^ 64) (hp : p ∈ l) :
    word (runAll c (saves base l)).mem ((c.get base).toNat + p.2) = c.get p.1 := by
  induction l generalizing c with
  | nil => cases hp
  | cons q l ih =>
    obtain ⟨hq, hl'⟩ := List.pairwise_cons.1 hl
    have hrest : ∀ r, ((Instr.sd q.1 q.2 base).run c).get r = c.get r := fun _ => rfl
    have hfit' : ∀ q ∈ l, (c.get base).toNat + q.2 < 2 ^ 64 := fun q hq => hfit q (by simp [hq])
    show word (runAll ((Instr.sd q.1 q.2 base).run c) (saves base l)).mem _ = _
    rcases List.mem_cons.1 hp with rfl | hp
    · have hlater : word (runAll ((Instr.sd p.1 p.2 base).run c) (saves base l)).mem ((c.get base).toNat + p.2) =
          word ((Instr.sd p.1 p.2 base).run c).mem ((c.get base).toNat + p.2) := by
        apply word_congr
        intro i h1 h2
        apply saves_byte (by rwa [hrest])
        intro q hm
        have := hq q hm
        rw [hrest]
        omega
      rw [hlater]
      show word (store64 c.mem (c.addr base p.2) (c.get p.1).toNat) _ = _
      rw [Cpu.addr_eq (hfit p (by simp)), word_store64]
    · exact ih hl' hfit' hp

/-- The same for control registers. -/
theorem saveCsrs_word (ht : t ≠ base) (ht0 : t ≠ .zero) (hl : Spaced lk)
    (hfit : ∀ q ∈ lk, (c.get base).toNat + q.2 < 2 ^ 64) (hp : pk ∈ lk) :
    word (runAll c (saveCsrs t base lk)).mem ((c.get base).toNat + pk.2) = c.csr pk.1 := by
  induction lk generalizing c with
  | nil => cases hp
  | cons q lk ih =>
    obtain ⟨hq, hl'⟩ := List.pairwise_cons.1 hl
    have hbase : (runAll c [.csrr t q.1, .sd t q.2 base]).get base = c.get base := Cpu.get_set_of_ne ht.symm
    have hcsr : (runAll c [.csrr t q.1, .sd t q.2 base]).csr = c.csr := Cpu.set_csr
    have hfit' : ∀ q ∈ lk, (c.get base).toNat + q.2 < 2 ^ 64 := fun q hq => hfit q (by simp [hq])
    show word (runAll (runAll c [.csrr t q.1, .sd t q.2 base]) (saveCsrs t base lk)).mem _ = _
    rcases List.mem_cons.1 hp with rfl | hp
    · have hlater : word (runAll (runAll c [.csrr t pk.1, .sd t pk.2 base]) (saveCsrs t base lk)).mem ((c.get base).toNat + pk.2) =
          word (runAll c [.csrr t pk.1, .sd t pk.2 base]).mem ((c.get base).toNat + pk.2) := by
        apply word_congr
        intro i h1 h2
        apply saveCsrs_byte ht (by rwa [hbase])
        intro q hm
        have := hq q hm
        rw [hbase]
        omega
      rw [hlater]
      show word (store64 (c.set t (c.csr pk.1)).mem ((c.set t (c.csr pk.1)).addr base pk.2) ((c.set t (c.csr pk.1)).get t).toNat) _
        = _
      rw [Cpu.get_set_self ht0, Cpu.addr_congr (Cpu.get_set_of_ne ht.symm), Cpu.addr_eq (hfit pk (by simp)), word_store64]
    · have h := ih (c := runAll c [.csrr t q.1, .sd t q.2 base]) hl' (by rwa [hbase]) hp
      rwa [hbase, hcsr] at h

/-- What a row of loads leaves in the registers. -/
theorem loads_get (hl : (l.map Prod.fst).Nodup) (hb : base ∉ l.map Prod.fst) (h0 : Reg.zero ∉ l.map Prod.fst)
    (hfit : ∀ q ∈ l, (c.get base).toNat + q.2 < 2 ^ 64) (hp : p ∈ l) :
    (runAll c (loads base l)).get p.1 = word c.mem ((c.get base).toNat + p.2) := by
  induction l generalizing c with
  | nil => cases hp
  | cons q l ih =>
    rw [List.map_cons, List.mem_cons, not_or] at hb h0
    rw [List.map_cons, List.nodup_cons] at hl
    have hbase : ((Instr.ld q.1 q.2 base).run c).get base = c.get base := Cpu.get_set_of_ne hb.1
    have hmem : ((Instr.ld q.1 q.2 base).run c).mem = c.mem := Cpu.set_mem
    show (runAll ((Instr.ld q.1 q.2 base).run c) (loads base l)).get _ = _
    rcases List.mem_cons.1 hp with rfl | hp
    · rw [runAll_get]
      · show (c.set p.1 (word c.mem (c.addr base p.2))).get p.1 = _
        rw [Cpu.get_set_self (Ne.symm h0.1), Cpu.addr_eq (hfit p (by simp))]
      · rw [loads, List.all_map, List.all_eq_true]
        intro q hq
        have : q.1 ≠ p.1 := fun he => hl.1 (he ▸ List.mem_map_of_mem hq)
        simp [Instr.dest, this]
    · have h := ih (c := (Instr.ld q.1 q.2 base).run c) hl.2 hb.2 h0.2
        (by rw [hbase]; exact fun q hq => hfit q (by simp [hq])) hp
      rwa [hbase, hmem] at h

/-- What a row of loads leaves in the control registers. -/
theorem loadCsrs_csr (ht : t ≠ base) (ht0 : t ≠ .zero) (hl : (lk.map Prod.fst).Nodup)
    (hfit : ∀ q ∈ lk, (c.get base).toNat + q.2 < 2 ^ 64) (hp : pk ∈ lk) :
    (runAll c (loadCsrs t base lk)).csr pk.1 = word c.mem ((c.get base).toNat + pk.2) := by
  induction lk generalizing c with
  | nil => cases hp
  | cons q lk ih =>
    rw [List.map_cons, List.nodup_cons] at hl
    have hbase : (runAll c [.ld t q.2 base, .csrw q.1 t]).get base = c.get base := Cpu.get_set_of_ne ht.symm
    have hmem : (runAll c [.ld t q.2 base, .csrw q.1 t]).mem = c.mem := Cpu.set_mem
    show (runAll (runAll c [.ld t q.2 base, .csrw q.1 t]) (loadCsrs t base lk)).csr _ = _
    rcases List.mem_cons.1 hp with rfl | hp
    · rw [runAll_csr]
      · show ((c.set t (word c.mem (c.addr base pk.2))).setCsr pk.1 ((c.set t (word c.mem (c.addr base pk.2))).get t)).csr pk.1 = _
        rw [Cpu.setCsr_self, Cpu.get_set_self ht0, Cpu.addr_eq (hfit pk (by simp))]
      · rw [loadCsrs, List.all_flatMap, List.all_eq_true]
        intro q hq
        have : q.1 ≠ pk.1 := fun he => hl.1 (he ▸ List.mem_map_of_mem hq)
        simp [Instr.csrDest, this]
    · have h := ih (c := runAll c [.ld t q.2 base, .csrw q.1 t]) hl.2 (by rw [hbase]; exact fun q hq => hfit q (by simp [hq])) hp
      rwa [hbase, hmem] at h

end cpu

end Rv
