import Xinul.Kernel.FreeMemory
import Xinul.Proofs.Pages

/-!
# Entries as the processor reads them

`configure_page_entry` writes the bit-fields of a `page_table_entry`; the processor reads
the word in the layout of Sv39, in which the page number is one field.
-/

namespace Xinul

open Bytes

/-- The processor reads in the word of an entry a valid page at this physical address, with
these rights, not accessed and not dirty. -/
structure Sv39 (word address : Nat) (read write exec userMode : Bool) : Prop where
  valid : word.testBit 0 = true
  read : word.testBit 1 = read
  write : word.testBit 2 = write
  exec : word.testBit 3 = exec
  user : word.testBit 4 = userMode
  accessed : word.testBit 6 = false
  dirty : word.testBit 7 = false
  page : word / 2 ^ 10 % 2 ^ 44 * 2 ^ 12 = address

/-- An address rounded down to a page of this size; `address` is that of a page already. -/
def PageSize.round : PageSize → Nat → Nat
  | .giga, address => address / gigaSize * gigaSize
  | .mega, address => address / megaSize * megaSize
  | .kilo, address => address

/-- The word of an entry in the layout of Sv39. -/
theorem PageTableEntry.sv39 (e : PageTableEntry) (hvalid : e.valid = true) (haccessed : e.resA = false)
    (hdirty : e.resD = false) : Sv39 e.toWord (findPteAdress e) e.read e.write e.exec e.resU := by
  have h := e.bounds
  have bit {n : Nat} {b : Bool} (hn : e.toWord / 2 ^ n % 2 = b.toNat) : e.toWord.testBit n = b := by
    rw [Nat.testBit_eq_decide_div_mod_eq]
    exact bit_eq hn
  constructor
  · rw [← hvalid]
    apply bit
    unfold toWord
    omega
  · apply bit
    unfold toWord
    omega
  · apply bit
    unfold toWord
    omega
  · apply bit
    unfold toWord
    omega
  · apply bit
    unfold toWord
    omega
  · rw [← haccessed]
    apply bit
    unfold toWord
    omega
  · rw [← hdirty]
    apply bit
    unfold toWord
    omega
  · unfold toWord findPteAdress gigaSize megaSize kiloSize
    omega

/-- The `int` products and the `long` sum of `find_pte_adress` do not overflow. -/
theorem findPteAdress_fits (e : PageTableEntry) :
    e.ppn1.toNat * megaSize < 2 ^ 31 ∧ e.ppn0.toNat * kiloSize < 2 ^ 31 ∧ findPteAdress e < 2 ^ 63 := by
  have h := e.bounds
  unfold findPteAdress gigaSize megaSize kiloSize
  omega

/-- The address of an entry of any size. -/
theorem findPteAdress_round (pte : PageTableEntry) {address : Nat} (read write exec userMode : Bool) (size : PageSize)
    (haligned : address % frameSize = 0) (hlt : address < 2 ^ 56) :
    findPteAdress (configurePageEntry pte address read write exec userMode size) = size.round address := by
  cases size with
  | kilo => exact findPteAdress_configure pte read write exec userMode haligned hlt
  | mega =>
    have hzero : (0 : BitVec 9).toNat = 0 := rfl
    unfold configurePageEntry linkPte findPteAdress PageSize.round gigaSize megaSize kiloSize
    dsimp only
    rw [hzero, BitVec.toNat_ofNat, BitVec.toNat_ofNat]
    omega
  | giga =>
    have hzero : (0 : BitVec 9).toNat = 0 := rfl
    unfold configurePageEntry linkPte findPteAdress PageSize.round gigaSize megaSize kiloSize
    dsimp only
    rw [hzero, BitVec.toNat_ofNat]
    omega

/-- The loop of `free_frames_indexed` over one entry. -/
theorem freeFramesLoop_one (r : Region) (table index : Nat) (pool : FramePool) :
    freeFramesLoop r table 1 index pool = releaseFrame r pool (findPteAdress (pteAt pool.mem table index)) := by
  rw [freeFramesLoop.eq_def]
  dsimp only
  rw [freeFramesLoop.eq_def]

/-- Whatever the entry held, the processor reads in the word `configure_page_entry` leaves the
page of the address (rounded down to the size of the page) with the rights asked for, and
`find_pte_adress` computes the same address; `free_frames_indexed` on that entry of a table
releases this frame. -/
theorem page_entry_decodes (previous : BitVec 64) {address : Nat} (haligned : address % frameSize = 0)
    (hlt : address < 2 ^ 56) (read write exec userMode : Bool) (size : PageSize) :
    let e := configurePageEntry (.ofWord previous.toNat) address read write exec userMode size
    e.toWord < 2 ^ 64 ∧ PageTableEntry.ofWord e.toWord = e ∧
      Sv39 e.toWord (size.round address) read write exec userMode ∧
      findPteAdress e = size.round address ∧
      (e.ppn1.toNat * megaSize < 2 ^ 31 ∧ e.ppn0.toNat * kiloSize < 2 ^ 31 ∧ findPteAdress e < 2 ^ 63) ∧
      ∀ (r : Region) (pool : FramePool) (table index : Nat), table ≠ 0 → pteAt pool.mem table index = e →
        freeFramesIndexed r pool table index (index + 1) = releaseFrame r pool (size.round address) := by
  intro e
  have haddress : findPteAdress e = size.round address :=
    findPteAdress_round _ read write exec userMode size haligned hlt
  have hflags : e.valid = true ∧ e.read = read ∧ e.write = write ∧ e.exec = exec ∧ e.resU = userMode ∧
      e.resA = false ∧ e.resD = false := by
    cases size with
    | kilo => exact ⟨rfl, rfl, rfl, rfl, rfl, rfl, rfl⟩
    | mega => exact ⟨rfl, rfl, rfl, rfl, rfl, rfl, rfl⟩
    | giga => exact ⟨rfl, rfl, rfl, rfl, rfl, rfl, rfl⟩
  obtain ⟨hvalid, hread, hwrite, hexec, huser, haccessed, hdirty⟩ := hflags
  have hword := e.sv39 hvalid haccessed hdirty
  rw [haddress, hread, hwrite, hexec, huser] at hword
  refine ⟨e.toWord_lt, e.ofWord_toWord, hword, haddress, findPteAdress_fits e, fun r pool table index htable hpte => ?_⟩
  have hone : index + 1 - index = 1 := by omega
  rw [freeFramesIndexed, if_neg htable, hone, freeFramesLoop_one, hpte, haddress]

/-- The entry of the last page below `2 ^ 56`, over a word of ones. -/
theorem page_entry_decodes_last :
    Sv39 (configurePageEntry (.ofWord (BitVec.allOnes 64).toNat) 0xfffffffffff000 true false true true .kilo).toWord
      0xfffffffffff000 true false true true :=
  (page_entry_decodes (BitVec.allOnes 64) (by decide) (by omega) true false true true .kilo).2.2.1

end Xinul
