import Xinul.Kernel.Frames

/-!
# Page tables: `pages.c` and `virtual_memory.h`

An entry is the bit-field `page_table_entry`, kept as a word in a table of 512 of
them; a table is a frame. `translate` is the walk of the processor through the
three levels of Sv39.
-/

namespace Xinul

open Bytes

/-- `PT_SIZE`. -/
def ptSize : Nat := 512

/-- `KILO_SIZE`, `MEGA_SIZE` and `GIGA_SIZE`. -/
def kiloSize : Nat := 0x1000
def megaSize : Nat := 0x200000
def gigaSize : Nat := 0x40000000

/-- `page_table_entry`. -/
@[ext] structure PageTableEntry where
  valid : Bool
  read : Bool
  write : Bool
  exec : Bool
  resU : Bool
  global : Bool
  resA : Bool
  resD : Bool
  rsw : BitVec 2
  ppn0 : BitVec 9
  ppn1 : BitVec 9
  ppn2 : BitVec 26
  reserved : BitVec 7
  pbmt : BitVec 2
  n : Bool
  deriving DecidableEq, Repr

/-- The fields of a word, from the lowest bit on. -/
def PageTableEntry.ofWord (w : Nat) : PageTableEntry where
  valid := w % 2 = 1
  read := w / 2 % 2 = 1
  write := w / 2 ^ 2 % 2 = 1
  exec := w / 2 ^ 3 % 2 = 1
  resU := w / 2 ^ 4 % 2 = 1
  global := w / 2 ^ 5 % 2 = 1
  resA := w / 2 ^ 6 % 2 = 1
  resD := w / 2 ^ 7 % 2 = 1
  rsw := BitVec.ofNat 2 (w / 2 ^ 8)
  ppn0 := BitVec.ofNat 9 (w / 2 ^ 10)
  ppn1 := BitVec.ofNat 9 (w / 2 ^ 19)
  ppn2 := BitVec.ofNat 26 (w / 2 ^ 28)
  reserved := BitVec.ofNat 7 (w / 2 ^ 54)
  pbmt := BitVec.ofNat 2 (w / 2 ^ 61)
  n := w / 2 ^ 63 % 2 = 1

/-- The word of the fields. -/
def PageTableEntry.toWord (e : PageTableEntry) : Nat :=
  e.valid.toNat + 2 * e.read.toNat + 2 ^ 2 * e.write.toNat + 2 ^ 3 * e.exec.toNat + 2 ^ 4 * e.resU.toNat +
    2 ^ 5 * e.global.toNat + 2 ^ 6 * e.resA.toNat + 2 ^ 7 * e.resD.toNat + 2 ^ 8 * e.rsw.toNat +
    2 ^ 10 * e.ppn0.toNat + 2 ^ 19 * e.ppn1.toNat + 2 ^ 28 * e.ppn2.toNat + 2 ^ 54 * e.reserved.toNat +
    2 ^ 61 * e.pbmt.toNat + 2 ^ 63 * e.n.toNat

/-- `page_size_t`. -/
inductive PageSize where
  | giga
  | mega
  | kilo
  deriving DecidableEq, Repr

/-- `set_valid`. -/
def setValid (pte : PageTableEntry) : PageTableEntry :=
  { pte with valid := true, resA := false, resU := false, resD := false, reserved := 0 }

/-- `set_invalid`. -/
def setInvalid (pte : PageTableEntry) : PageTableEntry := { pte with valid := false }

/-- `set_read`, `set_write`, `set_exec` and `set_user_mode`. -/
def setRead (pte : PageTableEntry) (read : Bool) : PageTableEntry := { pte with read := read }
def setWrite (pte : PageTableEntry) (write : Bool) : PageTableEntry := { pte with write := write }
def setExec (pte : PageTableEntry) (exec : Bool) : PageTableEntry := { pte with exec := exec }
def setUserMode (pte : PageTableEntry) (userMode : Bool) : PageTableEntry := { pte with resU := userMode }

/-- `is_leaf`. -/
def isLeaf (pte : PageTableEntry) : Bool := pte.read || pte.exec

/-- `link_pte`: a field takes the bits under its mask. -/
def linkPte (pte : PageTableEntry) (address : Nat) : PageTableEntry :=
  { pte with
    ppn0 := BitVec.ofNat 9 (address / 2 ^ 12)
    ppn1 := BitVec.ofNat 9 (address / 2 ^ 12 / 2 ^ 9)
    ppn2 := BitVec.ofNat 26 (address / 2 ^ 12 / 2 ^ 9 / 2 ^ 9) }

/-- `configure_page_entry`. -/
def configurePageEntry (pte : PageTableEntry) (address : Nat) (read write exec userMode : Bool) (pageSize : PageSize) :
    PageTableEntry :=
  let pte := setUserMode (setExec (setWrite (setRead (setValid pte) read) write) exec) userMode
  match pageSize with
  | .giga => { linkPte pte address with ppn0 := 0, ppn1 := 0 }
  | .mega => { linkPte pte address with ppn0 := 0 }
  | .kilo => linkPte pte address

/-- `find_pte_adress`. -/
def findPteAdress (pte : PageTableEntry) : Nat :=
  pte.ppn2.toNat * gigaSize + pte.ppn1.toNat * megaSize + pte.ppn0.toNat * kiloSize

/-- `pte_list[index]` of the table at an address. -/
def pteAt (mem : Memory) (table index : Nat) : PageTableEntry := .ofWord (load64 mem (table + 8 * index))

/-- The memory with that entry written. -/
def setPte (mem : Memory) (table index : Nat) (pte : PageTableEntry) : Memory :=
  store64 mem (table + 8 * index) pte.toWord

/-- `configure_page_entry` on an entry in memory. -/
def configurePte (mem : Memory) (table index address : Nat) (read write exec userMode : Bool) (pageSize : PageSize) :
    Memory :=
  setPte mem table index (configurePageEntry (pteAt mem table index) address read write exec userMode pageSize)

/-- `create_page_table`. -/
def createPageTable (pool : FramePool) : Nat × FramePool :=
  let (ptr, pool) := getFrame pool
  if ptr = 0 then (0, pool)
  else (ptr, { pool with mem := memset pool.mem ptr 0 frameSize })

/-! ## The processor -/

/-- The rest of the walk below the table at `table`: `levels` more tables, the
first of them indexed by the bits of the address above `2 ^ (9 * levels)` pages.
The result is the leaf and the number of pages its bits leave open. -/
def translateFrom (mem : Memory) : Nat → Nat → Nat → Option (PageTableEntry × Nat)
  | 0, _, _ => none
  | levels + 1, table, page =>
    let pte := pteAt mem table (page / ptSize ^ levels % ptSize)
    if pte.valid = false ∨ (pte.read = false ∧ pte.write = true) then none
    else if isLeaf pte then some (pte, ptSize ^ levels)
    else translateFrom mem levels (findPteAdress pte) page

/-- The walk of Sv39 from the table `root` for a virtual address. -/
def translate (mem : Memory) (root address : Nat) : Option (PageTableEntry × Nat) :=
  translateFrom mem 3 root (address / kiloSize)

/-- The physical address a virtual one is mapped to, with its leaf; a leaf above
the lowest level has to be aligned to its size. -/
def physical (mem : Memory) (root address : Nat) : Option (PageTableEntry × Nat) := do
  let (pte, pages) ← translate mem root address
  if findPteAdress pte % (pages * kiloSize) ≠ 0 then none
  else some (pte, findPteAdress pte + address % (pages * kiloSize))

/-- The byte a program in user mode reads at a virtual address. -/
def userByte (mem : Memory) (root address : Nat) : Option UInt8 := do
  let (pte, at_) ← physical mem root address
  if pte.resU = true ∧ pte.read = true then some (mem at_) else none

end Xinul
