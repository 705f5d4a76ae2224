import Xinul.Kernel.Pages

/-!
# The page table of the kernel: `virtual_memory.c`

Every process gets a copy of it, so it is also the part of a process's address space
that is not its own.
-/

namespace Xinul

/-- The machines: the virtual one is compiled with `VIRTMACHINE`. -/
inductive Board where
  | cep
  | virt
  deriving DecidableEq, Repr

/-- `KERNEL_SPACE`, `VRAM_SPACE_1` and `VRAM_SPACE_2`. -/
def kernelSpace : Nat := 0
def vramSpace1 : Nat := 2
def vramSpace2 : Nat := 3

/-- `KERNEL_SPACE_ADDRESS`, `USERSPACE_ADDRESS`, `VRAM_SPACE_1_ADDRESS` and `VRAM_SPACE_2_ADDRESS`. -/
def kernelSpaceAddress : Nat := 0x0
def userspaceAddress : Nat := 0x40000000
def vramSpace1Address : Nat := 0x80000000
def vramSpace2Address : Nat := 0xc0000000

/-- What `init_directory` writes into the table. -/
def Board.directory (dir : Nat) (mem : Bytes.Memory) : Board → Bytes.Memory
  | .cep =>
    let mem := configurePte mem dir kernelSpace kernelSpaceAddress true true true false .giga
    let mem := configurePte mem dir 1 userspaceAddress false false false true .giga
    let mem := configurePte mem dir vramSpace1 vramSpace1Address true true false false .giga
    configurePte mem dir vramSpace2 vramSpace2Address true true false false .giga
  | .virt =>
    let mem := configurePte mem dir kernelSpace kernelSpaceAddress true true true false .giga
    configurePte mem dir vramSpace1 vramSpace1Address true true true false .giga

/-- `init_directory`. -/
def initDirectory (board : Board) (pool : FramePool) : Nat × FramePool :=
  let (directoryPtr, pool) := createPageTable pool
  if directoryPtr = 0 then (0, pool)
  else (directoryPtr, { pool with mem := board.directory directoryPtr pool.mem })

/-- What `set_up_virtual_memory` returns, and what it writes to `kernel_base_page_table` and `satp`. -/
structure VirtualMemory where
  answer : Int
  kernelBasePageTable : Nat
  satp : Option Nat
  deriving DecidableEq, Repr

/-- `set_up_virtual_memory`. -/
def setUpVirtualMemory (board : Board) (pool : FramePool) : VirtualMemory × FramePool :=
  let (base, pool) := initDirectory board pool
  if base = 0 then (⟨-1, base, none⟩, pool)
  else (⟨0, base, some (0x8000000000000000 ||| base >>> 12)⟩, pool)

end Xinul
