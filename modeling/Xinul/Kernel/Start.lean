import Xinul.Kernel.Machine
import Xinul.Kernel.ProcessMemory

/-!
# `start_virtual` and the memory

The scheduling model takes the answers of the memory allocators as given. Here
`start_virtual` works on the kernel's records and on the physical memory at once.
-/

namespace Xinul

/-- The kernel's records and the physical memory. -/
structure System where
  kernel : Kernel
  memory : MemoryState

/-- Why the kernel cannot go on. -/
inductive SystemFault where
  | kernel (f : Fault)
  | memory (f : MemoryFault)

/-- A function of the kernel that works on both. -/
abbrev SystemM := StateT System (Except SystemFault)

/-- A function that only works on the records. -/
def onKernel {α : Type} (m : KernelM α) : SystemM α := fun s =>
  match m s.kernel with
  | .ok (a, k) => .ok (a, { s with kernel := k })
  | .error e => .error (.kernel e)

/-- A function that only works on the memory. -/
def onMemory {α : Type} (m : MemoryM α) : SystemM α := fun s =>
  match m s.memory with
  | .ok (a, k) => .ok (a, { s with memory := k })
  | .error e => .error (.memory e)

/-- What `start_virtual` finds: the record that `malloc` returns, whether it has memory
for the name, the program, the answers for the nodes of the page tables, and whether
it has memory for the context. -/
structure StartSystemEnv (r : Region) where
  record : Option Process
  nameOk : Bool
  app : App r
  nodes : NodesEnv
  contextOk : Bool

/-- `ssize` in the record: a sum on 64 bits in a `uint32_t`. -/
def recordSsize (ssize : Nat) : Nat := (ssize + processSetupSize) % 2 ^ 64 % 2 ^ 32

/-- `sp` in the context of a new process. -/
def ProcessMemory.initialSp (m : ProcessMemory) : Nat := 0x40000000 + frameSize * m.stackShift

/-- `start_virtual` returns -1. -/
def refuseStart : SystemM (Option Ptr) := do
  onKernel (answer (-1) [])
  pure none

/-- `start_virtual`: the new process, or `none` for -1. -/
def startVirtualSystem {r : Region} (name : Option (List UInt8)) (ssize : Nat) (prio : Int) (env : StartSystemEnv r) :
    SystemM (Option Ptr) := do
  match name with
  | none => refuseStart
  | some name =>
    if (← get).kernel.nbProcRunning + 1 > maxNbProcess then refuseStart
    else
      onKernel (modify fun s => { s with nbProcRunning := s.nbProcRunning + 1 })
      if (← onKernel getpid) ≠ -1 ∧ (← onKernel do validateActionProcessValid (← getCurrentProcess)) < 0 then refuseStart
      else if ¬ (prio ≤ maxPrio ∧ prio ≥ minPrio) then refuseStart
      else if ssize = 0 then refuseStart
      else if ¬ (← get).kernel.symbolsTable.contains name then refuseStart
      else match env.record with
        | none => refuseStart
        | some garbage =>
          let p ← onKernel (newRecord garbage prio)
          if ¬ (name.length ≤ maxSizeName ∧ env.nameOk) then refuseStart
          else if (← onMemory (startMemory p env.app (recordSsize ssize) env.nodes env.contextOk)) < 0 then refuseStart
          else
            onKernel (startFinish p prio)
            pure (some p)

end Xinul
