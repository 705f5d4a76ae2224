import Xinul.Kernel.FreeMemory
import Xinul.Kernel.VirtualMemory

/-!
# The processes in memory

What happens to the memory as processes come and go: `start_virtual` gives a process its
frames, `free_process_memory` takes them back, and in between the program stores through
its page tables and the kernel works on its interrupt frame. Processes here hold no
shared page.
-/

namespace Xinul

open Bytes

/-- An address of Sv39: its high bits are copies of bit 38. -/
def canonical (address : Nat) : Bool := address < 2 ^ 38 || (2 ^ 64 - 2 ^ 38 ≤ address && address < 2 ^ 64)

/-- A program in user mode loads a byte from a virtual address; `none` is a page fault. -/
def userLoad (mem : Memory) (root address : Nat) : Option UInt8 :=
  if canonical address then userByte mem root address else none

/-- A program in user mode stores a byte at a virtual address; `none` is a page fault. The
kernel stores for it in the same way through a pointer to a page the program may write. -/
def userStore (mem : Memory) (root address : Nat) (byte : UInt8) : Option Memory := do
  if canonical address then
    let (pte, at_) ← physical mem root address
    if pte.resU = true ∧ pte.write = true then some (Function.update mem at_ byte) else none
  else none

/-- The memory, and the processes that were started and not freed. -/
structure Residents where
  memory : MemoryState
  live : List Ptr

/-- What happens to it. `p` is where `malloc` puts the record. -/
inductive MemoryEvent (R : Ram) where
  | start (p : Ptr) (app : App R.toRegion) (size : Nat) (env : NodesEnv) (contextOk : Bool)
  | free (p : Ptr) (user : Strings) (env : Nat → ReleaseEnv)
  | store (p : Ptr) (address : Nat) (byte : UInt8)
  | trap (p : Ptr) (mem : Memory)

/-- The memory after `mem` changed to `mem'` inside the frame at `f`. -/
def WithinFrame (f : Nat) (mem mem' : Memory) : Prop := ∀ a, a < f ∨ f + frameSize ≤ a → mem' a = mem a

/-- The steps: a start that fails leaves no process, and a trap writes the interrupt frame. -/
inductive MemoryStep (R : Ram) : Residents → MemoryEvent R → Residents → Prop where
  | start {s : Residents} {m : MemoryState} {p : Ptr} {app : App R.toRegion} {size : Nat} {env : NodesEnv} {contextOk : Bool}
      (fresh : p ∉ s.live) (run : startMemory p app size env contextOk s.memory = .ok (0, m)) :
      MemoryStep R s (.start p app size env contextOk) ⟨m, p :: s.live⟩
  | refuse {s : Residents} {m : MemoryState} {p : Ptr} {app : App R.toRegion} {size : Nat} {env : NodesEnv} {contextOk : Bool}
      {v : Int} (fresh : p ∉ s.live) (run : startMemory p app size env contextOk s.memory = .ok (v, m)) (negative : v < 0) :
      MemoryStep R s (.start p app size env contextOk) ⟨m, s.live⟩
  | free {s : Residents} {m : MemoryState} {p : Ptr} {user : Strings} {env : Nat → ReleaseEnv} {calls : List FreeCall}
      (live : p ∈ s.live) (run : freeMemory R.toRegion user p env s.memory = .ok (calls, m)) :
      MemoryStep R s (.free p user env) ⟨m, s.live.erase p⟩
  | store {s : Residents} {p : Ptr} {m : ProcessMemory} {address : Nat} {byte : UInt8} {mem : Memory} (live : p ∈ s.live)
      (record : s.memory.procs p = some m)
      (run : userStore s.memory.pool.mem m.pageTableLevel2 address byte = some mem) :
      MemoryStep R s (.store p address byte) { s with memory := s.memory.setMem mem }
  | trap {s : Residents} {p : Ptr} {m : ProcessMemory} {mem : Memory} (live : p ∈ s.live) (record : s.memory.procs p = some m)
      (frame : WithinFrame m.sscratchFrame s.memory.pool.mem mem) :
      MemoryStep R s (.trap p mem) { s with memory := s.memory.setMem mem }

/-- Where it begins: `init_frames` and `set_up_virtual_memory` are done, and nothing was started. -/
structure MemoryBoot (R : Ram) (board : Board) (s : Residents) : Prop where
  memory : ∃ mem pool vm, initFrames R.toRegion mem = some pool ∧ setUpVirtualMemory board pool = (vm, s.memory.pool) ∧
    vm.answer = 0 ∧ s.memory.kernelBasePageTable = vm.kernelBasePageTable
  live : s.live = []

end Xinul
