import Xinul.Kernel.Context

/-!
# The processor between processes

One hart runs the processes in turn. A process runs in user mode until a trap; the
assembly of `supervisor_trap_entry.S` then calls the C code of the kernel on the
process's own frame, and that code calls `context_switch` any number of times before it
returns. What the compiled C code does between two pieces of assembly is a parameter:
`code` gives, from what the code has seen since the trap, where it gets to next.
-/

namespace Xinul

open Bytes Rv

/-! ## The compiled code -/

/-- Where the C code of the kernel gets to. -/
inductive Milestone where
  | switches (c : Cpu)  -- it calls `context_switch`
  | swaps (c : Cpu)     -- it calls `direct_context_swap`
  | returns (c : Cpu)   -- `strap_handler` returns

/-- The state at that point. -/
def Milestone.cpu : Milestone → Cpu
  | .switches c | .swaps c | .returns c => c

/-- The run of the C code for a trap: the state in which the trap was taken, where the
code was called or last came back from `context_switch`, and where before that. -/
structure Activation where
  trap : Cpu
  now : Cpu
  before : List Cpu

/-- The registers a C function gives back as it found them. -/
def calleeSaved : List Reg := [.sp, .s0, .s1, .s2, .s3, .s4, .s5, .s6, .s7, .s8, .s9, .s10, .s11]

/-- A trap that is a system call. -/
def isEcall (c : Cpu) : Bool := decide (c.csr .scause = 8) || decide (c.csr .scause = 9)

/-- The top of the frame a process has its traps handled on. -/
def Activation.top (a : Activation) : Nat := (a.trap.csr .sscratch).toNat

/-- The bytes of that frame are the same. -/
def Activation.SameStack (a : Activation) (m m' : Memory) : Prop := ∀ i, a.top - 0x1000 ≤ i → i < a.top → m' i = m i

/-- The activation once the code comes back from `context_switch` in `c`. -/
def Activation.resume (a : Activation) (c : Cpu) : Activation := { a with now := c, before := a.now :: a.before }

/-- Every call of `context_switch` so far has come back as a call does: with the
registers a function keeps and the stack as they were. -/
inductive Activation.Linked (code : Activation → Milestone) : Activation → Prop where
  | entered (t : Cpu) : Linked code ⟨t, exec strapEntry 0 t, []⟩
  | resumed {a : Activation} {c d : Cpu} : Linked code a → code a = .switches d → Alike c d → a.SameStack d.mem c.mem →
      c.pc = d.get .ra → Linked code (a.resume c)

/-- What `strap_handler` makes of `sepc`. -/
def returnPc (trap : Cpu) (sepc : Rv.Word) : Rv.Word := if isEcall trap then sepc + 4 else sepc

/-- The calling convention, and what the C code of the kernel has to do with the trap
frame and the control registers: the frame of a trap is given back as it was but for
`tf->a0` after a system call, `sepc` is moved on after a system call, and `sscratch`
and `satp` are only written by the assembly. -/
structure Convention (code : Activation → Milestone) : Prop where
  callee : ∀ a d, a.Linked code → code a = .returns d → ∀ r ∈ calleeSaved,
    d.get r = (exec strapEntry 0 a.trap).get r
  frame : ∀ a, a.Linked code → ∀ p ∈ trapFrameRegs, (p.1 = .a0 → isEcall a.trap = false) →
    word (code a).cpu.mem (a.top - trapFrameSize + p.2) = word a.now.mem (a.top - trapFrameSize + p.2)
  sscratch : ∀ a, a.Linked code → (code a).cpu.csr .sscratch = a.now.csr .sscratch
  satp : ∀ a, a.Linked code → (code a).cpu.csr .satp = a.now.csr .satp
  sepc : ∀ a d, a.Linked code → code a = .switches d → d.csr .sepc = a.now.csr .sepc
  sepc_returns : ∀ a d, a.Linked code → code a = .returns d → d.csr .sepc = returnPc a.trap (a.now.csr .sepc)

/-! ## The machine -/

/-- What `start_virtual` is given and gets from `malloc`, `get_frame` and the allocator
of the process's memory. -/
structure StartArgs where
  pid : Nat
  context : Nat
  frame : Nat
  stackShift : Nat
  arg : Nat
  pageTable : Nat
  deriving DecidableEq, Repr

/-- How far a process has got. -/
inductive Stage where
  | fresh (x : StartArgs)     -- made by `start_virtual`
  | starting (x : StartArgs)  -- at `process_call_wrapper_user`
  | user
  | kernel (a : Activation)   -- its trap is being handled
  | away (a : Activation)     -- the code that handles its trap has called `context_switch`
  | gone                      -- that code has called `direct_context_swap`

/-- A process: where its `context_t` and its `sscratch_frame` are. -/
structure Task where
  context : Nat
  frame : Nat
  stage : Stage

/-- The bytes of memory that belong to a process. -/
def Task.Owns (t : Task) (i : Nat) : Prop :=
  (t.context ≤ i ∧ i < t.context + contextSize) ∨ (t.frame ≤ i ∧ i < t.frame + 0x1000)

structure Hart where
  cpu : Cpu
  tasks : Nat → Option Task
  current : Option Nat

def Hart.setStage (h : Hart) (p : Nat) (s : Stage) : Nat → Option Task :=
  Function.update h.tasks p ((h.tasks p).map fun t => { t with stage := s })

/-- The memory of every process but `p` is left alone. -/
def Hart.Spares (h : Hart) (p : Option Nat) (m : Memory) : Prop :=
  ∀ q t, h.tasks q = some t → p ≠ some q → ∀ i, t.Owns i → m i = h.cpu.mem i

inductive HartEvent where
  | user
  | trap
  | begin
  | ret
  | start (x : StartArgs)
  | free (p : Nat)
  | switch (p : Nat)
  | swap (p : Nat)
  deriving DecidableEq, Repr

/-- The stage of a process that is switched to, when it goes on in `c`. -/
def Stage.resumed (c : Cpu) : Stage → Option Stage
  | .fresh x => some (.starting x)
  | .away a => some (.kernel (a.resume c))
  | _ => none

/-- The memory of a new process is nobody else's, and in the address space. -/
def Hart.Room (h : Hart) (t : Task) : Prop :=
  t.context + contextSize ≤ 2 ^ 64 ∧ t.frame + 0x1000 < 2 ^ 64 ∧
  (∀ i, ¬((t.context ≤ i ∧ i < t.context + contextSize) ∧ t.frame ≤ i ∧ i < t.frame + 0x1000)) ∧
  ∀ q u, h.tasks q = some u → ∀ i, ¬(t.Owns i ∧ u.Owns i)

/-- The kernel runs: it boots, or it handles a trap. -/
def Hart.InKernel (h : Hart) : Prop :=
  ∀ p, h.current = some p → ∃ t a, h.tasks p = some t ∧ t.stage = .kernel a

/-- A process is made: `wrapper` is the address of `process_call_wrapper_user`. -/
def Hart.started (h : Hart) (wrapper : Nat) (x : StartArgs) : Hart :=
  let mem := startContext h.cpu.mem x.context wrapper x.stackShift x.arg x.pageTable x.pid x.frame
  { h with
    cpu := { h.cpu with mem := mem }
    tasks := Function.update h.tasks x.pid (some ⟨x.context, x.frame, .fresh x⟩) }

/-- A switch to `q`, from a hart whose tasks are `tasks`, that goes on in `c`. -/
def Hart.switched (h : Hart) (c : Cpu) (q : Nat) (s : Stage) : Hart :=
  { cpu := c, tasks := h.setStage q s, current := some q }

/-- The hart with another stage for a process. -/
def Hart.withStage (h : Hart) (p : Nat) (s : Stage) : Hart := { h with tasks := h.setStage p s }

section step

variable (code : Activation → Milestone) (wrapper : Nat)

/-- A step. -/
inductive HartStep : Hart → HartEvent → Hart → Prop where
  /-- User code does what it likes with the registers and its own pages. -/
  | user {h : Hart} {p : Nat} {t : Task} {c : Cpu} : h.current = some p → h.tasks p = some t → t.stage = .user →
      c.csr = h.cpu.csr → h.Spares none c.mem → HartStep h .user { h with cpu := c }
  /-- A trap: the hart notes the cause and where it was. -/
  | trap {h : Hart} {p : Nat} {t : Task} {c : Cpu} : h.current = some p → h.tasks p = some t → t.stage = .user →
      c.x = h.cpu.x → c.mem = h.cpu.mem → c.pc = h.cpu.pc → c.csr .sepc = h.cpu.pc → c.csr .sscratch = h.cpu.csr .sscratch →
      c.csr .satp = h.cpu.csr .satp →
      HartStep h .trap { h.withStage p (.kernel ⟨c, exec strapEntry 0 c, []⟩) with cpu := exec strapEntry 0 c }
  | begin {h : Hart} {p : Nat} {t : Task} {x : StartArgs} : h.current = some p → h.tasks p = some t → t.stage = .starting x →
      HartStep h .begin { h.withStage p .user with cpu := exec processCallWrapperUser 0 h.cpu }
  | ret {h : Hart} {p : Nat} {t : Task} {a : Activation} {d : Cpu} : h.current = some p → h.tasks p = some t →
      t.stage = .kernel a → code a = .returns d → h.Spares (some p) d.mem →
      HartStep h .ret { h.withStage p .user with cpu := exec strapExit 0 d }
  | start {h : Hart} {x : StartArgs} : h.InKernel → h.tasks x.pid = none → h.Room ⟨x.context, x.frame, .fresh x⟩ →
      HartStep h (.start x) (h.started wrapper x)
  | free {h : Hart} {p : Nat} : h.InKernel → h.current ≠ some p →
      HartStep h (.free p) { h with tasks := Function.update h.tasks p none }
  | switch {h : Hart} {p q : Nat} {t u : Task} {a : Activation} {d : Cpu} {s : Stage} : h.current = some p →
      h.tasks p = some t → t.stage = .kernel a → code a = .switches d → h.Spares (some p) d.mem →
      (d.get .a0).toNat = t.context → p ≠ q → h.tasks q = some u → (d.get .a1).toNat = u.context →
      u.stage.resumed (exec contextSwitch 0 d) = some s →
      HartStep h (.switch q) ((h.withStage p (.away a)).switched (exec contextSwitch 0 d) q s)
  | swap {h : Hart} {p q : Nat} {t u : Task} {a : Activation} {d : Cpu} {s : Stage} : h.current = some p →
      h.tasks p = some t → t.stage = .kernel a → code a = .swaps d → h.Spares (some p) d.mem →
      p ≠ q → h.tasks q = some u → (d.get .a0).toNat = u.context →
      u.stage.resumed (exec directContextSwap 0 d) = some s →
      HartStep h (.swap q) ((h.withStage p .gone).switched (exec directContextSwap 0 d) q s)
  /-- The first switch, from the code that boots; its context is `main_context`. -/
  | boot {h : Hart} {q : Nat} {u : Task} {d : Cpu} {s : Stage} : h.current = none → h.Spares none d.mem →
      (d.get .a0).toNat + contextSize ≤ 2 ^ 64 →
      (∀ p t, h.tasks p = some t → ∀ i, ¬(t.Owns i ∧ (d.get .a0).toNat ≤ i ∧ i < (d.get .a0).toNat + contextSize)) →
      h.tasks q = some u → (d.get .a1).toNat = u.context → u.stage.resumed (exec contextSwitch 0 d) = some s →
      HartStep h (.switch q) (h.switched (exec contextSwitch 0 d) q s)

/-- The hart while it boots: no process yet. -/
def HartInit (h : Hart) : Prop := h.current = none ∧ ∀ p, h.tasks p = none

end step

end Xinul
