import Xinul.Kernel.Process

/-!
# `msgqueue.c`
-/

namespace Xinul

/-- `SUCCES` and `FAILURE`. -/
def succes : Int := 0
def failure : Int := -1

/-- The queue `all_queues[fid]` points to if `valid_fid(fid)`. -/
def validFid (fid : Int) : KernelM (Option QueuePtr) := do
  if fid < 0 ∨ fid ≥ nbQueues then pure none
  else pure ((← get).allQueues fid.toNat)

/-- Reading a `msg_queue_t`. -/
def derefQueue (q : QueuePtr) : KernelM MsgQueue := do
  match (← get).msgQueue q with
  | some m => pure m
  | none => throw .badQueue

/-- The globals with the message queue `q` replaced. -/
def Kernel.setQueue (s : Kernel) (q : QueuePtr) (m : Option MsgQueue) : Kernel :=
  { s with msgQueue := Function.update s.msgQueue q m }

/-- `is_full`. -/
def MsgQueue.isFull (m : MsgQueue) : Bool := m.numberOfMsgs = m.size

/-- `is_empty`. -/
def MsgQueue.isEmpty (m : MsgQueue) : Bool := m.numberOfMsgs = 0

/-- `mod`: C's remainder made non-negative. -/
def msgMod (a b : Int) : Int :=
  let r := Int.tmod a b
  if r < 0 then r + b else r

/-- The index `pop_oldest_msg` reads. -/
def MsgQueue.oldestIndex (m : MsgQueue) : Nat :=
  (msgMod ((m.iffc : Int) - m.numberOfMsgs) m.size).toNat

/-- The message `pop_oldest_msg` returns. -/
def MsgQueue.oldestMsg (m : MsgQueue) : Int := m.msgArr m.oldestIndex

/-- `pop_oldest_msg`, but for its result. -/
def MsgQueue.popOldestMsg (m : MsgQueue) : MsgQueue :=
  { m with numberOfMsgs := m.numberOfMsgs - 1 }

/-- The result of `pop_oldest_msg` has been handed to a receiver. -/
def MsgQueue.deliver (m : MsgQueue) (message : Int) : MsgQueue :=
  { m with delivered := m.delivered ++ [message] }

/-- `add_message`. -/
def MsgQueue.addMessage (m : MsgQueue) (message : Int) : MsgQueue :=
  { m with
    msgArr := Function.update m.msgArr m.iffc message
    numberOfMsgs := m.numberOfMsgs + 1
    iffc := (m.iffc + 1) % m.size
    accepted := m.accepted ++ [message] }

/-- A message taken from a sender that does not enter the ring. -/
def MsgQueue.accept (m : MsgQueue) (message : Int) : MsgQueue :=
  { m with accepted := m.accepted ++ [message] }

/-- A message that goes from a sender to a receiver without entering the ring. -/
def MsgQueue.handOver (m : MsgQueue) (message : Int) : MsgQueue :=
  (m.accept message).deliver message

/-- The state of the ring after `pcreate` or `preset`. -/
def MsgQueue.reset (m : MsgQueue) : MsgQueue :=
  { m with numberOfMsgs := 0, iffc := 0, accepted := [], delivered := [] }

/-- `get_first_free_index`. -/
def getFirstFreeIndex (s : Kernel) : Option Nat :=
  (List.range nbQueues).find? fun i => (s.allQueues i).isNone

/-- `pcreate`; `queueOk` and `arrOk` tell whether the two `malloc` calls
succeed. When the second fails the slot keeps a queue that was not filled in. -/
def pcreate (count : Int) (queueOk arrOk : Bool) : KernelM Unit := do
  if count < 0 then answer (-1) []
  else match getFirstFreeIndex (← get) with
    | none => answer (-1) []
    | some index =>
      if queueOk = false then answer (-1) []
      else
        let q := (← get).nextQueue
        modify fun s => { s with
          allQueues := Function.update s.allQueues index (some q)
          nextQueue := q + 1 }
        if 4 * count.toNat ≥ secmallocLimit ∨ arrOk = false then answer (-1) []
        else
          modify fun s => { s.setQueue q (some ⟨fun _ => 0, count.toNat, 0, 0, [], []⟩) with
            queue := Function.update (Function.update s.queue (.blockedCons q) []) (.blockedProd q) [] }
          answer index []

/-- `free_blocked_queue`. -/
def freeBlockedQueue (head : QueueHead) : Nat → KernelM Unit
  | 0 => throw .hang
  | n + 1 => do
    match ← queueOut head with
    | none => pure ()
    | some curr =>
      modifyProc curr fun r =>
        { r with message := { r.message with status := .error }, state := .activatable }
      queueAdd curr .activatable Process.prioField
      freeBlockedQueue head n

/-- `free_blocked_queue` with a bound on its turns: one for each process in the
list and one to find it empty. -/
def freeBlocked (head : QueueHead) : KernelM Unit := do
  freeBlockedQueue head (((← get).queue head).length + 1)

/-- `pdelete`. -/
def pdelete (fid : Int) : KernelM Unit := do
  match ← validFid fid with
  | none => answer failure []
  | some q =>
    let _ ← derefQueue q
    freeBlocked (.blockedCons q)
    freeBlocked (.blockedProd q)
    modify fun s => { s.setQueue q none with
      allQueues := Function.update s.allQueues fid.toNat none }
    scheduleAnswer succes []

/-- `psend`, up to the `scheduler` of its full branch. -/
def psend (fid message : Int) : KernelM Unit := do
  match ← validFid fid with
  | none => answer failure []
  | some q =>
    let m ← derefQueue q
    if m.isEmpty ∧ (← queueEmpty (.blockedCons q)) = false then
      match ← queueOut (.blockedCons q) with
      | none => throw .nullPointer
      | some blocked =>
        modifyProc blocked fun r => { r with state := .activatable }
        queueAdd blocked .activatable Process.prioField
        modifyProc blocked fun r =>
          { r with message := { r.message with value := message, status := .received } }
        modify (·.setQueue q (some (m.handOver message)))
        scheduleAnswer succes []
    else if m.isFull then
      match ← getCurrentProcess with
      | none => throw .nullPointer
      | some p =>
        modifyProc p fun r =>
          { r with
            message := { r.message with value := message, blockedHead := some (.blockedProd q) }
            state := .blockedQueue }
        queueAdd p (.blockedProd q) Process.prioField
        schedule .psend
    else
      modify (·.setQueue q (some (m.addMessage message)))
      answer succes []

/-- `psend`, after that `scheduler`. -/
def psendResume : KernelM Unit := do
  let r ← derefOpt (← getCurrentProcess)
  if r.message.status ≠ .sent then answer failure [] else answer succes []

/-- What `preceive` has stored through `message`. -/
def storeMessage (message : UserPtr) (value : Int) : List Int :=
  if message = .mapped then [value] else []

/-- `*message = …` unless `message` is `NULL`, and what follows it. A store to a page the
process does not have traps in the middle of the function: `fault` is what the handler of
the trap does, and what follows the store is never done. -/
def afterStore (fault : KernelM Unit) (message : UserPtr) (k : KernelM Unit) : KernelM Unit :=
  if message = .unmapped then fault else k

/-- `preceive`, up to the `scheduler` of its empty branch. The first branch
leaves the state of the producer as it is. -/
def preceiveWith (fault : KernelM Unit) (fid : Int) (message : UserPtr) : KernelM Unit := do
  match ← validFid fid with
  | none => answer failure []
  | some q =>
    let m ← derefQueue q
    if m.isEmpty ∧ (← queueEmpty (.blockedProd q)) = false then
      match ← queueOut (.blockedProd q) with
      | none => throw .nullPointer
      | some blocked =>
        modifyProc blocked fun r => { r with message := { r.message with status := .sent } }
        let value := (← deref blocked).message.value
        modify (·.setQueue q (some (m.accept value)))
        afterStore fault message do
          queueAdd blocked .activatable Process.prioField
          modify (·.setQueue q (some (m.handOver value)))
          scheduleAnswer succes (storeMessage message value)
    else if m.isEmpty ∧ (← queueEmpty (.blockedProd q)) then
      match ← getCurrentProcess with
      | none => throw .nullPointer
      | some p =>
        modifyProc p fun r =>
          { r with
            state := .blockedQueue
            message := { r.message with blockedHead := some (.blockedCons q) } }
        queueAdd p (.blockedCons q) Process.prioField
        schedule (.preceive message)
    else if m.isFull ∧ (← queueEmpty (.blockedProd q)) = false then
      modify (·.setQueue q (some m.popOldestMsg))
      afterStore fault message do
        match ← queueOut (.blockedProd q) with
        | none => throw .nullPointer
        | some blocked =>
          let value := (← deref blocked).message.value
          modify (·.setQueue q (some ((m.popOldestMsg.deliver m.oldestMsg).addMessage value)))
          modifyProc blocked fun r =>
            { r with message := { r.message with status := .sent }, state := .activatable }
          queueAdd blocked .activatable Process.prioField
          scheduleAnswer succes (storeMessage message m.oldestMsg)
    else
      modify (·.setQueue q (some m.popOldestMsg))
      afterStore fault message do
        modify (·.setQueue q (some (m.popOldestMsg.deliver m.oldestMsg)))
        answer succes (storeMessage message m.oldestMsg)

/-- `preceive`: `strap_handler` kills the process whose store faults. -/
def preceive (fid : Int) (message : UserPtr) : KernelM Unit := preceiveWith pageFault fid message

/-- `preceive`, after that `scheduler`. -/
def preceiveResumeWith (fault : KernelM Unit) (message : UserPtr) : KernelM Unit := do
  let r ← derefOpt (← getCurrentProcess)
  if r.message.status ≠ .received then answer failure []
  else afterStore fault message (answer succes (storeMessage message r.message.value))

/-- `preceive`, after that `scheduler`, with the handler of `strap_handler`. -/
def preceiveResume (message : UserPtr) : KernelM Unit := preceiveResumeWith pageFault message

/-- `pcount`. -/
def pcount (fid : Int) (count : Bool) : KernelM Unit := do
  match ← validFid fid with
  | none => answer failure []
  | some q =>
    if count = false then answer failure []
    else
      let m ← derefQueue q
      if (← queueEmpty (.blockedCons q)) = false then
        answer succes [-((← get).queue (.blockedCons q)).length]
      else
        answer succes [m.numberOfMsgs + ((← get).queue (.blockedProd q)).length]

/-- `preset`. -/
def preset (fid : Int) : KernelM Unit := do
  match ← validFid fid with
  | none => answer failure []
  | some q =>
    let m ← derefQueue q
    modify (·.setQueue q (some m.reset))
    freeBlocked (.blockedCons q)
    freeBlocked (.blockedProd q)
    scheduleAnswer succes []

end Xinul
