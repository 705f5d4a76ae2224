import Mathlib.Logic.Function.Basic
import Xinul.Lib.Wp

/-!
# `queue.h`

The lists of the kernel as `queue.h` keeps them: every list head and every element
has a `link` with two pointers, and the macros and functions work on these links
alone. `queueAdd`, `queueDel` and `queueOut` of the kernel's data model are the same
operations on the lists of elements.

A macro takes the type of the elements and the name of the field it compares; here
`κ` are the list heads, `ε` the elements, and `priofield` reads the field.
-/

namespace Xinul

namespace QueueH

/-- A `link *`: a list head, or the link of an element. -/
inductive LinkPtr (κ ε : Type) where
  | head (k : κ)
  | field (e : ε)
  deriving DecidableEq

/-- The `struct list_link` at every address; `none` is `NULL`. -/
@[ext] structure Links (κ ε : Type) where
  prev : LinkPtr κ ε → Option (LinkPtr κ ε)
  next : LinkPtr κ ε → Option (LinkPtr κ ε)

/-- The ways a list operation stops. -/
inductive LinkFault where
  /-- The assertion of `queue_add`. -/
  | queueAddAssert
  /-- The assertion of `queue_del`. -/
  | queueDelAssert
  /-- An access through `NULL`, or to the element around a list head. -/
  | wild
  /-- A loop that does not end. -/
  | hang
  deriving DecidableEq, Repr

/-- An operation on the links. -/
abbrev LinkM (κ ε : Type) := StateT (Links κ ε) (Except LinkFault)

variable {κ ε : Type} [DecidableEq κ] [DecidableEq ε]

/-- The link a pointer points to. -/
def follow (l : Option (LinkPtr κ ε)) : LinkM κ ε (LinkPtr κ ε) :=
  match l with
  | some l => pure l
  | none => throw .wild

/-- `l->next = v` and `l->prev = v`. -/
def setNext (l : LinkPtr κ ε) (v : Option (LinkPtr κ ε)) : LinkM κ ε Unit :=
  modify fun m => { m with next := Function.update m.next l v }
def setPrev (l : LinkPtr κ ε) (v : Option (LinkPtr κ ε)) : LinkM κ ε Unit :=
  modify fun m => { m with prev := Function.update m.prev l v }

/-- `queue_entry`: the element a link lies in. -/
def queueEntry (l : LinkPtr κ ε) : LinkM κ ε ε :=
  match l with
  | .field e => pure e
  | .head _ => throw .wild

/-- `INIT_LIST_HEAD`. -/
def initListHead (k : κ) : LinkM κ ε Unit := do
  setNext (.head k) (some (.head k))
  setPrev (.head k) (some (.head k))

/-- The loop of `queue_add`: from `cur` to the next link that is the head or lies in an
element whose field is not smaller than `v`. -/
def queueAddLoop (k : κ) (priofield : ε → Int) (v : Int) : Nat → LinkPtr κ ε → LinkM κ ε (LinkPtr κ ε)
  | 0, _ => throw .hang
  | n + 1, cur => do
    let cur ← follow ((← get).next cur)
    if cur ≠ .head k then
      if priofield (← queueEntry cur) < v then queueAddLoop k priofield v n cur else pure cur
    else pure cur

/-- `queue_add`, its loop being given `turns` turns. -/
def queueAdd (turns : Nat) (e : ε) (k : κ) (priofield : ε → Int) : LinkM κ ε Unit := do
  let m ← get
  if ¬ (m.prev (.field e) = none ∧ m.next (.field e) = none) then throw .queueAddAssert
  let cur ← queueAddLoop k priofield (priofield e) turns (.head k)
  setNext (.field e) (some cur)
  setPrev (.field e) ((← get).prev cur)
  setNext (← follow ((← get).prev cur)) (some (.field e))
  setPrev cur (some (.field e))

/-- `queue_empty`. -/
def queueEmpty (k : κ) : LinkM κ ε Bool := do
  pure (decide ((← get).next (.head k) = some (.head k)))

/-- `__queue_out`. -/
def queueOut (k : κ) : LinkM κ ε (Option ε) := do
  let ptrLinkRet := (← get).prev (.head k)
  if ← queueEmpty k then pure none
  else
    setPrev (.head k) ((← get).prev (← follow ((← get).prev (.head k))))
    setNext (← follow ((← get).prev (.head k))) (some (.head k))
    let ret ← follow ptrLinkRet
    setPrev ret none
    setNext ret none
    pure (some (← queueEntry ret))

/-- `queue_del`. -/
def queueDel (e : ε) : LinkM κ ε Unit := do
  let m ← get
  if ¬ (m.prev (.field e) ≠ none ∧ m.next (.field e) ≠ none) then throw .queueDelAssert
  setNext (← follow ((← get).prev (.field e))) ((← get).next (.field e))
  setPrev (← follow ((← get).next (.field e))) ((← get).prev (.field e))
  setNext (.field e) none
  setPrev (.field e) none

/-- `__queue_top`. -/
def queueTop (k : κ) : LinkM κ ε (Option ε) := do
  let ptrLinkRet := (← get).prev (.head k)
  if ← queueEmpty k then pure none
  else pure (some (← queueEntry (← follow ptrLinkRet)))

/-- `__queue_bottom`. -/
def queueBottom (k : κ) : LinkM κ ε (Option ε) := do
  let ptrLinkRet := (← get).next (.head k)
  if ← queueEmpty k then pure none
  else pure (some (← queueEntry (← follow ptrLinkRet)))

/-- `queue_for_each` and `queue_for_each_prev`, the pointer followed being `dir`: the
elements the loop visits, from the link `cur` on. -/
def queueWalkFrom (dir : Links κ ε → LinkPtr κ ε → Option (LinkPtr κ ε)) (k : κ) : Nat → LinkPtr κ ε → LinkM κ ε (List ε)
  | 0, _ => throw .hang
  | n + 1, cur => do
    if cur = .head k then pure []
    else
      let e ← queueEntry cur
      let rest ← queueWalkFrom dir k n (← follow (dir (← get) cur))
      pure (e :: rest)

/-- `queue_for_each`. -/
def queueForEach (turns : Nat) (k : κ) : LinkM κ ε (List ε) := do
  queueWalkFrom Links.next k turns (← follow ((← get).next (.head k)))

/-- `queue_for_each_prev`. -/
def queueForEachPrev (turns : Nat) (k : κ) : LinkM κ ε (List ε) := do
  queueWalkFrom Links.prev k turns (← follow ((← get).prev (.head k)))

end QueueH

end Xinul
