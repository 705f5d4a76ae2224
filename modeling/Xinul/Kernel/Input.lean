import Xinul.Kernel.Scheduler

/-!
# The console ring: `console.c`, `cons_read.c` and `keyboard.c`
-/

namespace Xinul

/-- Keys with a meaning of their own. -/
def keyBsh : UInt8 := 8
def keyHt : UInt8 := 9
def keyLf : UInt8 := 10
def keyCr : UInt8 := 13
def keyDl : UInt8 := 21
def keyDw : UInt8 := 23
def keyBs : UInt8 := 127
/-- The characters `' '`, `'\r'` and `'\n'`. -/
def charSpace : UInt8 := 32
def charReturn : UInt8 := 13
def charNewline : UInt8 := 10

namespace Console

/-- `console_dev->buffer[i]`. The byte before the buffer is the field `ignore`,
which `register_console` clears. -/
def byteAt (c : Console) (i : Int) : UInt8 :=
  if i < 0 then 0 else c.buffer i.toNat

/-- `is_buffer_full`. -/
def isBufferFull (c : Console) : Bool :=
  if c.lastWrittenCharIndex = -1 then false
  else Int.tmod (c.lastWrittenCharIndex + 1) bufferSize = c.startOfBufferIndex

/-- `is_buffer_empty`. -/
def isBufferEmpty (c : Console) : Bool := c.lastWrittenCharIndex = -1

/-- `kaddtobuffer`. -/
def kaddtobuffer (c : Console) (k : UInt8) : Console :=
  if c.isBufferFull then c
  else
    let i := Int.tmod (c.lastWrittenCharIndex + 1) bufferSize
    { c with lastWrittenCharIndex := i, buffer := Function.update c.buffer i.toNat k }

/-- `buffer_current_size`. -/
def bufferCurrentSize (c : Console) : Nat :=
  let r := Int.tmod (c.lastWrittenCharIndex - c.startOfBufferIndex + 1) bufferSize
  (if r < 0 then r + bufferSize else r).toNat

/-- The loop of `detected_eol`: where it stops, within `fuel` turns. -/
def eolWalk (c : Console) : Nat → Nat → Option Nat
  | 0, _ => none
  | n + 1, temp =>
    if (temp : Int) ≠ c.lastWrittenCharIndex ∧ c.buffer temp ≠ charNewline then
      eolWalk c n ((temp + 1) % bufferSize)
    else some temp

/-- `detected_eol`. -/
def detectedEol (c : Console) : Option Bool :=
  if c.isBufferEmpty then some false
  else (c.eolWalk (bufferSize + 1) c.startOfBufferIndex.toNat).map fun temp => c.buffer temp = charNewline

/-- The loop of `copy`: the ring, the characters taken and the index reached. -/
def copyWalk (last : Int) : Nat → Nat → Nat → (Nat → UInt8) → List UInt8 →
    Option ((Nat → UInt8) × List UInt8 × Nat)
  | 0, _, _, _, _ => none
  | n + 1, room, temp, buf, out =>
    if 0 < room ∧ buf temp ≠ charNewline ∧ (temp : Int) ≠ last then
      copyWalk last n (room - 1) ((temp + 1) % bufferSize) (Function.update buf temp 0)
        (out ++ [buf temp])
    else some (buf, out, temp)

/-- `copy`: the new ring and the characters given to the caller. -/
def copy (c : Console) (length : Nat) : Option (Console × List UInt8) :=
  (copyWalk c.lastWrittenCharIndex (bufferSize + 1) length c.startOfBufferIndex.toNat c.buffer []).map
    fun (buf, out, temp) =>
      if out.length ≥ length then
        ({ c with buffer := buf, startOfBufferIndex := temp }, out)
      else if (temp : Int) = c.lastWrittenCharIndex ∧ buf temp ≠ charNewline then
        ({ c with buffer := Function.update buf temp 0, startOfBufferIndex := 0,
                  lastWrittenCharIndex := -1 }, out ++ [buf temp])
      else if (temp : Int) = c.lastWrittenCharIndex ∧ buf temp = charNewline then
        ({ c with buffer := buf, startOfBufferIndex := 0, lastWrittenCharIndex := -1 }, out)
      else if buf temp = charNewline then
        ({ c with buffer := Function.update buf temp 0,
                  startOfBufferIndex := ((temp + 1) % bufferSize : Nat) }, out)
      else ({ c with buffer := buf }, out)

/-- `is_printable`. -/
def isPrintable (k : UInt8) : Bool := k < 127 ∧ k > 31

/-- `delete_last`; writing `buffer[-1]` would clear `ignore`. -/
def deleteLast (c : Console) : Console :=
  { c with
    buffer := if c.lastWrittenCharIndex < 0 then c.buffer
      else Function.update c.buffer c.lastWrittenCharIndex.toNat 0
    lastWrittenCharIndex := c.lastWrittenCharIndex - 1 }

/-- `kaddtobuffer(' ')`, `n` times. -/
def addSpaces (c : Console) : Nat → Console
  | 0 => c
  | n + 1 => (c.kaddtobuffer charSpace).addSpaces n

/-- A loop of the editing keys: while the ring is not empty and the character
before the last one satisfies `p`, `delete_last` unless `keep`. -/
def eraseWhile (p : UInt8 → Bool) (keep : Bool) : Nat → Console → Option Console
  | 0, _ => none
  | n + 1, c =>
    if c.lastWrittenCharIndex ≠ -1 ∧ p (c.byteAt (c.lastWrittenCharIndex - 1)) then
      eraseWhile p keep n (if keep then c else c.deleteLast)
    else some c

/-- The part of `handle_keyboard_interrupt` that edits the ring; `none` when one
of its loops does not end. A loop that ends does so within one turn per slot. -/
def key (c : Console) (k : UInt8) : Option Console :=
  if isPrintable k then some (c.kaddtobuffer k)
  else if k = keyHt then
    some (c.addSpaces (8 - Int.tmod c.lastWrittenCharIndex 8).toNat)
  else if k = keyBs ∨ k = keyBsh then
    if c.lastWrittenCharIndex ≠ -1 ∧ c.byteAt (c.lastWrittenCharIndex - 1) ≠ charReturn then
      some c.deleteLast
    else some c
  else if k = keyLf then some (c.kaddtobuffer k)
  else if k = keyDl then
    eraseWhile (· ≠ charReturn) false (bufferSize + 1) c
  else if k = keyDw then do
    let c ← eraseWhile (· = charSpace) (!c.echo) (bufferSize + 1) c
    eraseWhile (· ≠ charSpace) (!c.echo) (bufferSize + 1) c
  else if k = keyCr then some (c.kaddtobuffer charNewline)
  else some c

end Console

/-- A computation on the ring that may not end. -/
def ofConsole {α : Type} (o : Option α) : KernelM α :=
  match o with
  | some a => pure a
  | none => throw .hang

/-- `cons_echo`. -/
def consEcho (on : Int) : KernelM Unit := do
  modify fun s => { s with console := { s.console with echo := on ≠ 0 } }
  answer 0 []

/-- A turn of the loop of `cons_read`, and what follows it. -/
def consReadLoop (length : Nat) : KernelM Unit := do
  let c := (← get).console
  let eol ← ofConsole c.detectedEol
  if eol = false ∧ c.isBufferFull = false ∧ length > c.bufferCurrentSize then
    match ← getCurrentProcess with
    | none => throw .nullPointer
    | some proc =>
      modifyProc proc fun r => { r with state := .blockedIo }
      queueAdd proc .blockedIo Process.prioField
      schedule (.consRead length)
  else if c.lastWrittenCharIndex = -1 then throw .copyAssert
  else
    let (c', out) ← ofConsole (c.copy length)
    modify fun s => { s with console := c' }
    answer out.length (out.map fun k => (k.toNat : Int))

/-- `cons_read`. -/
def consRead (length : Nat) : KernelM Unit :=
  if length = 0 then answer 0 [] else consReadLoop length

/-- `handle_keyboard_interrupt` on the key `k`, in the context `after`. -/
def handleKeyboardInterrupt (k : UInt8) (after : Context) : KernelM Unit := do
  let c ← ofConsole ((← get).console.key k)
  modify fun s => { s with console := c }
  match ← queueOut .blockedIo with
  | none => saveContext after
  | some next =>
    modifyProc next fun r => { r with state := .activatable }
    queueAdd next .activatable Process.prioField
    schedule after

end Xinul
