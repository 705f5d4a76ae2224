import Xinul.Kernel.Input

/-!
# The accesses of `handle_keyboard_interrupt`

`Console.key` says what the handler of `keyboard.c` makes of the ring. Here the handler is
run with a number of turns for its loops, and every index at which it accesses
`console_dev->buffer` is recorded.
-/

namespace Xinul

/-- What the handler has done so far: the ring, the indices of `buffer` it accessed, and
whether it came to the end of its loops. -/
structure Handling where
  ring : Console
  touched : List Int
  ended : Bool

namespace Handling

/-- An access to `console_dev->buffer[i]`. -/
def touch (h : Handling) (i : Int) : Handling := { h with touched := h.touched ++ [i] }

/-- `kaddtobuffer`. -/
def kaddtobuffer (h : Handling) (k : UInt8) : Handling :=
  if h.ring.isBufferFull then h
  else { h.touch (Int.tmod (h.ring.lastWrittenCharIndex + 1) bufferSize) with ring := h.ring.kaddtobuffer k }

/-- `kaddtobuffer(' ')`, `n` times. -/
def addSpaces (h : Handling) : Nat → Handling
  | 0 => h
  | n + 1 => (h.kaddtobuffer charSpace).addSpaces n

/-- `delete_last`. -/
def deleteLast (h : Handling) : Handling :=
  { h.touch h.ring.lastWrittenCharIndex with ring := h.ring.deleteLast }

/-- A loop of the editing keys, for so many turns: while the ring is not empty and the
character before the last one satisfies `p`, `delete_last` unless `keep`. -/
def eraseWhile (p : UInt8 → Bool) (keep : Bool) : Nat → Handling → Handling
  | 0, h => { h with ended := false }
  | n + 1, h =>
    if h.ring.lastWrittenCharIndex ≠ -1 then
      if p (h.ring.byteAt (h.ring.lastWrittenCharIndex - 1)) then
        eraseWhile p keep n (if keep then h.touch (h.ring.lastWrittenCharIndex - 1)
          else (h.touch (h.ring.lastWrittenCharIndex - 1)).deleteLast)
      else h.touch (h.ring.lastWrittenCharIndex - 1)
    else h

end Handling

/-- `handle_keyboard_interrupt` up to the waking of a reader, each loop taking at most
`turns` turns. -/
def Console.handle (turns : Nat) (c : Console) (k : UInt8) : Handling :=
  let h : Handling := ⟨c, [], true⟩
  if isPrintable k then h.kaddtobuffer k
  else if k = keyHt then h.addSpaces (8 - Int.tmod c.lastWrittenCharIndex 8).toNat
  else if k = keyBs ∨ k = keyBsh then
    if c.lastWrittenCharIndex ≠ -1 then
      let h := h.touch (c.lastWrittenCharIndex - 1)
      if c.byteAt (c.lastWrittenCharIndex - 1) ≠ charReturn then h.deleteLast else h
    else h
  else if k = keyLf then h.kaddtobuffer k
  else if k = keyDl then h.eraseWhile (· ≠ charReturn) false turns
  else if k = keyDw then
    let h := h.eraseWhile (· = charSpace) (!c.echo) turns
    if h.ended then h.eraseWhile (· ≠ charSpace) (!h.ring.echo) turns else h
  else if k = keyCr then h.kaddtobuffer charNewline
  else h

end Xinul
