import Xinul.Lib.Probe

/-!
# The generic hash table: `hash.c`

Keys and values are `void *` words. A table compares and hashes its keys through
two functions; those of a string table read the strings the keys point to, so
every operation takes the strings in memory at the time of the call.

`mem_alloc` is taken from outside: a `Heap` says which requests it grants, and no
request larger than the largest heap of the linker scripts is granted. A table
therefore stays far below the sizes at which a `long` or the `int` index of
`hash_copy` would overflow, and `fill` and `count` are plain integers.

The loop of `hash_lookup` has no bound of its own; `fuel` is the number of slots
it looks at, and `none` says that it has not returned by then.
-/

namespace Xinul

/-- A `void *` of a hash table. -/
abbrev Word := BitVec 64

/-- A `char *` string: the characters before the `'\0'`. -/
@[ext] structure CString where
  chars : List (BitVec 8)
  nonzero : ∀ c ∈ chars, c ≠ 0#8
  deriving DecidableEq

/-- The strings that addresses point to. -/
abbrev Strings := Word → CString

/-- `enum slot_mode`. -/
inductive SlotMode where
  | empty
  | active
  | deleted
  deriving DecidableEq, Repr

/-- `hash_slot_t`. -/
structure HashSlot where
  key : Word
  value : Word
  hash : BitVec 64
  mode : SlotMode
  deriving DecidableEq, Repr

/-- `hash_t`. -/
structure HashTable where
  fill : Int
  count : Int
  mask : BitVec 64
  table : List HashSlot
  hfunc : Strings → Word → BitVec 64
  cmp : Strings → Word → Word → Bool

/-- `HASH_MINSIZE`. -/
def hashMinsize : BitVec 64 := 8

/-- `sizeof(hash_slot_t)`. -/
def sizeofHashSlot : BitVec 64 := 32

/-- The largest `_heap_end - _heap_start` of the linker scripts: 32M. -/
def heapSize : Nat := 32 * 2 ^ 20

/-- The requests that `mem_alloc` grants at some point of a run. -/
structure Heap where
  grants : BitVec 64 → Bool
  within : ∀ n, grants n = true → n.toNat ≤ heapSize

/-- A slot as `hash_initialize` leaves it. -/
def emptySlot : HashSlot := ⟨0, 0, 0, .empty⟩

/-- `hash_initialize`. -/
def hashInitialize (heap : Heap) (map : HashTable) (size : BitVec 64) : Int × HashTable :=
  if heap.grants (size * sizeofHashSlot) then
    (0, { map with fill := 0, count := 0, mask := size - 1, table := List.replicate size.toNat emptySlot })
  else (-1, map)

/-- The test of `hash_lookup` on an active slot. -/
def HashTable.sameKey (map : HashTable) (strings : Strings) (slot : HashSlot) (key : Word) (hash : BitVec 64) : Bool :=
  slot.key = key || (slot.hash = hash && map.cmp strings slot.key key)

/-- The loop of `hash_lookup`: the index of the slot it returns. `index` and
`perturb` are the fields of the cursor. -/
def hashLookupLoop (strings : Strings) (map : HashTable) (key : Word) (hash : BitVec 64) :
    Nat → Probe.Cursor 64 → Option Nat → Option Nat
  | 0, _, _ => none
  | fuel + 1, c, freeslot => do
    let i := c.slot map.mask
    let slot ← map.table[i]?
    if slot.mode = .empty then some (freeslot.getD i)
    else if slot.mode = .active ∧ map.sameKey strings slot key hash then some i
    else
      let freeslot := if slot.mode = .deleted ∧ freeslot = none then some i else freeslot
      hashLookupLoop strings map key hash fuel c.next freeslot

/-- `hash_lookup`. -/
def hashLookup (fuel : Nat) (strings : Strings) (map : HashTable) (key : Word) (hash : BitVec 64) : Option Nat :=
  hashLookupLoop strings map key hash fuel ⟨hash &&& map.mask, hash⟩ none

/-- One turn of the loop of `hash_copy`. -/
def hashCopySlot (fuel : Nat) (strings : Strings) (map : HashTable) (old : HashSlot) : Option HashTable :=
  if old.mode ≠ .active then some map
  else do
    let new ← hashLookup fuel strings map old.key (map.hfunc strings old.key)
    some { map with
      table := map.table.set new ⟨old.key, old.value, old.hash, .active⟩
      fill := map.fill + 1
      count := map.count + 1 }

/-- `hash_copy`. -/
def hashCopy (fuel : Nat) (strings : Strings) (map : HashTable) (oldtable : List HashSlot) : Option HashTable :=
  oldtable.foldlM (hashCopySlot fuel strings) map

/-- The end of `hash_update`: the slots move to a table of the new size. -/
def hashResize (fuel : Nat) (strings : Strings) (heap : Heap) (map : HashTable) (newSize : BitVec 64) :
    Option (Int × HashTable) :=
  let (r, new) := hashInitialize heap map newSize
  if r = -1 then some (-1, new)
  else do
    let new ← hashCopy fuel strings new map.table
    some (0, new)

/-- `hash_update`. -/
def hashUpdate (fuel : Nat) (strings : Strings) (heap : Heap) (map : HashTable) : Option (Int × HashTable) :=
  let oldSize := map.mask + 1
  if 3 * map.fill ≥ 2 * oldSize.toInt then
    let newSize := oldSize <<< 1
    if newSize.slt oldSize then some (-1, map)
    else hashResize fuel strings heap map newSize
  else if hashMinsize.slt oldSize ∧ 4 * map.count ≤ oldSize.toInt then
    hashResize fuel strings heap map (oldSize.sshiftRight 1)
  else some (0, map)

/-- `hash_init`. -/
def hashInit (heap : Heap) (map : HashTable) (hfunc : Strings → Word → BitVec 64)
    (cmp : Strings → Word → Word → Bool) : Int × HashTable :=
  let (r, map) := hashInitialize heap map hashMinsize
  if r = -1 then (-1, map) else (0, { map with hfunc := hfunc, cmp := cmp })

/-- `hash_isset`. -/
def hashIsset (fuel : Nat) (strings : Strings) (map : Option HashTable) (key : Word) : Option Int :=
  match map with
  | none => some 0
  | some map => do
    let i ← hashLookup fuel strings map key (map.hfunc strings key)
    let slot ← map.table[i]?
    some (if slot.mode = .active then 1 else 0)

/-- `hash_get`. -/
def hashGet (fuel : Nat) (strings : Strings) (map : Option HashTable) (key default : Word) : Option Word :=
  match map with
  | none => some default
  | some map => do
    let i ← hashLookup fuel strings map key (map.hfunc strings key)
    let slot ← map.table[i]?
    some (if slot.mode = .active then slot.value else default)

/-- `hash_set`. -/
def hashSet (fuel : Nat) (strings : Strings) (heap : Heap) (map : Option HashTable) (key value : Word) :
    Option (Int × Option HashTable) :=
  match map with
  | none => some (-1, none)
  | some map => do
    let hash := map.hfunc strings key
    let i ← hashLookup fuel strings map key hash
    let slot ← map.table[i]?
    if slot.mode = .active then
      some (0, some { map with table := map.table.set i { slot with value := value } })
    else
      let (r, map) ← hashUpdate fuel strings heap { map with
        count := map.count + 1
        fill := if slot.mode = .empty then map.fill + 1 else map.fill
        table := map.table.set i ⟨key, value, hash, .active⟩ }
      some (r, some map)

/-- `hash_del`. -/
def hashDel (fuel : Nat) (strings : Strings) (heap : Heap) (map : Option HashTable) (key : Word) :
    Option (Int × Option HashTable) :=
  match map with
  | none => some (-1, none)
  | some map => do
    let i ← hashLookup fuel strings map key (map.hfunc strings key)
    let slot ← map.table[i]?
    if slot.mode ≠ .active then some (0, some map)
    else
      let (r, map) ← hashUpdate fuel strings heap { map with
        table := map.table.set i ⟨0, 0, 0, .deleted⟩
        count := map.count - 1 }
      some (r, some map)

/-! ## The predefined tables -/

/-- `hash_direct_cmp`. -/
def hashDirectCmp (_ : Strings) (key1 key2 : Word) : Bool := key1 = key2

/-- `hash_direct_hfunc`. -/
def hashDirectHfunc (_ : Strings) (key : Word) : BitVec 64 := key

/-- `strcmp`: the loop stops at the first difference or at the end of a string,
and the two characters there are subtracted. -/
def strcmp : List (BitVec 8) → List (BitVec 8) → Int
  | [], [] => 0
  | [], c :: _ => -(c.toNat : Int)
  | c :: _, [] => c.toNat
  | c :: s, d :: t => if c = d then strcmp s t else c.toNat - d.toNat

/-- `hash_string_cmp`. -/
def hashStringCmp (strings : Strings) (key1 key2 : Word) : Bool :=
  strcmp (strings key1).chars (strings key2).chars = 0

/-- `hash_string_hfunc`; `char` is unsigned on the target. -/
def hashStringHfunc (strings : Strings) (key : Word) : BitVec 64 :=
  (strings key).chars.foldl (fun hash c => ((hash <<< 5) + hash) ^^^ c.zeroExtend 64) 5381

/-- `hash_init_direct`. -/
def hashInitDirect (heap : Heap) (map : HashTable) : Int × HashTable :=
  hashInit heap map hashDirectHfunc hashDirectCmp

/-- `hash_init_string`. -/
def hashInitString (heap : Heap) (map : HashTable) : Int × HashTable :=
  hashInit heap map hashStringHfunc hashStringCmp

end Xinul
