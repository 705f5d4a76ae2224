import Mathlib.Tactic.Push
import Xinul.Kernel.Hash
import Xinul.Lib.Cells

/-!
# What the operations of `hash.c` do to a table

The slots of a table are the cells of an open-addressed table whose keys are what
the table compares: addresses or strings. `hash_lookup` follows the walk of a key
to its stop; `hash_copy` puts every active slot into an empty table.
-/

namespace Xinul

variable {K : Type} {strings : Strings} {map : HashTable} {key : Word → K} {code : K → BitVec 64} {bits n fuel : Nat}

/-- The slot `hash_lookup` looks at after `n` steps. -/
def hashWalk (mask hash : BitVec 64) (n : Nat) : Nat :=
  (Probe.Cursor.next^[n] ⟨hash &&& mask, hash⟩).slot mask

/-- A slot with its key as the table compares it. -/
def HashSlot.cell (key : Word → K) (slot : HashSlot) : Cell K Word :=
  match slot.mode with
  | .empty => .empty
  | .active => .active (key slot.key) slot.value
  | .deleted => .deleted

theorem HashSlot.cell_empty {slot : HashSlot} (h : slot.mode = .empty) : slot.cell key = .empty := by
  rw [cell, h]

theorem HashSlot.cell_active {slot : HashSlot} (h : slot.mode = .active) :
    slot.cell key = .active (key slot.key) slot.value := by
  rw [cell, h]

theorem HashSlot.cell_deleted {slot : HashSlot} (h : slot.mode = .deleted) : slot.cell key = .deleted := by
  rw [cell, h]

/-- The slots of a table as cells. -/
def HashTable.cells (map : HashTable) (key : Word → K) : List (Cell K Word) := map.table.map (HashSlot.cell key)

/-- The table compares keys by `key`, and the hash of a key is a function of that. -/
structure HashTable.Compares (map : HashTable) (strings : Strings) (key : Word → K) (code : K → BitVec 64) : Prop where
  cmp : ∀ a b, map.cmp strings a b = true ↔ key a = key b
  hash : ∀ a, map.hfunc strings a = code (key a)

/-- A table of `2 ^ bits` slots in which every key is on its walk. -/
structure HashTable.Good (map : HashTable) (strings : Strings) (key : Word → K) (code : K → BitVec 64) (bits : Nat) :
    Prop where
  compares : map.Compares strings key code
  length : map.table.length = 2 ^ bits
  mask : map.mask = BitVec.ofNat 64 (2 ^ bits - 1)
  bits_lt : bits < 64
  hashes : ∀ slot ∈ map.table, slot.mode = .active → slot.hash = code (key slot.key)
  sound : Cells.Sound (map.cells key) fun k => hashWalk map.mask (code k)
  fill : map.fill = Cells.filled (map.cells key)
  count : map.count = Cells.live (map.cells key)

theorem HashTable.cells_getElem (map : HashTable) (key : Word → K) (i : Nat) :
    (map.cells key)[i]? = map.table[i]?.map (HashSlot.cell key) := List.getElem?_map

theorem HashTable.Good.length_cells (h : map.Good strings key code bits) : (map.cells key).length = 2 ^ bits := by
  rw [HashTable.cells, List.length_map, h.length]

theorem HashTable.Good.walk_lt (h : map.Good strings key code bits) (hash : BitVec 64) (n : Nat) :
    hashWalk map.mask hash n < (map.cells key).length := by
  rw [h.length_cells, hashWalk, h.mask, Probe.Cursor.slot_eq h.bits_lt]
  exact Nat.mod_lt _ (Nat.two_pow_pos bits)

/-- The walk of a key stops within 13 steps more than there are slots. -/
theorem HashTable.Good.exists_stops (h : map.Good strings key code bits)
    (hroom : Cells.filled (map.cells key) < 2 ^ bits) (k : K) :
    ∃ n x, n < 13 + 2 ^ bits ∧ Cells.Stops (map.cells key) (hashWalk map.mask (code k)) k n x := by
  apply Cells.exists_stops (h.walk_lt _)
  obtain ⟨i, hi⟩ := Cells.exists_empty (by rw [h.length_cells]; exact hroom)
  obtain ⟨hlt, -⟩ := List.getElem?_eq_some_iff.1 hi
  rw [h.length_cells] at hlt
  obtain ⟨m, hm, e⟩ := Probe.Cursor.covers h.bits_lt (t := 13) (by decide) ⟨code k &&& map.mask, code k⟩ hlt
  refine ⟨m, hm, ?_⟩
  rw [hashWalk]
  nth_rewrite 2 [h.mask]
  rw [e, hi]

/-- The test of `hash_lookup` compares the keys. -/
theorem HashTable.Good.sameKey_iff (h : map.Good strings key code bits) {slot : HashSlot} (hm : slot ∈ map.table)
    (ha : slot.mode = .active) (a : Word) :
    map.sameKey strings slot a (map.hfunc strings a) = true ↔ key slot.key = key a := by
  simp only [HashTable.sameKey, Bool.or_eq_true, Bool.and_eq_true, decide_eq_true_eq, h.compares.cmp]
  constructor
  · rintro (rfl | ⟨-, e⟩)
    · rfl
    · exact e
  · intro e
    rw [h.hashes slot hm ha, h.compares.hash, e]
    exact .inr ⟨rfl, rfl⟩

/-- Where `hash_lookup` lands when the walk stops after `n` cells at `x`. -/
def Lands (cells : List (Cell K Word)) (walk : Nat → Nat) (k : K) (n : Nat) (x : Cell K Word) (i : Nat) : Prop :=
  ((∃ v, x = .active k v) ∧ i = walk n) ∨
    (x = .empty ∧ ∃ m, m ≤ n ∧ i = walk m ∧ (cells[i]? = some .empty ∨ cells[i]? = some .deleted))

/-- The loop of `hash_lookup` from step `m` of a walk that stops after `n`. -/
theorem HashTable.Good.lookupLoop (h : map.Good strings key code bits) {a : Word} {x : Cell K Word}
    (hs : Cells.Stops (map.cells key) (hashWalk map.mask (code (key a))) (key a) n x) (d : Nat) :
    ∀ m free, m + d = n → d < fuel →
      (∀ i, free = some i → ∃ j, j < m ∧ i = hashWalk map.mask (code (key a)) j ∧
        (map.cells key)[i]? = some .deleted) →
      ∃ i, hashLookupLoop strings map a (map.hfunc strings a) fuel
          (Probe.Cursor.next^[m] ⟨code (key a) &&& map.mask, code (key a)⟩) free = some i ∧
        Lands (map.cells key) (hashWalk map.mask (code (key a))) (key a) n x i := by
  induction d generalizing fuel with
  | zero =>
    rintro m free rfl hfuel hfree
    obtain ⟨fuel, rfl⟩ : ∃ f, fuel = f + 1 := ⟨fuel - 1, by omega⟩
    have here := hs.here
    rw [HashTable.cells_getElem, Option.map_eq_some_iff] at here
    obtain ⟨slot, hslot, hcell⟩ := here
    rw [Nat.add_zero] at hslot
    have hslot' : map.table[(Probe.Cursor.next^[m] ⟨code (key a) &&& map.mask, code (key a)⟩).slot map.mask]? =
      some slot := hslot
    rw [hashLookupLoop, hslot']
    simp only [Option.bind_eq_bind, Option.bind_some]
    cases hmode : slot.mode with
    | empty =>
      rw [HashSlot.cell_empty hmode] at hcell
      subst hcell
      rw [if_pos rfl]
      refine ⟨_, rfl, .inr ⟨rfl, ?_⟩⟩
      cases free with
      | none => exact ⟨m, Nat.le_refl _, rfl, .inl hs.here⟩
      | some i =>
        obtain ⟨j, hj, rfl, hd⟩ := hfree i rfl
        exact ⟨j, Nat.le_of_lt hj, rfl, .inr hd⟩
    | active =>
      rw [HashSlot.cell_active hmode] at hcell
      subst hcell
      have hk : key slot.key = key a := by
        by_contra hne
        exact hs.stop hne
      have hsame := (h.sameKey_iff (List.mem_of_getElem? hslot) hmode a).2 hk
      rw [if_neg (by decide), if_pos ⟨rfl, hsame⟩]
      exact ⟨_, rfl, .inl ⟨⟨slot.value, by rw [hk]⟩, rfl⟩⟩
    | deleted =>
      rw [HashSlot.cell_deleted hmode] at hcell
      subst hcell
      exact absurd trivial hs.stop
  | succ d ih =>
    rintro m free rfl hfuel hfree
    obtain ⟨fuel, rfl⟩ : ∃ f, fuel = f + 1 := ⟨fuel - 1, by omega⟩
    obtain ⟨y, hy, hpass⟩ := hs.passes m (by omega)
    rw [HashTable.cells_getElem, Option.map_eq_some_iff] at hy
    obtain ⟨slot, hslot, rfl⟩ := hy
    have hslot' : map.table[(Probe.Cursor.next^[m] ⟨code (key a) &&& map.mask, code (key a)⟩).slot map.mask]? =
      some slot := hslot
    rw [hashLookupLoop, hslot']
    simp only [Option.bind_eq_bind, Option.bind_some, ← Function.iterate_succ_apply']
    rw [if_neg, if_neg]
    · apply ih (m + 1) _ (by omega) (by omega)
      intro i hi
      split at hi
      next hc =>
        cases hi
        refine ⟨m, Nat.lt_succ_self m, rfl, ?_⟩
        rw [HashTable.cells_getElem, hslot', Option.map_some, HashSlot.cell_deleted hc.1]
      next =>
        obtain ⟨j, hj, e⟩ := hfree i hi
        exact ⟨j, Nat.lt_succ_of_lt hj, e⟩
    · rintro ⟨hmode, hsame⟩
      rw [h.sameKey_iff (List.mem_of_getElem? hslot) hmode a] at hsame
      rw [HashSlot.cell_active hmode] at hpass
      exact hpass hsame
    · intro hmode
      rw [HashSlot.cell_empty hmode] at hpass
      exact hpass

/-- `hash_lookup` returns. -/
theorem HashTable.Good.lookup (h : map.Good strings key code bits) (a : Word) {x : Cell K Word}
    (hs : Cells.Stops (map.cells key) (hashWalk map.mask (code (key a))) (key a) n x) (hfuel : n < fuel) :
    ∃ i, hashLookup fuel strings map a (map.hfunc strings a) = some i ∧
      Lands (map.cells key) (hashWalk map.mask (code (key a))) (key a) n x i := by
  have := h.lookupLoop hs n 0 none (by omega) hfuel (by rintro i ⟨⟩)
  rw [Function.iterate_zero, id, ← h.compares.hash] at this
  rw [hashLookup]
  rw [h.compares.hash] at this ⊢
  exact this

/-! ## One slot changes -/

/-- What `hash_lookup` finds: the slot of the key, or a slot for it. -/
inductive Found (map : HashTable) (key : Word → K) (code : K → BitVec 64) (k : K) (i : Nat) (slot : HashSlot) : Prop where
  | hit (active : slot.mode = .active) (same : key slot.key = k)
  | miss (free : slot.mode ≠ .active) (absent : ∀ v, ¬ Cells.Holds (map.cells key) k v) (n : Nat)
      (walk : hashWalk map.mask (code k) n = i)
      (passes : Cells.Passes (map.cells key) (hashWalk map.mask (code k)) k n)

/-- `hash_lookup` returns in a table that is not full. -/
theorem HashTable.Good.found (h : map.Good strings key code bits)
    (hroom : Cells.filled (map.cells key) < 2 ^ bits) (hfuel : 13 + 2 ^ bits ≤ fuel) (a : Word) :
    ∃ i slot, hashLookup fuel strings map a (map.hfunc strings a) = some i ∧ map.table[i]? = some slot ∧
      Found map key code (key a) i slot := by
  obtain ⟨n, x, hn, hs⟩ := h.exists_stops hroom (key a)
  obtain ⟨i, hi, hl⟩ := h.lookup a hs (Nat.lt_of_lt_of_le hn hfuel)
  obtain ⟨⟨v, rfl⟩, rfl⟩ | ⟨rfl, m, hm, rfl, hcell⟩ := hl
  · have here := hs.here
    rw [HashTable.cells_getElem, Option.map_eq_some_iff] at here
    obtain ⟨slot, hslot, hcell⟩ := here
    refine ⟨_, slot, hi, hslot, ?_⟩
    cases hmode : slot.mode with
    | empty => rw [HashSlot.cell_empty hmode] at hcell; cases hcell
    | active =>
      rw [HashSlot.cell_active hmode] at hcell
      injection hcell with hk
      exact .hit hmode hk
    | deleted => rw [HashSlot.cell_deleted hmode] at hcell; cases hcell
  · rw [HashTable.cells_getElem, Option.map_eq_some_iff, Option.map_eq_some_iff] at hcell
    obtain ⟨slot, hslot, hne⟩ : ∃ slot, map.table[hashWalk map.mask (code (key a)) m]? = some slot ∧
        slot.mode ≠ .active := by
      obtain ⟨slot, hslot, hc⟩ | ⟨slot, hslot, hc⟩ := hcell
      all_goals
        refine ⟨slot, hslot, fun ha => ?_⟩
        rw [HashSlot.cell_active ha] at hc
        cases hc
    exact ⟨_, slot, hi, hslot, .miss hne (fun v => h.sound.miss hs) m rfl fun j hj => hs.passes j (by omega)⟩

/-- The tables in which one slot has changed. -/
def HashTable.put (map : HashTable) (i : Nat) (slot : HashSlot) (fill count : Int) : HashTable :=
  { map with table := map.table.set i slot, fill := fill, count := count }

theorem HashTable.cells_put (i : Nat) (slot : HashSlot) (fill count : Int) :
    (map.put i slot fill count).cells key = (map.cells key).set i (slot.cell key) := by
  simp only [cells, put, List.map_set]

/-- A change of one slot keeps a table good when the cells stay sound and the
counts follow. -/
theorem HashTable.Good.put (h : map.Good strings key code bits) {i : Nat} {old slot : HashSlot}
    (hi : map.table[i]? = some old)
    (hsound : Cells.Sound ((map.cells key).set i (slot.cell key)) fun k => hashWalk map.mask (code k))
    (hhash : slot.mode = .active → slot.hash = code (key slot.key)) {fill count : Int}
    (hfill : fill + (if old.mode = .empty then 0 else 1) = map.fill + (if slot.mode = .empty then 0 else 1))
    (hcount : count + (if old.mode = .active then 1 else 0) = map.count + (if slot.mode = .active then 1 else 0)) :
    (map.put i slot fill count).Good strings key code bits := by
  have filled (s : HashSlot) : (s.cell key).filled = !decide (s.mode = .empty) := by
    cases hm : s.mode <;> simp [HashSlot.cell, hm, Cell.filled]
  have live (s : HashSlot) : (s.cell key).key?.isSome = decide (s.mode = .active) := by
    cases hm : s.mode <;> simp [HashSlot.cell, hm, Cell.key?]
  have hold : (map.cells key)[i]? = some (old.cell key) := by rw [HashTable.cells_getElem, hi, Option.map_some]
  refine ⟨⟨h.compares.cmp, h.compares.hash⟩, ?_, h.mask, h.bits_lt, ?_, ?_, ?_, ?_⟩
  · rw [HashTable.put, List.length_set, h.length]
  · intro s hs ha
    obtain hm | rfl := List.mem_or_eq_of_mem_set hs
    · exact h.hashes s hm ha
    · exact hhash ha
  · rw [HashTable.cells_put]
    exact hsound
  · have e := Cells.countP_set Cell.filled hold (slot.cell key)
    rw [filled, filled] at e
    rw [HashTable.cells_put]
    have hf := h.fill
    unfold Cells.filled at hf ⊢
    simp only [HashTable.put]
    by_cases h1 : old.mode = .empty <;> by_cases h2 : slot.mode = .empty <;> simp [h1, h2] at e hfill <;> omega
  · have e := Cells.countP_set (fun x : Cell K Word => x.key?.isSome) hold (slot.cell key)
    rw [live, live] at e
    rw [HashTable.cells_put]
    have hc := h.count
    unfold Cells.live at hc ⊢
    simp only [HashTable.put]
    by_cases h1 : old.mode = .active <;> by_cases h2 : slot.mode = .active <;> simp [h1, h2] at e hcount <;> omega

/-- The slot of a key takes another value. -/
theorem HashTable.Good.update (h : map.Good strings key code bits) {i : Nat} {slot : HashSlot} {k : K}
    (hi : map.table[i]? = some slot) (ha : slot.mode = .active) (hk : key slot.key = k) (value : Word) :
    (map.put i { slot with value := value } map.fill map.count).Good strings key code bits ∧
      ∀ k' v', Cells.Holds ((map.put i { slot with value := value } map.fill map.count).cells key) k' v' ↔
        (k' = k ∧ v' = value) ∨ (k' ≠ k ∧ Cells.Holds (map.cells key) k' v') := by
  have hold : (map.cells key)[i]? = some (.active k slot.value) := by
    rw [HashTable.cells_getElem, hi, Option.map_some, HashSlot.cell_active ha, hk]
  have hnew : ({ slot with value := value } : HashSlot).cell key = .active k value := by
    rw [@HashSlot.cell_active _ key { slot with value := value } ha, hk]
  constructor
  · apply h.put hi
    · rw [hnew]
      exact h.sound.replace hold (.inr ⟨value, rfl⟩)
    · exact fun _ => h.hashes slot (List.mem_of_getElem? hi) ha
    · rfl
    · rfl
  · intro k' v'
    rw [HashTable.cells_put, hnew, h.sound.holds_replace hold, Cell.active.injEq, eq_comm, @eq_comm _ value]

/-- The slot of a key is deleted. -/
theorem HashTable.Good.delete (h : map.Good strings key code bits) {i : Nat} {slot : HashSlot} {k : K}
    (hi : map.table[i]? = some slot) (ha : slot.mode = .active) (hk : key slot.key = k) :
    (map.put i ⟨0, 0, 0, .deleted⟩ map.fill (map.count - 1)).Good strings key code bits ∧
      ∀ k' v', Cells.Holds ((map.put i ⟨0, 0, 0, .deleted⟩ map.fill (map.count - 1)).cells key) k' v' ↔
        k' ≠ k ∧ Cells.Holds (map.cells key) k' v' := by
  have hold : (map.cells key)[i]? = some (.active k slot.value) := by
    rw [HashTable.cells_getElem, hi, Option.map_some, HashSlot.cell_active ha, hk]
  have hnew : (⟨0, 0, 0, .deleted⟩ : HashSlot).cell key = .deleted := rfl
  constructor
  · apply h.put hi
    · rw [hnew]
      exact h.sound.replace hold (.inl rfl)
    · rintro ⟨⟩
    · simp [ha]
    · simp [ha]
  · intro k' v'
    rw [HashTable.cells_put, hnew, h.sound.holds_replace hold]
    simp

/-- A key goes to the slot found for it. -/
theorem HashTable.Good.insert (h : map.Good strings key code bits) {i : Nat} {old : HashSlot} (slot : HashSlot)
    (hi : map.table[i]? = some old) (hfree : old.mode ≠ .active) (ha : slot.mode = .active)
    (hhash : slot.hash = code (key slot.key)) (habs : ∀ v, ¬ Cells.Holds (map.cells key) (key slot.key) v)
    (hwalk : hashWalk map.mask (code (key slot.key)) n = i)
    (hpass : Cells.Passes (map.cells key) (hashWalk map.mask (code (key slot.key))) (key slot.key) n) (fill : Int)
    (hfill : fill = if old.mode = .empty then map.fill + 1 else map.fill) :
    (map.put i slot fill (map.count + 1)).Good strings key code bits ∧
      ∀ k' v', Cells.Holds ((map.put i slot fill (map.count + 1)).cells key) k' v' ↔
        (k' = key slot.key ∧ v' = slot.value) ∨ Cells.Holds (map.cells key) k' v' := by
  have hnew : slot.cell key = _ := HashSlot.cell_active ha
  constructor
  · apply h.put hi
    · rw [hnew]
      exact h.sound.insert habs hwalk hpass
    · exact fun _ => hhash
    · rw [hfill]
      by_cases he : old.mode = .empty <;> simp [he, ha]
    · simp [hfree, ha]
  · intro k' v'
    rw [HashTable.cells_put, hnew]
    apply Cells.holds_insert
    · rw [HashTable.cells, List.length_map]
      exact (List.getElem?_eq_some_iff.1 hi).1
    · intro k v e
      rw [HashTable.cells_getElem, hi, Option.map_some] at e
      cases hm : old.mode with
      | empty => rw [HashSlot.cell_empty hm] at e; cases e
      | active => exact hfree hm
      | deleted => rw [HashSlot.cell_deleted hm] at e; cases e

/-! ## A new table -/

/-- A table as `hash_initialize` makes it. -/
def HashTable.fresh (map : HashTable) (size : BitVec 64) : HashTable :=
  { map with fill := 0, count := 0, mask := size - 1, table := List.replicate size.toNat emptySlot }

theorem HashTable.cells_fresh (map : HashTable) (key : Word → K) (size : BitVec 64) :
    (map.fresh size).cells key = List.replicate size.toNat .empty := by
  rw [cells, fresh, List.map_replicate]
  rfl

theorem toNat_two_pow (hb : bits < 64) : (BitVec.ofNat 64 (2 ^ bits)).toNat = 2 ^ bits := by
  rw [BitVec.toNat_ofNat, Nat.mod_eq_of_lt (Nat.pow_lt_pow_right (by decide) hb)]

theorem not_holds_replicate {m : Nat} {k : K} {v : Word} : ¬ Cells.Holds (List.replicate m .empty) k v := by
  rintro ⟨i, hi⟩
  cases List.eq_of_mem_replicate (List.mem_of_getElem? hi)

/-- A fresh table is good and holds nothing. -/
theorem HashTable.Compares.fresh (h : map.Compares strings key code) (hb : bits < 64) :
    (map.fresh (BitVec.ofNat 64 (2 ^ bits))).Good strings key code bits := by
  have hcells := HashTable.cells_fresh map key (BitVec.ofNat 64 (2 ^ bits))
  refine ⟨⟨h.cmp, h.hash⟩, ?_, ?_, hb, ?_, ?_, ?_, ?_⟩
  · rw [HashTable.fresh, List.length_replicate, toNat_two_pow hb]
  · apply BitVec.eq_of_toNat_eq
    have hlt := Nat.pow_lt_pow_right (a := 2) (by decide) hb
    have hpos := Nat.two_pow_pos bits
    have hone : (1 : BitVec 64).toNat = 1 := rfl
    simp only [HashTable.fresh, BitVec.toNat_sub, BitVec.toNat_ofNat, hone]
    omega
  · intro slot hs ha
    cases List.eq_of_mem_replicate hs
    cases ha
  · intro i k v hi
    rw [hcells] at hi
    exact absurd ⟨i, hi⟩ not_holds_replicate
  · rw [hcells, Cells.filled, List.countP_replicate]
    rfl
  · rw [hcells, Cells.live, List.countP_replicate]
    rfl

/-- The slots `pre` have been copied. -/
structure Copied (strings : Strings) (key : Word → K) (code : K → BitVec 64) (bits : Nat) (pre : List HashSlot)
    (new : HashTable) : Prop where
  good : new.Good strings key code bits
  holds : ∀ k v, Cells.Holds (new.cells key) k v ↔ Cells.Holds (pre.map (HashSlot.cell key)) k v
  count : new.count = Cells.live (pre.map (HashSlot.cell key))
  fill : new.fill = new.count
  whole : ∀ slot ∈ new.table, slot.mode ≠ .deleted

/-- One turn of the loop of `hash_copy`. -/
theorem HashTable.Good.copySlot (h : map.Good strings key code bits) {bits' : Nat}
    (hsmall : Cells.live (map.cells key) < 2 ^ bits') (hfuel : 13 + 2 ^ bits' ≤ fuel) {pre rest : List HashSlot}
    {slot : HashSlot} (htable : map.table = pre ++ slot :: rest) {new : HashTable}
    (hc : Copied strings key code bits' pre new) :
    ∃ new', hashCopySlot fuel strings new slot = some new' ∧ Copied strings key code bits' (pre ++ [slot]) new' := by
  have hmem : slot ∈ map.table := by rw [htable]; simp
  rw [hashCopySlot]
  split
  next hne =>
    have hkey : (slot.cell key).key? = none := by
      cases hm : slot.mode with
      | empty => rw [HashSlot.cell_empty hm]; rfl
      | active => exact absurd hm hne
      | deleted => rw [HashSlot.cell_deleted hm]; rfl
    refine ⟨new, rfl, hc.good, ?_, ?_, hc.fill, hc.whole⟩
    · intro k v
      rw [hc.holds, Cells.holds_iff, Cells.holds_iff, List.map_append, List.mem_append]
      constructor
      · exact .inl
      · rintro (hl | hr)
        · exact hl
        · rw [List.map_singleton, List.mem_singleton] at hr
          rw [← hr] at hkey
          cases hkey
    · rw [hc.count, List.map_append, List.map_singleton, Cells.live_snoc, hkey]
      rfl
  next hact =>
    have ha : slot.mode = .active := by simpa using hact
    have hcell : slot.cell key = .active (key slot.key) slot.value := HashSlot.cell_active ha
    have hlive : Cells.live (pre.map (HashSlot.cell key)) < Cells.live (map.cells key) := by
      rw [HashTable.cells, htable, Cells.live, Cells.live, List.map_append, List.countP_append, List.map_cons,
        List.countP_cons, hcell]
      simp only [Cell.key?, Option.isSome_some, if_true]
      omega
    have hroom : Cells.filled (new.cells key) < 2 ^ bits' := by
      have h1 := hc.good.fill
      have h2 := hc.count
      have h3 := hc.fill
      omega
    -- the keys of the old table are different, so the new one does not hold this one yet
    have habs : ∀ v, ¬ Cells.Holds (new.cells key) (key slot.key) v := by
      intro v hv
      rw [hc.holds] at hv
      obtain ⟨i, hi⟩ := hv
      obtain ⟨hlt, -⟩ := List.getElem?_eq_some_iff.1 hi
      have h1 : (map.cells key)[i]? = some (.active (key slot.key) v) := by
        rw [HashTable.cells, htable, List.map_append, List.getElem?_append_left hlt]
        exact hi
      have h2 : (map.cells key)[pre.length]? = some (.active (key slot.key) slot.value) := by
        rw [HashTable.cells, htable, List.map_append, List.getElem?_append_right (by simp)]
        simp [hcell]
      have := h.sound.unique h1 h2
      rw [List.length_map] at hlt
      omega
    obtain ⟨i, free, hi, hslot, hf⟩ := hc.good.found hroom hfuel slot.key
    cases hf with
    | hit active same =>
      refine absurd ⟨i, ?_⟩ (habs free.value)
      rw [HashTable.cells_getElem, hslot, Option.map_some, HashSlot.cell_active active, same]
    | miss hfree _ n hwalk hpass =>
      have hempty : free.mode = .empty := by
        cases hm : free.mode with
        | empty => rfl
        | active => exact absurd hm hfree
        | deleted => exact absurd hm (hc.whole free (List.mem_of_getElem? hslot))
      obtain ⟨hgood, hholds⟩ := hc.good.insert slot hslot hfree ha (h.hashes slot hmem ha) habs hwalk hpass
        (new.fill + 1) (by rw [if_pos hempty])
      have hput : new.put i slot (new.fill + 1) (new.count + 1) = { new with
          table := new.table.set i ⟨slot.key, slot.value, slot.hash, .active⟩
          fill := new.fill + 1
          count := new.count + 1 } := by
        rw [HashTable.put, ← ha]
      rw [hput] at hgood hholds
      refine ⟨_, by rw [hi]; rfl, hgood, ?_, ?_, ?_, ?_⟩
      · intro k v
        rw [hholds, hc.holds, Cells.holds_iff, Cells.holds_iff, List.map_append, List.mem_append, List.map_singleton,
          List.mem_singleton, hcell, Cell.active.injEq]
        exact or_comm
      · have hk : (slot.cell key).key?.isSome = true := by rw [hcell]; rfl
        have := hc.count
        rw [List.map_append, List.map_singleton, Cells.live_snoc, if_pos hk]
        simp only
        omega
      · have := hc.fill
        simp only
        omega
      · intro s hs
        obtain hm | rfl := List.mem_or_eq_of_mem_set hs
        · exact hc.whole s hm
        · simp

/-- `hash_copy` returns. -/
theorem HashTable.Good.copy (h : map.Good strings key code bits) (bits' : Nat)
    (hsmall : Cells.live (map.cells key) < 2 ^ bits') (hfuel : 13 + 2 ^ bits' ≤ fuel) (rest : List HashSlot) :
    ∀ pre new, map.table = pre ++ rest → Copied strings key code bits' pre new →
      ∃ new', hashCopy fuel strings new rest = some new' ∧ Copied strings key code bits' map.table new' := by
  induction rest with
  | nil =>
    intro pre new htable hc
    rw [List.append_nil] at htable
    exact ⟨new, rfl, htable ▸ hc⟩
  | cons slot rest ih =>
    intro pre new htable hc
    obtain ⟨mid, hmid, hc'⟩ := h.copySlot hsmall hfuel htable hc
    obtain ⟨new', hnew, hdone⟩ := ih (pre ++ [slot]) mid (by simp [htable]) hc'
    refine ⟨new', ?_, hdone⟩
    rw [hashCopy, List.foldlM_cons, hmid]
    exact hnew

end Xinul
