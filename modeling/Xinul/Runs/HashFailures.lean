import Xinul.Runs.HashMap

/-!
# Hash tables that are refused memory

`hash_set` and `hash_del` change a slot before `hash_update` asks for another table, and
return -1 when that table is refused: the change stays. A growth that is refused lets
`fill` rise with every further insertion into an empty slot, up to the size of the table.
-/

namespace Xinul

open Fuel

/-- The table binds the key to the value. -/
def HashTable.Binds {K : Type} (map : HashTable) (key : Word → K) (k : K) (v : Word) : Prop :=
  ∃ slot ∈ map.table, slot.mode = .active ∧ key slot.key = k ∧ slot.value = v

/-- Some slot is empty, so that every walk comes to an end. -/
def HashTable.HasEmpty (map : HashTable) : Prop := ∃ slot ∈ map.table, slot.mode = .empty

/-- The heap refuses the table that `hash_update` asks for, if it does. -/
def HashTable.Denied (map : HashTable) (heap : Heap) : Prop :=
  ∃ size, map.asks = some size ∧ heap.grants (size * sizeofHashSlot) = false

/-- `hash_set` of a key whose slot is `slot` is refused a table: the key is new, and the
table with it asks for another one that the heap refuses. -/
def HashTable.SetDenied (map : HashTable) (heap : Heap) (slot : HashSlot) : Prop :=
  slot.mode ≠ .active ∧ HashTable.Denied { map with
    count := map.count + 1, fill := if slot.mode = .empty then map.fill + 1 else map.fill } heap

/-- `hash_del` of a key whose slot is `slot` is refused a table. -/
def HashTable.DelDenied (map : HashTable) (heap : Heap) (slot : HashSlot) : Prop :=
  slot.mode = .active ∧ HashTable.Denied { map with count := map.count - 1 } heap

/-- `hash_set` of a key whose slot is `slot` takes the last empty slot, and no table is granted. -/
def HashTable.Fills (map : HashTable) (heap : Heap) (slot : HashSlot) : Prop :=
  slot.mode = .empty ∧ map.fill + 1 = map.table.length ∧ map.SetDenied heap slot

/-- The slot that `hash_lookup` finds for the key. -/
def HashTable.SlotOf (map : HashTable) (strings : Strings) (key : Word) (slot : HashSlot) : Prop :=
  ∃ i, Returns (fun fuel => hashLookup fuel strings map key (map.hfunc strings key)) i ∧ map.table[i]? = some slot

/-- A run of calls that may be refused memory, as long as an empty slot is left. The log has
what the calls did to the table, whatever they returned. -/
inductive StarvedRun (kind : TableKind) : HashLog → Strings → HashTable → Prop where
  | init {heap : Heap} {map new : HashTable} (strings : Strings) (h : kind.init heap map = (0, new)) :
      StarvedRun kind [] strings new
  | set {log : HashLog} {strings : Strings} {map new : HashTable} {heap : Heap} {key value : Word} {r : Int}
      (run : StarvedRun kind log strings map)
      (room : ∀ slot, map.SlotOf strings key slot → ¬ map.Fills heap slot)
      (h : Returns (fun fuel => hashSet fuel strings heap (some map) key value) (r, some new)) :
      StarvedRun kind ((kind.key strings key, some value) :: log) strings new
  | del {log : HashLog} {strings : Strings} {map new : HashTable} {heap : Heap} {key : Word} {r : Int}
      (run : StarvedRun kind log strings map)
      (h : Returns (fun fuel => hashDel fuel strings heap (some map) key) (r, some new)) :
      StarvedRun kind ((kind.key strings key, none) :: log) strings new
  | write {log : HashLog} {strings : Strings} {map : HashTable} (strings' : Strings)
      (run : StarvedRun kind log strings map)
      (h : ∀ slot ∈ map.table, slot.mode = .active → strings' slot.key = strings slot.key) :
      StarvedRun kind log strings' map

section

variable {K : Type} {strings : Strings} {map new : HashTable} {key : Word → K} {code : K → BitVec 64} {bits fuel : Nat}
  {heap : Heap} {a v : Word} {slot : HashSlot} {k : K}

theorem HashTable.binds_iff : map.Binds key k v ↔ Cells.Holds (map.cells key) k v := by
  rw [Cells.holds_iff, HashTable.cells, List.mem_map]
  constructor
  · rintro ⟨slot, hs, ha, rfl, rfl⟩
    exact ⟨slot, hs, HashSlot.cell_active ha⟩
  · rintro ⟨slot, hs, hcell⟩
    cases hm : slot.mode with
    | empty => rw [HashSlot.cell_empty hm] at hcell; cases hcell
    | deleted => rw [HashSlot.cell_deleted hm] at hcell; cases hcell
    | active =>
      rw [HashSlot.cell_active hm] at hcell
      injection hcell with hk hv
      exact ⟨slot, hs, hm, hk, hv⟩

/-- Which slots are empty is counted by `fill`. -/
theorem HashTable.Good.hasEmpty_iff (h : map.Good strings key code bits) : map.HasEmpty ↔ map.fill < map.table.length := by
  have hfilled : ∀ s : HashSlot, (s.cell key).filled = !decide (s.mode = .empty) := by
    intro s
    cases hm : s.mode <;> simp [HashSlot.cell, hm, Cell.filled]
  have hcount : Cells.filled (map.cells key) = map.table.countP fun s => !decide (s.mode = .empty) := by
    rw [Cells.filled, HashTable.cells, List.countP_map]
    exact congrArg (List.countP · map.table) (funext fun s => hfilled s)
  rw [h.fill, hcount, Int.ofNat_lt]
  have hle : (map.table.countP fun s => !decide (s.mode = .empty)) ≤ map.table.length := List.countP_le_length
  constructor
  · rintro ⟨s, hs, he⟩
    refine lt_of_le_of_ne hle fun heq => ?_
    have := List.countP_eq_length.1 heq s hs
    simp [he] at this
  · intro hlt
    by_contra hno
    refine hlt.ne (List.countP_eq_length.2 fun s hs => ?_)
    have hne : s.mode ≠ .empty := fun he => hno ⟨s, hs, he⟩
    simp [hne]

theorem HashTable.Roomy.hasEmpty (h : map.Roomy strings key code bits) : map.HasEmpty := by
  rw [h.good.hasEmpty_iff, h.good.length]
  push_cast
  exact h.room

theorem HashTable.Roomy.length_pos (h : map.Roomy strings key code bits) : (map.table.length : Int) = 2 ^ bits := by
  rw [h.good.length]
  push_cast
  rfl

/-- What `hash_set` does: the key has the value whatever the call returns. -/
structure SetDone (fuel : Nat) (strings : Strings) (heap : Heap) (map : HashTable) (key : Word → K) (code : K → BitVec 64)
    (bits : Nat) (a v : Word) (slot : HashSlot) (r : Int) (new : HashTable) : Prop where
  run : hashSet fuel strings heap (some map) a v = some (r, some new)
  binds : ∀ k' v', Cells.Holds (new.cells key) k' v' ↔
    (k' = key a ∧ v' = v) ∨ (k' ≠ key a ∧ Cells.Holds (map.cells key) k' v')
  fresh : slot.mode ≠ .active → ∀ v', ¬ Cells.Holds (map.cells key) (key a) v'
  outcome : (r = 0 ∧ ¬ map.SetDenied heap slot ∧ ∃ bits', new.Roomy strings key code bits') ∨
    (r = -1 ∧ map.SetDenied heap slot ∧ new.Good strings key code bits ∧
      new.fill = if slot.mode = .empty then map.fill + 1 else map.fill)

theorem HashTable.Roomy.set (h : map.Roomy strings key code bits) (heap : Heap) (hfuel : 13 + 2 ^ (bits + 1) ≤ fuel)
    (a v : Word) : ∃ i slot, hashLookup fuel strings map a (map.hfunc strings a) = some i ∧ map.table[i]? = some slot ∧
      ∃ r new, SetDone fuel strings heap map key code bits a v slot r new := by
  have hpow : 2 ^ (bits + 1) = 2 * 2 ^ bits := Nat.pow_succ'
  obtain ⟨i, slot, hi, hslot, hf⟩ := h.good.found h.filled (Nat.le_trans (by omega) hfuel) a
  refine ⟨i, slot, hi, hslot, ?_⟩
  cases hf with
  | hit active same =>
    obtain ⟨hgood, hholds⟩ := h.good.update hslot active same v
    refine ⟨0, _, ?_, hholds, fun hne => absurd active hne, .inl ⟨rfl, fun hd => hd.1 active, bits, hgood, h.min, h.max, h.room⟩⟩
    rw [hashSet]
    simp only [hi, hslot, Option.bind_eq_bind, Option.bind_some]
    rw [if_pos active]
    rfl
  | miss free absent n walk passes =>
    obtain ⟨hgood, hholds⟩ := h.good.insert ⟨a, v, map.hfunc strings a, .active⟩ hslot free rfl
      (h.good.compares.hash a) absent walk passes _ rfl
    have binds : ∀ k' v', Cells.Holds ((map.put i ⟨a, v, map.hfunc strings a, .active⟩
        (if slot.mode = .empty then map.fill + 1 else map.fill) (map.count + 1)).cells key) k' v' ↔
        (k' = key a ∧ v' = v) ∨ (k' ≠ key a ∧ Cells.Holds (map.cells key) k' v') := by
      intro k' v'
      rw [hholds]
      refine or_congr_right ⟨fun hv => ⟨?_, hv⟩, And.right⟩
      rintro rfl
      exact absent v' hv
    have hrun : ∀ {r new}, hashUpdate fuel strings heap (map.put i ⟨a, v, map.hfunc strings a, .active⟩
        (if slot.mode = .empty then map.fill + 1 else map.fill) (map.count + 1)) = some (r, new) →
        hashSet fuel strings heap (some map) a v = some (r, some new) := by
      intro r new hu
      rw [hashSet]
      simp only [hi, hslot, Option.bind_eq_bind, Option.bind_some]
      rw [if_neg free]
      rw [HashTable.put] at hu
      rw [hu]
      rfl
    have hfresh : slot.mode ≠ .active → ∀ v', ¬ Cells.Holds (map.cells key) (key a) v' := fun _ => absent
    cases hgood.update_returns h.min h.max heap hfuel with
    | kept asks run load =>
      refine ⟨0, _, hrun run, binds, hfresh, .inl ⟨rfl, ?_, bits, (⟨hgood, h.min, h.max, load⟩ : HashTable.Loaded ..).roomy⟩⟩
      rintro ⟨-, size, hsize, -⟩
      cases asks.symm.trans hsize
    | refused size near asks denied run =>
      exact ⟨-1, _, hrun run, binds, hfresh, .inr ⟨rfl, ⟨free, _, asks, denied⟩, hgood, rfl⟩⟩
    | moved size new asks granted run loaded holds =>
      refine ⟨0, new, hrun run, fun k' v' => (holds k' v').trans (binds k' v'), hfresh, .inl ⟨rfl, ?_, size, loaded.roomy⟩⟩
      rintro ⟨-, size', hsize, hdenied⟩
      cases asks.symm.trans hsize
      rw [granted] at hdenied
      cases hdenied

/-- What `hash_del` does: the key is gone whatever the call returns. -/
structure DelDone (fuel : Nat) (strings : Strings) (heap : Heap) (map : HashTable) (key : Word → K) (code : K → BitVec 64)
    (a : Word) (slot : HashSlot) (r : Int) (new : HashTable) : Prop where
  run : hashDel fuel strings heap (some map) a = some (r, some new)
  binds : ∀ k' v', Cells.Holds (new.cells key) k' v' ↔ k' ≠ key a ∧ Cells.Holds (map.cells key) k' v'
  held : slot.mode = .active → Cells.Holds (map.cells key) (key a) slot.value
  roomy : ∃ bits', new.Roomy strings key code bits'
  outcome : (r = 0 ∧ ¬ map.DelDenied heap slot) ∨ (r = -1 ∧ map.DelDenied heap slot)

theorem HashTable.Roomy.del (h : map.Roomy strings key code bits) (heap : Heap) (hfuel : 13 + 2 ^ (bits + 1) ≤ fuel)
    (a : Word) : ∃ i slot, hashLookup fuel strings map a (map.hfunc strings a) = some i ∧ map.table[i]? = some slot ∧
      ∃ r new, DelDone fuel strings heap map key code a slot r new := by
  have hpow : 2 ^ (bits + 1) = 2 * 2 ^ bits := Nat.pow_succ'
  obtain ⟨i, slot, hi, hslot, hf⟩ := h.good.found h.filled (Nat.le_trans (by omega) hfuel) a
  refine ⟨i, slot, hi, hslot, ?_⟩
  cases hf with
  | hit active same =>
    obtain ⟨hgood, hholds⟩ := h.good.delete hslot active same
    have hheld : Cells.Holds (map.cells key) (key a) slot.value :=
      ⟨i, by rw [HashTable.cells_getElem, hslot, Option.map_some, HashSlot.cell_active active, same]⟩
    have hrun : ∀ {r new}, hashUpdate fuel strings heap (map.put i ⟨0, 0, 0, .deleted⟩ map.fill (map.count - 1)) =
        some (r, new) → hashDel fuel strings heap (some map) a = some (r, some new) := by
      intro r new hu
      rw [hashDel]
      simp only [hi, hslot, Option.bind_eq_bind, Option.bind_some]
      rw [if_neg (by simp [active])]
      rw [HashTable.put] at hu
      rw [hu]
      rfl
    have hroomy : (map.put i ⟨0, 0, 0, .deleted⟩ map.fill (map.count - 1)).Roomy strings key code bits :=
      ⟨hgood, h.min, h.max, h.room⟩
    cases hgood.update_returns h.min h.max heap hfuel with
    | kept asks run load =>
      refine ⟨0, _, hrun run, hholds, fun _ => hheld, ⟨bits, hroomy⟩, .inl ⟨rfl, ?_⟩⟩
      rintro ⟨-, size, hsize, -⟩
      cases asks.symm.trans hsize
    | refused size near asks denied run =>
      exact ⟨-1, _, hrun run, hholds, fun _ => hheld, ⟨bits, hroomy⟩, .inr ⟨rfl, active, _, asks, denied⟩⟩
    | moved size new asks granted run loaded holds =>
      refine ⟨0, new, hrun run, fun k' v' => (holds k' v').trans (hholds k' v'), fun _ => hheld, ⟨size, loaded.roomy⟩,
        .inl ⟨rfl, ?_⟩⟩
      rintro ⟨-, size', hsize, hdenied⟩
      cases asks.symm.trans hsize
      rw [granted] at hdenied
      cases hdenied
  | miss free absent =>
    refine ⟨0, map, ?_, fun k' v' => ⟨fun hv => ⟨?_, hv⟩, And.right⟩, fun ha => absurd ha free, ⟨bits, h⟩,
      .inl ⟨rfl, fun hd => free hd.1⟩⟩
    · rw [hashDel]
      simp only [hi, hslot, Option.bind_eq_bind, Option.bind_some]
      rw [if_pos free]
    · rintro rfl
      exact absent v' hv

/-- After `hash_set` some slot is empty unless it took the last one. -/
theorem SetDone.hasEmpty_iff {r : Int} (h : map.Roomy strings key code bits)
    (hd : SetDone fuel strings heap map key code bits a v slot r new) : new.HasEmpty ↔ ¬ map.Fills heap slot := by
  have hroom := h.room
  have hlength := h.length_pos
  obtain ⟨rfl, hno, bits', hnew⟩ | ⟨rfl, hdenied, hgood, hfill⟩ := hd.outcome
  · exact ⟨fun _ hf => hno hf.2.2, fun _ => hnew.hasEmpty⟩
  · have hnew : (new.table.length : Int) = 2 ^ bits := by
      rw [hgood.length]
      push_cast
      rfl
    rw [hgood.hasEmpty_iff, hnew, hfill]
    constructor
    · rintro hlt ⟨hempty, hfull, -⟩
      rw [if_pos hempty] at hlt
      omega
    · intro hno
      split
      · next hempty =>
        by_contra hge
        exact hno ⟨hempty, by omega, hdenied⟩
      · exact hroom

/-- The bindings stay as they were in a call of `hash_set` that returns -1 just when no table is refused. -/
theorem SetDone.kept_iff {r : Int} (hd : SetDone fuel strings heap map key code bits a v slot r new) :
    (r = -1 → ∀ k' v', Cells.Holds (new.cells key) k' v' ↔ Cells.Holds (map.cells key) k' v') ↔ ¬ map.SetDenied heap slot := by
  obtain ⟨rfl, hno, -⟩ | ⟨rfl, hdenied, -⟩ := hd.outcome
  · exact ⟨fun _ => hno, fun _ h => absurd h (by decide)⟩
  · refine ⟨fun h => ?_, fun h => absurd hdenied h⟩
    have hbound : Cells.Holds (new.cells key) (key a) v := (hd.binds _ _).2 (.inl ⟨rfl, rfl⟩)
    exact absurd ((h rfl _ _).1 hbound) (hd.fresh hdenied.1 v)

theorem DelDone.kept_iff {r : Int} (hd : DelDone fuel strings heap map key code a slot r new) :
    (r = -1 → ∀ k' v', Cells.Holds (new.cells key) k' v' ↔ Cells.Holds (map.cells key) k' v') ↔ ¬ map.DelDenied heap slot := by
  obtain ⟨rfl, hno⟩ | ⟨rfl, hdenied⟩ := hd.outcome
  · exact ⟨fun _ => hno, fun _ h => absurd h (by decide)⟩
  · refine ⟨fun h => ?_, fun h => absurd hdenied h⟩
    exact absurd rfl ((hd.binds _ _).1 ((h rfl _ _).2 (hd.held hdenied.1))).1

end

/-! ## Along a run -/

/-- Some slot is empty and the table holds what the calls have bound. -/
structure Survives (kind : TableKind) (log : HashLog) (strings : Strings) (map : HashTable) (bits : Nat) : Prop where
  roomy : map.Roomy strings (kind.key strings) HashKey.code bits
  holds : ∀ k v, Cells.Holds (map.cells (kind.key strings)) k v ↔ log.bound k = some v
  hfunc : map.hfunc = kind.hfunc
  cmp : map.cmp = kind.cmp

section

variable {kind : TableKind} {log : HashLog} {strings : Strings} {map new : HashTable} {bits : Nat} {heap : Heap}
  {a v : Word} {r : Int} {slot : HashSlot}

theorem HashTable.slotOf_steady {fuel i : Nat} (h : hashLookup fuel strings map a (map.hfunc strings a) = some i)
    (hi : map.table[i]? = some slot) : map.SlotOf strings a slot :=
  ⟨i, (hashLookup_steady strings map a _).returns h, hi⟩

theorem Survives.set (h : Survives kind log strings map bits) (room : ∀ slot, map.SlotOf strings a slot → ¬ map.Fills heap slot)
    (hr : Returns (fun fuel => hashSet fuel strings heap (some map) a v) (r, some new)) :
    ∃ bits', Survives kind ((kind.key strings a, some v) :: log) strings new bits' := by
  obtain ⟨turns, hr⟩ := hr
  have hret := hr (max turns (13 + 2 ^ (bits + 1))) (Nat.le_max_left _ _)
  obtain ⟨i, slot, hi, hslot, r', new', hd⟩ := h.roomy.set heap (Nat.le_max_right turns (13 + 2 ^ (bits + 1))) a v
  obtain ⟨hf, hc⟩ := hashSet_alike hret
  have hne := room slot (HashTable.slotOf_steady hi hslot)
  cases hret.symm.trans hd.run
  have holds : ∀ k w, Cells.Holds (new.cells (kind.key strings)) k w ↔
      HashLog.bound ((kind.key strings a, some v) :: log) k = some w := by
    intro k w
    rw [hd.binds, h.holds, HashLog.bound_cons]
    by_cases hkey : k = kind.key strings a
    · simp [hkey, eq_comm]
    · simp [hkey]
  have hempty := (hd.hasEmpty_iff h.roomy).2 hne
  obtain ⟨-, -, bits', hnew⟩ | ⟨-, -, hgood, -⟩ := hd.outcome
  · exact ⟨bits', hnew, holds, hf.trans h.hfunc, hc.trans h.cmp⟩
  · refine ⟨bits, ⟨hgood, h.roomy.min, h.roomy.max, ?_⟩, holds, hf.trans h.hfunc, hc.trans h.cmp⟩
    have hlt := hgood.hasEmpty_iff.1 hempty
    rw [hgood.length] at hlt
    push_cast at hlt
    exact hlt

theorem Survives.del (h : Survives kind log strings map bits)
    (hr : Returns (fun fuel => hashDel fuel strings heap (some map) a) (r, some new)) :
    ∃ bits', Survives kind ((kind.key strings a, none) :: log) strings new bits' := by
  obtain ⟨turns, hr⟩ := hr
  have hret := hr (max turns (13 + 2 ^ (bits + 1))) (Nat.le_max_left _ _)
  obtain ⟨i, slot, hi, hslot, r', new', hd⟩ := h.roomy.del heap (Nat.le_max_right turns (13 + 2 ^ (bits + 1))) a
  obtain ⟨hf, hc⟩ := hashDel_alike hret
  cases hret.symm.trans hd.run
  obtain ⟨bits', hnew⟩ := hd.roomy
  refine ⟨bits', hnew, fun k w => ?_, hf.trans h.hfunc, hc.trans h.cmp⟩
  rw [hd.binds, h.holds, HashLog.bound_cons]
  by_cases hkey : k = kind.key strings a
  · simp [hkey]
  · simp [hkey]

end

theorem StarvedRun.survives {kind : TableKind} {log : HashLog} {strings : Strings} {map : HashTable}
    (h : StarvedRun kind log strings map) : ∃ bits, Survives kind log strings map bits := by
  induction h with
  | init strings h =>
    obtain ⟨bits, hk⟩ := (TableRun.init strings h).keeps
    exact ⟨bits, hk.loaded.roomy, hk.holds, hk.hfunc, hk.cmp⟩
  | set run room h ih =>
    obtain ⟨bits, hs⟩ := ih
    exact hs.set room h
  | del run h ih =>
    obtain ⟨bits, hs⟩ := ih
    exact hs.del h
  | write strings' run h ih =>
    obtain ⟨bits, hs⟩ := ih
    obtain ⟨hgood, hcells⟩ := hs.roomy.good.rewrite hs.hfunc hs.cmp h
    exact ⟨bits, ⟨hgood, hs.roomy.min, hs.roomy.max, hs.roomy.room⟩, by rw [hcells]; exact hs.holds, hs.hfunc, hs.cmp⟩

/-- A run of calls that all return 0 is one of these. -/
theorem TableRun.starved {kind : TableKind} {log : HashLog} {strings : Strings} {map : HashTable}
    (h : TableRun kind log strings map) : StarvedRun kind log strings map := by
  induction h with
  | init strings h => exact .init strings h
  | @set log strings map new heap key value run h ih =>
    refine ih.set (fun slot hslot hf => ?_) h
    obtain ⟨bits, hs⟩ := ih.survives
    obtain ⟨i, ⟨turns, hi⟩, hi'⟩ := hslot
    obtain ⟨turns', hr⟩ := h
    have hmax := Nat.le_max_right (max turns turns') (13 + 2 ^ (bits + 1))
    obtain ⟨j, slot', hj, hj', r, new', hd⟩ := hs.roomy.set heap hmax key value
    have hlook := hi (max (max turns turns') (13 + 2 ^ (bits + 1))) (by omega)
    have hret := hr (max (max turns turns') (13 + 2 ^ (bits + 1))) (by omega)
    cases hlook.symm.trans hj
    cases hi'.symm.trans hj'
    cases hret.symm.trans hd.run
    obtain ⟨-, hno, -⟩ | ⟨h, -⟩ := hd.outcome
    · exact hno hf.2.2
    · cases h
  | del run h ih => exact ih.del h
  | write strings' run h ih => exact ih.write strings' h

/-- In a table of other keys without an empty slot `hash_lookup` never returns. -/
theorem hashLookupLoop_full {strings : Strings} {map : HashTable} {key : Word} {hash : BitVec 64}
    (h : ∀ slot ∈ map.table, slot.mode ≠ .empty ∧ map.sameKey strings slot key hash = false) (fuel : Nat) :
    ∀ c free, hashLookupLoop strings map key hash fuel c free = none := by
  induction fuel with
  | zero => exact fun _ _ => rfl
  | succ fuel ih =>
    intro c free
    rw [hashLookupLoop]
    cases hslot : map.table[c.slot map.mask]? with
    | none => rfl
    | some slot =>
      obtain ⟨hne, hother⟩ := h slot (List.mem_of_getElem? hslot)
      simp only [Option.bind_eq_bind, Option.bind_some]
      rw [if_neg hne, if_neg (by simp [hother]), ih]

/-- In such a table `hash_get` never returns. -/
theorem hashGet_full {strings : Strings} {map : HashTable} {key default : Word}
    (h : ∀ slot ∈ map.table, slot.mode ≠ .empty ∧ map.sameKey strings slot key (map.hfunc strings key) = false) (fuel : Nat) :
    hashGet fuel strings (some map) key default = none := by
  rw [hashGet, hashLookup, hashLookupLoop_full h]
  rfl

/-- **What a refused table leaves behind**: in a run in which `mem_alloc` may refuse any
table, as long as no `hash_set` that is refused one takes the last empty slot, every lookup
returns what the calls have bound, and every `hash_set` and `hash_del` returns. A call that
returns -1 leaves the bindings and an empty slot just when it is not refused a table, that
is, when it does not return -1; the empty slot alone is lost with the last one taken. -/
theorem hash_failures_iff {kind : TableKind} {log : HashLog} {strings : Strings} {map : HashTable}
    (run : StarvedRun kind log strings map) :
    map.HasEmpty ∧
    (∀ key default,
      Returns (fun fuel => hashGet fuel strings (some map) key default) ((log.bound (kind.key strings key)).getD default) ∧
        Returns (fun fuel => hashIsset fuel strings (some map) key)
          (if (log.bound (kind.key strings key)).isSome then 1 else 0)) ∧
    ∀ heap key, ∃ slot, map.SlotOf strings key slot ∧
      (∀ value, ∃ r new, Returns (fun fuel => hashSet fuel strings heap (some map) key value) (r, some new) ∧
        ((r = -1 → ∀ k v, new.Binds (kind.key strings) k v ↔ map.Binds (kind.key strings) k v) ∧ new.HasEmpty ↔
          ¬ map.SetDenied heap slot) ∧
        (new.HasEmpty ↔ ¬ map.Fills heap slot)) ∧
      ∃ r new, Returns (fun fuel => hashDel fuel strings heap (some map) key) (r, some new) ∧
        ((r = -1 → ∀ k v, new.Binds (kind.key strings) k v ↔ map.Binds (kind.key strings) k v) ∧ new.HasEmpty ↔
          ¬ map.DelDenied heap slot) := by
  obtain ⟨bits, hs⟩ := run.survives
  refine ⟨hs.roomy.hasEmpty, fun key default => ?_, fun heap key => ?_⟩
  · obtain ⟨v, hv, hget, hisset⟩ | ⟨hno, hget, hisset⟩ := hs.roomy.get (Nat.le_refl _) key default
    · rw [hs.holds] at hv
      rw [hv]
      exact ⟨(hashGet_steady strings map key default).returns hget, (hashIsset_steady strings map key).returns hisset⟩
    · have hnone : log.bound (kind.key strings key) = none := by
        rw [Option.eq_none_iff_forall_not_mem]
        exact fun v hv => hno v ((hs.holds _ _).2 hv)
      rw [hnone]
      exact ⟨(hashGet_steady strings map key default).returns hget, (hashIsset_steady strings map key).returns hisset⟩
  · simp only [HashTable.binds_iff]
    obtain ⟨i, slot, hi, hslot, r, new, hd⟩ := hs.roomy.del heap (Nat.le_refl _) key
    refine ⟨slot, HashTable.slotOf_steady hi hslot, fun value => ?_, r, new, ?_, ?_⟩
    · obtain ⟨i', slot', hi', hslot', r', new', hset⟩ := hs.roomy.set heap (Nat.le_refl _) key value
      cases hi.symm.trans hi'
      cases hslot.symm.trans hslot'
      have hempty := hset.hasEmpty_iff hs.roomy
      refine ⟨r', new', (hashSet_steady strings heap map key value).returns hset.run, ?_, hempty⟩
      rw [hset.kept_iff, hempty]
      exact ⟨And.left, fun h => ⟨h, fun hf => h hf.2.2⟩⟩
    · exact (hashDel_steady strings heap map key).returns hd.run
    · obtain ⟨bits', hnew⟩ := hd.roomy
      rw [hd.kept_iff]
      exact and_iff_left hnew.hasEmpty

/-- A heap that grants nothing. -/
def Heap.exhausted : Heap := ⟨fun _ => false, fun _ h => absurd h (by decide)⟩

/-- A direct table with the keys 1 to 5. -/
theorem hash_failures_five : ∃ map, StarvedRun .direct
    [(.address 5, some 9), (.address 4, some 9), (.address 3, some 9), (.address 2, some 9), (.address 1, some 9)]
    (fun _ => ⟨[], by simp⟩) map ∧ Returns (fun fuel => hashGet fuel (fun _ => ⟨[], by simp⟩) (some map) 6 0) 0 := by
  have start : TableRun .direct [] (fun _ => ⟨[], by simp⟩) _ :=
    @TableRun.init .direct Heap.roomy ⟨0, 0, 0, [], hashDirectHfunc, hashDirectCmp⟩ _ _ rfl
  have one := start.set ((hashSet_steady _ Heap.roomy _ 1 9).returns (n := 21) rfl)
  have two := one.set ((hashSet_steady _ Heap.roomy _ 2 9).returns (n := 21) rfl)
  have three := two.set ((hashSet_steady _ Heap.roomy _ 3 9).returns (n := 21) rfl)
  have four := three.set ((hashSet_steady _ Heap.roomy _ 4 9).returns (n := 21) rfl)
  have five := four.set ((hashSet_steady _ Heap.roomy _ 5 9).returns (n := 21) rfl)
  exact ⟨_, five.starved, ((hash_failures_iff five.starved).2.1 6 0).1⟩

/-- With the keys 1 to 5 in a table, `hash_set` of 6 is refused a larger one, returns -1 and has
bound 6. Two more such calls, and no lookup of another key returns. -/
theorem hash_failures_six : ∃ map new mid full log, StarvedRun .direct log (fun _ => ⟨[], by simp⟩) map ∧
    Returns (fun fuel => hashSet fuel (fun _ => ⟨[], by simp⟩) Heap.exhausted (some map) 6 9) (-1, some new) ∧
    (∀ v, ¬ map.Binds (TableKind.direct.key fun _ => ⟨[], by simp⟩) (.address 6) v) ∧
    new.Binds (TableKind.direct.key fun _ => ⟨[], by simp⟩) (.address 6) 9 ∧
    Returns (fun fuel => hashSet fuel (fun _ => ⟨[], by simp⟩) Heap.exhausted (some new) 7 9) (-1, some mid) ∧
    Returns (fun fuel => hashSet fuel (fun _ => ⟨[], by simp⟩) Heap.exhausted (some mid) 8 9) (-1, some full) ∧
    ∀ fuel, hashGet fuel (fun _ => ⟨[], by simp⟩) (some full) 100 0 = none := by
  have start : TableRun .direct [] (fun _ => ⟨[], by simp⟩) _ :=
    @TableRun.init .direct Heap.roomy ⟨0, 0, 0, [], hashDirectHfunc, hashDirectCmp⟩ _ _ rfl
  have one := start.set ((hashSet_steady _ Heap.roomy _ 1 9).returns (n := 21) rfl)
  have two := one.set ((hashSet_steady _ Heap.roomy _ 2 9).returns (n := 21) rfl)
  have three := two.set ((hashSet_steady _ Heap.roomy _ 3 9).returns (n := 21) rfl)
  have four := three.set ((hashSet_steady _ Heap.roomy _ 4 9).returns (n := 21) rfl)
  have five := four.set ((hashSet_steady _ Heap.roomy _ 5 9).returns (n := 21) rfl)
  refine ⟨_, _, _, _, _, five.starved, (hashSet_steady _ Heap.exhausted _ 6 9).returns (n := 21) rfl, ?_, ?_,
    (hashSet_steady _ Heap.exhausted _ 7 9).returns (n := 21) rfl,
    (hashSet_steady _ Heap.exhausted _ 8 9).returns (n := 21) rfl, fun fuel => ?_⟩
  · intro v hv
    obtain ⟨bits, hs⟩ := five.starved.survives
    rw [HashTable.binds_iff, hs.holds] at hv
    cases hv
  · refine ⟨⟨6, 9, 6, .active⟩, ?_, rfl, rfl, rfl⟩
    decide +kernel
  · refine hashGet_full ?_ fuel
    decide +kernel

end Xinul
