import Xinul.Proofs.HashCalls

/-!
# Hash tables as finite maps

Every sequence of `hash_set` and `hash_del` calls that return 0, on a table made
by `hash_init_direct` or `hash_init_string`. Between the calls the strings in
memory may change, except those that the keys stored in the table point to.
-/

namespace Xinul

open Fuel

/-- The two predefined tables. -/
inductive TableKind where
  | direct
  | string
  deriving DecidableEq, Repr

/-- A key up to the comparison of its table: an address or a string. -/
inductive HashKey where
  | address (a : Word)
  | text (s : CString)
  deriving DecidableEq

/-- What a table of this kind compares of a key. -/
def TableKind.key (kind : TableKind) (strings : Strings) (a : Word) : HashKey :=
  match kind with
  | .direct => .address a
  | .string => .text (strings a)

/-- `hash_init_direct` or `hash_init_string`. -/
def TableKind.init (kind : TableKind) (heap : Heap) (map : HashTable) : Int × HashTable :=
  match kind with
  | .direct => hashInitDirect heap map
  | .string => hashInitString heap map

/-- The calls made so far, the latest first: a key with the value set, or with
none when it was deleted. -/
abbrev HashLog := List (HashKey × Option Word)

/-- The value of the last `hash_set` of a key that no `hash_del` of it follows. -/
def HashLog.bound (log : HashLog) (k : HashKey) : Option Word := (log.lookup k).join

/-- The keys bound. -/
def HashLog.present (log : HashLog) : Finset HashKey :=
  (log.map Prod.fst).toFinset.filter fun k => (log.bound k).isSome

/-- A run of calls that all return 0. -/
inductive TableRun (kind : TableKind) : HashLog → Strings → HashTable → Prop where
  | init {heap : Heap} {map new : HashTable} (strings : Strings) (h : kind.init heap map = (0, new)) :
      TableRun kind [] strings new
  | set {log : HashLog} {strings : Strings} {map new : HashTable} {heap : Heap} {key value : Word}
      (run : TableRun kind log strings map)
      (h : Returns (fun fuel => hashSet fuel strings heap (some map) key value) (0, some new)) :
      TableRun kind ((kind.key strings key, some value) :: log) strings new
  | del {log : HashLog} {strings : Strings} {map new : HashTable} {heap : Heap} {key : Word}
      (run : TableRun kind log strings map)
      (h : Returns (fun fuel => hashDel fuel strings heap (some map) key) (0, some new)) :
      TableRun kind ((kind.key strings key, none) :: log) strings new
  | write {log : HashLog} {strings : Strings} {map : HashTable} (strings' : Strings)
      (run : TableRun kind log strings map)
      (h : ∀ slot ∈ map.table, slot.mode = .active → strings' slot.key = strings slot.key) :
      TableRun kind log strings' map

/-! ## The two kinds compare keys -/

theorem strcmp_eq_zero {s t : List (BitVec 8)} (hs : ∀ c ∈ s, c ≠ 0#8) (ht : ∀ c ∈ t, c ≠ 0#8) :
    strcmp s t = 0 ↔ s = t := by
  have pos {c : BitVec 8} (h : c ≠ 0#8) : c.toNat ≠ 0 := fun e => h (BitVec.eq_of_toNat_eq e)
  fun_induction strcmp s t with
  | case1 => simp
  | case2 c t =>
    have := pos (ht c (by simp))
    simp [this]
  | case3 c s =>
    have := pos (hs c (by simp))
    simp [this]
  | case4 s c t ih =>
    have := ih (fun d hd => hs d (by simp [hd])) fun d hd => ht d (by simp [hd])
    simp [this]
  | case5 c s d t hne =>
    have : c.toNat ≠ d.toNat := fun e => hne (BitVec.eq_of_toNat_eq e)
    simp only [List.cons.injEq, hne, false_and, iff_false]
    omega

/-- The hash of a key. -/
def HashKey.code : HashKey → BitVec 64
  | address a => a
  | text s => s.chars.foldl (fun hash c => ((hash <<< 5) + hash) ^^^ c.zeroExtend 64) 5381

/-- The functions of a kind. -/
def TableKind.hfunc : TableKind → Strings → Word → BitVec 64
  | direct => hashDirectHfunc
  | string => hashStringHfunc

def TableKind.cmp : TableKind → Strings → Word → Word → Bool
  | direct => hashDirectCmp
  | string => hashStringCmp

theorem TableKind.cmp_iff (kind : TableKind) (strings : Strings) (a b : Word) :
    kind.cmp strings a b = true ↔ kind.key strings a = kind.key strings b := by
  cases kind with
  | direct => simp [cmp, key, hashDirectCmp]
  | string =>
    have := strcmp_eq_zero (strings a).nonzero (strings b).nonzero
    simp [cmp, key, hashStringCmp, this, CString.ext_iff]

theorem TableKind.hfunc_eq (kind : TableKind) (strings : Strings) (a : Word) :
    kind.hfunc strings a = (kind.key strings a).code := by
  cases kind with
  | direct => rfl
  | string => rfl

/-! ## The table along a run -/

theorem HashLog.bound_cons (log : HashLog) (k k' : HashKey) (o : Option Word) :
    HashLog.bound ((k, o) :: log) k' = if k' = k then o else log.bound k' := by
  rw [bound, List.lookup_cons]
  by_cases h : k' = k
  · simp [h]
  · have : (k' == k) = false := by simp [h]
    rw [this, if_neg h]
    rfl

/-- The table is under its load and holds what the calls have bound. -/
structure LogKept (kind : TableKind) (log : HashLog) (strings : Strings) (map : HashTable) (bits : Nat) : Prop where
  loaded : map.Loaded strings (kind.key strings) HashKey.code bits
  holds : ∀ k v, Cells.Holds (map.cells (kind.key strings)) k v ↔ log.bound k = some v
  hfunc : map.hfunc = kind.hfunc
  cmp : map.cmp = kind.cmp

/-- The key of a slot does not change when its string does not. -/
theorem TableKind.key_congr (kind : TableKind) {strings strings' : Strings} {a : Word} (h : strings' a = strings a) :
    kind.key strings' a = kind.key strings a := by
  cases kind with
  | direct => rfl
  | string => rw [key, key, h]

/-- Strings that no key of the table points to are written. -/
theorem HashTable.Good.rewrite {kind : TableKind} {strings strings' : Strings} {map : HashTable} {bits : Nat}
    (h : map.Good strings (kind.key strings) HashKey.code bits) (hfunc : map.hfunc = kind.hfunc) (hcmp : map.cmp = kind.cmp)
    (same : ∀ slot ∈ map.table, slot.mode = .active → strings' slot.key = strings slot.key) :
    map.Good strings' (kind.key strings') HashKey.code bits ∧
      map.cells (kind.key strings') = map.cells (kind.key strings) := by
  have hslot : ∀ slot ∈ map.table, slot.cell (kind.key strings') = slot.cell (kind.key strings) := by
    intro slot hs
    cases hm : slot.mode with
    | empty => rw [HashSlot.cell_empty hm, HashSlot.cell_empty hm]
    | active => rw [HashSlot.cell_active hm, HashSlot.cell_active hm, kind.key_congr (same slot hs hm)]
    | deleted => rw [HashSlot.cell_deleted hm, HashSlot.cell_deleted hm]
  have hcells : map.cells (kind.key strings') = map.cells (kind.key strings) := List.map_congr_left hslot
  refine ⟨⟨⟨?_, ?_⟩, h.length, h.mask, h.bits_lt, ?_, ?_, ?_, ?_⟩, hcells⟩
  · rw [hcmp]
    exact kind.cmp_iff strings'
  · rw [hfunc]
    exact kind.hfunc_eq strings'
  · intro slot hs hm
    rw [h.hashes slot hs hm, kind.key_congr (same slot hs hm)]
  · rw [hcells]
    exact h.sound
  · rw [hcells]
    exact h.fill
  · rw [hcells]
    exact h.count

theorem TableRun.keeps {kind : TableKind} {log : HashLog} {strings : Strings} {map : HashTable}
    (h : TableRun kind log strings map) : ∃ bits, LogKept kind log strings map bits := by
  induction h with
  | @init heap map new strings h =>
    have hinit : hashInit heap map kind.hfunc kind.cmp = (0, new) := by
      rw [← h]
      cases kind with
      | direct => rfl
      | string => rfl
    obtain ⟨hl, hempty, hf, hc⟩ := HashTable.Compares.init _ _ hinit (kind.cmp_iff strings) (kind.hfunc_eq strings)
    refine ⟨3, hl, fun k v => ⟨fun hv => absurd hv (hempty k v), ?_⟩, hf, hc⟩
    rintro ⟨⟩
  | @set log strings map new heap key value run h ih =>
    obtain ⟨bits, hk⟩ := ih
    obtain ⟨turns, h⟩ := h
    have hret : hashSet _ strings heap (some map) key value = _ :=
      h (max turns (13 + 2 ^ (bits + 1))) (Nat.le_max_left _ _)
    obtain ⟨-, new', e⟩ | ⟨new', bits', e, hl, hh⟩ :=
      hk.loaded.set heap (Nat.le_max_right turns (13 + 2 ^ (bits + 1))) key value
    · rw [hret] at e
      cases e
    · obtain ⟨hf, hc⟩ := hashSet_alike hret
      rw [hret] at e
      cases e
      refine ⟨bits', hl, fun k v => ?_, hf.trans hk.hfunc, hc.trans hk.cmp⟩
      rw [hh, hk.holds, HashLog.bound_cons]
      by_cases hkey : k = kind.key strings key
      · simp [hkey, eq_comm]
      · simp [hkey]
  | @del log strings map new heap key run h ih =>
    obtain ⟨bits, hk⟩ := ih
    obtain ⟨turns, h⟩ := h
    have hret : hashDel _ strings heap (some map) key = _ :=
      h (max turns (13 + 2 ^ (bits + 1))) (Nat.le_max_left _ _)
    obtain ⟨-, new', e⟩ | ⟨new', bits', e, hl, hh⟩ :=
      hk.loaded.del heap (Nat.le_max_right turns (13 + 2 ^ (bits + 1))) key
    · rw [hret] at e
      cases e
    · obtain ⟨hf, hc⟩ := hashDel_alike hret
      rw [hret] at e
      cases e
      refine ⟨bits', hl, fun k v => ?_, hf.trans hk.hfunc, hc.trans hk.cmp⟩
      rw [hh, hk.holds, HashLog.bound_cons]
      by_cases hkey : k = kind.key strings key
      · simp [hkey]
      · simp [hkey]
  | @write log strings map strings' run h ih =>
    obtain ⟨bits, hk⟩ := ih
    obtain ⟨hgood, hcells⟩ := hk.loaded.good.rewrite hk.hfunc hk.cmp h
    exact ⟨bits, ⟨hgood, hk.loaded.min, hk.loaded.max, hk.loaded.load⟩, by rw [hcells]; exact hk.holds, hk.hfunc, hk.cmp⟩

theorem HashLog.mem_present (log : HashLog) (k : HashKey) : k ∈ log.present ↔ ∃ v, log.bound k = some v := by
  rw [present, Finset.mem_filter, List.mem_toFinset, Option.isSome_iff_exists]
  constructor
  · exact fun h => h.2
  · rintro ⟨v, hv⟩
    refine ⟨?_, v, hv⟩
    by_contra hno
    have : log.lookup k = none := by
      rw [List.lookup_eq_none_iff]
      rintro ⟨k', o⟩ hmem
      rw [bne_iff_ne]
      rintro rfl
      exact hno (List.mem_map_of_mem hmem)
    rw [bound, this] at hv
    cases hv

/-- **A hash table is a finite map**: in every run of `hash_set` and `hash_del` calls
that return 0, `hash_get` and `hash_isset` return what the last call on the same key
made of it; `count` is the number of keys present, `fill` the number of slots not
empty, the size a power of two of at least 8, and less than two thirds of the slots
are filled, so that every call returns. A call fails only when an allocation does. -/
theorem hash_table_is_map {kind : TableKind} {log : HashLog} {strings : Strings} {map : HashTable}
    (run : TableRun kind log strings map) :
    (∀ key default,
      Returns (fun fuel => hashGet fuel strings (some map) key default)
          ((log.bound (kind.key strings key)).getD default) ∧
        Returns (fun fuel => hashIsset fuel strings (some map) key)
          (if (log.bound (kind.key strings key)).isSome then 1 else 0)) ∧
      map.count = log.present.card ∧
      map.fill = map.table.countP (fun slot => slot.mode = .active || slot.mode = .deleted) ∧
      (∃ bits, 3 ≤ bits ∧ map.table.length = 2 ^ bits ∧ 3 * map.fill < 2 * 2 ^ bits ∧
        ∀ heap key value,
          (∃ r new, Returns (fun fuel => hashSet fuel strings heap (some map) key value) (r, some new) ∧
            (r = 0 ∨ heap.Refuses bits)) ∧
          ∃ r new, Returns (fun fuel => hashDel fuel strings heap (some map) key) (r, some new) ∧
            (r = 0 ∨ heap.Refuses bits)) := by
  obtain ⟨bits, hk⟩ := run.keeps
  have hgood := hk.loaded.good
  refine ⟨fun key default => ?_, ?_, ?_, bits, hk.loaded.min, hgood.length, hk.loaded.load, fun heap key value => ⟨?_, ?_⟩⟩
  · obtain ⟨v, hv, hget, hisset⟩ | ⟨hno, hget, hisset⟩ := hk.loaded.get (Nat.le_refl _) key default
    · rw [hk.holds] at hv
      rw [hv]
      exact ⟨(hashGet_steady strings map key default).returns hget, (hashIsset_steady strings map key).returns hisset⟩
    · have hnone : log.bound (kind.key strings key) = none := by
        rw [Option.eq_none_iff_forall_not_mem]
        exact fun v hv => hno v ((hk.holds _ _).2 hv)
      rw [hnone]
      exact ⟨(hashGet_steady strings map key default).returns hget, (hashIsset_steady strings map key).returns hisset⟩
  · rw [hgood.count, hgood.sound.card]
    intro k
    rw [HashLog.mem_present]
    exact exists_congr fun v => (hk.holds k v).symm
  · rw [hgood.fill, Cells.filled, HashTable.cells, List.countP_map]
    congr 2
    funext slot
    cases hm : slot.mode <;> simp [HashSlot.cell, hm, Cell.filled]
  · obtain ⟨hr, new, e⟩ | ⟨new, bits', e, -⟩ := hk.loaded.set heap (Nat.le_refl _) key value
    · exact ⟨-1, new, (hashSet_steady strings heap map key value).returns e, .inr hr⟩
    · exact ⟨0, new, (hashSet_steady strings heap map key value).returns e, .inl rfl⟩
  · obtain ⟨hr, new, e⟩ | ⟨new, bits', e, -⟩ := hk.loaded.del heap (Nat.le_refl _) key
    · exact ⟨-1, new, (hashDel_steady strings heap map key).returns e, .inr hr⟩
    · exact ⟨0, new, (hashDel_steady strings heap map key).returns e, .inl rfl⟩

/-- A heap that grants what fits. -/
def Heap.roomy : Heap := ⟨fun n => n.toNat ≤ heapSize, fun _ h => of_decide_eq_true h⟩

/-- A direct table in which the key 5 is set to 7 and the key 13, on the same slot, to 9; then 5 is deleted. -/
theorem hash_table_is_map_collision : ∃ map,
    TableRun .direct [(.address 5, none), (.address 13, some 9), (.address 5, some 7)] (fun _ => ⟨[], by simp⟩) map ∧
      Returns (fun fuel => hashGet fuel (fun _ => ⟨[], by simp⟩) (some map) 13 0) 9 ∧
      Returns (fun fuel => hashGet fuel (fun _ => ⟨[], by simp⟩) (some map) 5 0) 0 := by
  have start : TableRun .direct [] (fun _ => ⟨[], by simp⟩) _ :=
    @TableRun.init .direct Heap.roomy ⟨0, 0, 0, [], hashDirectHfunc, hashDirectCmp⟩ _ _ rfl
  have first := start.set ((hashSet_steady _ Heap.roomy _ 5 7).returns (n := 21) rfl)
  have second := first.set ((hashSet_steady _ Heap.roomy _ 13 9).returns (n := 21) rfl)
  have third := second.del ((hashDel_steady _ Heap.roomy _ 5).returns (n := 21) rfl)
  have h := hash_table_is_map third
  exact ⟨_, third, (h.1 13 0).1, (h.1 5 0).1⟩

/-! ## The loop of `hash_lookup` on any table -/

/-- The loop stops at an `EMPTY` slot that its walk meets, if it has not stopped before. -/
theorem hashLookupLoop_ends {strings : Strings} {map : HashTable} {key : Word} {hash : BitVec 64} {slot : HashSlot}
    (hwalk : ∀ c : Probe.Cursor 64, c.slot map.mask < map.table.length) (n : Nat) :
    ∀ (c : Probe.Cursor 64) (freeslot : Option Nat), (∀ i, freeslot = some i → i < map.table.length) →
      map.table[(Probe.Cursor.next^[n] c).slot map.mask]? = some slot → slot.mode = .empty →
      ∃ i, hashLookupLoop strings map key hash (n + 1) c freeslot = some i ∧ i < map.table.length := by
  induction n with
  | zero =>
    intro c freeslot hfree hslot hempty
    rw [Function.iterate_zero_apply] at hslot
    refine ⟨freeslot.getD (c.slot map.mask), by simp [hashLookupLoop, hslot, hempty], ?_⟩
    cases freeslot with
    | none => exact hwalk c
    | some i => exact hfree i rfl
  | succ n ih =>
    intro c freeslot hfree hslot hempty
    rw [Function.iterate_succ_apply] at hslot
    have hread := List.getElem?_eq_getElem (hwalk c)
    rw [hashLookupLoop, hread]
    simp only [Option.bind_eq_bind, Option.bind_some]
    split
    · refine ⟨_, rfl, ?_⟩
      cases freeslot with
      | none => exact hwalk c
      | some i => exact hfree i rfl
    · split
      · exact ⟨_, rfl, hwalk c⟩
      · -- the slot is remembered when it is the first `DELETED` one
        apply ih c.next _ _ hslot hempty
        intro i hi
        split at hi
        · obtain rfl := Option.some.inj hi
          exact hwalk c
        · exact hfree i hi

/-- The walk of `hash_lookup` for any hash visits every slot of a table of `2 ^ k` slots, and
the lookup of any key returns a slot of the table if one of its slots is `EMPTY`. -/
theorem hash_lookup_ends {k : Nat} {map : HashTable} (hk : k < 64) (hmask : map.mask = BitVec.ofNat 64 (2 ^ k - 1))
    (hsize : map.table.length = 2 ^ k) (hash : BitVec 64) :
    (∀ j, j < 2 ^ k → ∃ n, n < 13 + 2 ^ k ∧ hashWalk map.mask hash n = j) ∧
      ((∃ slot ∈ map.table, slot.mode = .empty) → ∀ strings key,
        ∃ i, Returns (fun fuel => hashLookup fuel strings map key hash) i ∧ i < 2 ^ k) := by
  have hvisits : ∀ j, j < 2 ^ k → ∃ n, n < 13 + 2 ^ k ∧ hashWalk map.mask hash n = j := by
    intro j hj
    obtain ⟨n, hn, h⟩ := Probe.Cursor.covers hk (t := 13) (by decide) ⟨hash &&& map.mask, hash⟩ hj
    rw [← hmask] at h
    exact ⟨n, hn, h⟩
  refine ⟨hvisits, fun hempty strings key => ?_⟩
  obtain ⟨slot, hmem, hmode⟩ := hempty
  obtain ⟨j, hj, hslot⟩ := List.mem_iff_getElem.1 hmem
  rw [hsize] at hj
  obtain ⟨n, -, h⟩ := hvisits j hj
  have hwalk : ∀ c : Probe.Cursor 64, c.slot map.mask < map.table.length := by
    intro c
    rw [hsize, hmask, Probe.Cursor.slot_eq hk]
    exact Nat.mod_lt _ (Nat.two_pow_pos k)
  have hread : map.table[hashWalk map.mask hash n]? = some slot := by
    rw [h, ← hslot]
    exact List.getElem?_eq_getElem _
  obtain ⟨i, hi, hlt⟩ := hashLookupLoop_ends hwalk n _ none (by simp) hread hmode
  rw [hsize] at hlt
  exact ⟨i, (hashLookup_steady strings map key hash).returns hi, hlt⟩

/-- A table of eight slots of which only the last is `EMPTY`, and the hash -1. -/
theorem hash_lookup_ends_last : ∃ i, Returns (fun fuel => hashLookup fuel (fun _ => ⟨[], by simp⟩)
    ⟨7, 0, 7, List.replicate 7 ⟨1, 1, 1, .deleted⟩ ++ [emptySlot], hashDirectHfunc, hashDirectCmp⟩ 5 (-1)) i ∧ i < 2 ^ 3 :=
  (hash_lookup_ends (k := 3) (by decide) rfl rfl (-1)).2 ⟨emptySlot, by simp, rfl⟩ _ 5

end Xinul
