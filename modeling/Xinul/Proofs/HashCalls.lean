import Mathlib.Tactic.IntervalCases
import Xinul.Lib.Fuel
import Xinul.Proofs.HashTable

/-!
# The calls of `hash.c`

`hash_update` brings a table back under its load; from a table under its load
every call returns and does to the bindings what its name says.
-/

namespace Xinul

variable {K : Type} {strings : Strings} {map : HashTable} {key : Word → K} {code : K → BitVec 64} {bits fuel : Nat}

/-- A table with at least 8 slots, within the heap, less than two thirds of them filled. -/
structure HashTable.Loaded (map : HashTable) (strings : Strings) (key : Word → K) (code : K → BitVec 64) (bits : Nat) :
    Prop where
  good : map.Good strings key code bits
  min : 3 ≤ bits
  max : bits ≤ 20
  load : 3 * map.fill < 2 * 2 ^ bits

theorem HashTable.Loaded.room (h : map.Loaded strings key code bits) : Cells.filled (map.cells key) < 2 ^ bits := by
  have h1 := h.good.fill
  have h2 := h.load
  have h3 : ((2 ^ bits : Nat) : Int) = 2 ^ bits := by push_cast; rfl
  omega

/-! ## `hash_update` -/

/-- The sizes `hash_update` computes from the mask. -/
theorem update_sizes (hmin : 3 ≤ bits) (hmax : bits ≤ 20) :
    (BitVec.ofNat 64 (2 ^ bits - 1) + 1).toInt = 2 ^ bits ∧
      (BitVec.ofNat 64 (2 ^ bits - 1) + 1) <<< 1 = BitVec.ofNat 64 (2 ^ (bits + 1)) ∧
      (BitVec.ofNat 64 (2 ^ (bits + 1))).slt (BitVec.ofNat 64 (2 ^ bits - 1) + 1) = false ∧
      (hashMinsize.slt (BitVec.ofNat 64 (2 ^ bits - 1) + 1) = true → 3 < bits) ∧
      (BitVec.ofNat 64 (2 ^ bits - 1) + 1).sshiftRight 1 = BitVec.ofNat 64 (2 ^ (bits - 1)) := by
  interval_cases bits <;> decide

/-- A granted table is within the heap. -/
theorem Heap.bits_le (heap : Heap) (hb : bits ≤ 21) (h : heap.grants (BitVec.ofNat 64 (2 ^ bits) * sizeofHashSlot)) :
    bits ≤ 20 := by
  have hw := heap.within _ h
  by_contra hlt
  obtain rfl : bits = 21 := by omega
  exact absurd hw (by decide)

/-- The end of `hash_update`: a refused table leaves everything as it was, a
granted one takes over what the old one holds. -/
theorem HashTable.Good.resize (h : map.Good strings key code bits) (heap : Heap) (bits' : Nat) (hmin : 3 ≤ bits') (hmax : bits' ≤ 21)
    (hsmall : 3 * Cells.live (map.cells key) < 2 * 2 ^ bits') (hfuel : 13 + 2 ^ bits' ≤ fuel) :
    (heap.grants (BitVec.ofNat 64 (2 ^ bits') * sizeofHashSlot) = false ∧
        hashResize fuel strings heap map (BitVec.ofNat 64 (2 ^ bits')) = some (-1, map)) ∨
      heap.grants (BitVec.ofNat 64 (2 ^ bits') * sizeofHashSlot) = true ∧
        ∃ new, hashResize fuel strings heap map (BitVec.ofNat 64 (2 ^ bits')) = some (0, new) ∧
          new.Loaded strings key code bits' ∧
          ∀ k v, Cells.Holds (new.cells key) k v ↔ Cells.Holds (map.cells key) k v := by
  rw [hashResize, hashInitialize]
  cases hg : heap.grants (BitVec.ofNat 64 (2 ^ bits') * sizeofHashSlot) with
  | false => exact .inl ⟨rfl, rfl⟩
  | true =>
    have hcells := HashTable.cells_fresh map key (BitVec.ofNat 64 (2 ^ bits'))
    have hstart : Copied strings key code bits' [] (map.fresh (BitVec.ofNat 64 (2 ^ bits'))) := by
      refine ⟨h.compares.fresh (by omega), ?_, rfl, rfl, ?_⟩
      · intro k v
        rw [hcells]
        constructor
        · exact fun hv => absurd hv not_holds_replicate
        · rintro ⟨i, hi⟩
          simp at hi
      · intro slot hs
        cases List.eq_of_mem_replicate hs
        decide
    obtain ⟨new, hnew, hc⟩ := h.copy bits' (by omega) hfuel map.table [] _ rfl hstart
    refine .inr ⟨rfl, new, ?_, ⟨hc.good, hmin, heap.bits_le hmax hg, ?_⟩, hc.holds⟩
    · simp only [if_true]
      rw [if_neg (by decide)]
      change (hashCopy fuel strings (map.fresh (BitVec.ofNat 64 (2 ^ bits'))) map.table).bind _ = _
      rw [hnew]
      rfl
    · have h1 := hc.fill
      have h2 : new.count = (Cells.live (map.cells key) : Int) := hc.count
      have h3 : ((2 ^ bits' : Nat) : Int) = 2 ^ bits' := by push_cast; rfl
      omega

/-- The size of the table `hash_update` asks for, if any. -/
def HashTable.asks (map : HashTable) : Option (BitVec 64) :=
  let oldSize := map.mask + 1
  if 3 * map.fill ≥ 2 * oldSize.toInt then some (oldSize <<< 1)
  else if hashMinsize.slt oldSize ∧ 4 * map.count ≤ oldSize.toInt then some (oldSize.sshiftRight 1)
  else none

/-- What `hash_update` does: it asks for no table, is refused one, or moves to it. -/
inductive Updated (fuel : Nat) (strings : Strings) (heap : Heap) (map : HashTable) (key : Word → K) (code : K → BitVec 64)
    (bits : Nat) : Prop where
  | kept (asks : map.asks = none) (run : hashUpdate fuel strings heap map = some (0, map)) (load : 3 * map.fill < 2 * 2 ^ bits)
  | refused (size : Nat) (near : size = bits + 1 ∨ size + 1 = bits ∧ 3 * map.fill < 2 * 2 ^ bits)
      (asks : map.asks = some (BitVec.ofNat 64 (2 ^ size)))
      (denied : heap.grants (BitVec.ofNat 64 (2 ^ size) * sizeofHashSlot) = false)
      (run : hashUpdate fuel strings heap map = some (-1, map))
  | moved (size : Nat) (new : HashTable) (asks : map.asks = some (BitVec.ofNat 64 (2 ^ size)))
      (granted : heap.grants (BitVec.ofNat 64 (2 ^ size) * sizeofHashSlot) = true)
      (run : hashUpdate fuel strings heap map = some (0, new)) (loaded : new.Loaded strings key code size)
      (holds : ∀ k v, Cells.Holds (new.cells key) k v ↔ Cells.Holds (map.cells key) k v)

/-- `hash_update` returns. -/
theorem HashTable.Good.update_returns (h : map.Good strings key code bits) (hmin : 3 ≤ bits) (hmax : bits ≤ 20)
    (heap : Heap) (hfuel : 13 + 2 ^ (bits + 1) ≤ fuel) : Updated fuel strings heap map key code bits := by
  obtain ⟨hsize, hgrow, hover, hmore, hshrink⟩ := update_sizes hmin hmax
  have hlive : Cells.live (map.cells key) ≤ 2 ^ bits := by
    rw [← h.length_cells]
    exact List.countP_le_length
  have hpow : 2 ^ (bits + 1) = 2 * 2 ^ bits := Nat.pow_succ'
  have hpos := Nat.two_pow_pos bits
  have hcast : ((2 ^ bits : Nat) : Int) = 2 ^ bits := by push_cast; rfl
  have hcount := h.count
  by_cases hfull : 3 * map.fill ≥ 2 * 2 ^ bits
  · have hasks : map.asks = some (BitVec.ofNat 64 (2 ^ (bits + 1))) := by
      simp only [HashTable.asks, h.mask, hsize, hgrow]
      rw [if_pos hfull]
    have hrun : hashUpdate fuel strings heap map = hashResize fuel strings heap map (BitVec.ofNat 64 (2 ^ (bits + 1))) := by
      rw [hashUpdate, h.mask]
      simp only [hsize, hgrow]
      rw [if_pos hfull, hover, if_neg (by decide)]
    obtain ⟨hg, e⟩ | ⟨hg, new, e, hl, hh⟩ := h.resize heap (bits + 1) (by omega) (by omega) (by omega) hfuel
    · exact .refused (bits + 1) (.inl rfl) hasks hg (hrun.trans e)
    · exact .moved (bits + 1) new hasks hg (hrun.trans e) hl hh
  · have hload : 3 * map.fill < 2 * 2 ^ bits := by omega
    by_cases hlow : hashMinsize.slt (BitVec.ofNat 64 (2 ^ bits - 1) + 1) = true ∧ 4 * map.count ≤ 2 ^ bits
    · have hthree := hmore hlow.1
      have hhalf : 2 ^ bits = 2 * 2 ^ (bits - 1) := by rw [← Nat.pow_succ']; congr 1; omega
      have hfew := hlow.2
      have hasks : map.asks = some (BitVec.ofNat 64 (2 ^ (bits - 1))) := by
        simp only [HashTable.asks, h.mask, hsize, hshrink]
        rw [if_neg hfull, if_pos hlow]
      have hrun : hashUpdate fuel strings heap map = hashResize fuel strings heap map (BitVec.ofNat 64 (2 ^ (bits - 1))) := by
        rw [hashUpdate, h.mask]
        simp only [hsize, hshrink]
        rw [if_neg hfull, if_pos hlow]
      obtain ⟨hg, e⟩ | ⟨hg, new, e, hl, hh⟩ :=
        h.resize heap (bits - 1) (by omega) (by omega) (by omega) (Nat.le_trans (by omega) hfuel)
      · exact .refused (bits - 1) (.inr ⟨by omega, hload⟩) hasks hg (hrun.trans e)
      · exact .moved (bits - 1) new hasks hg (hrun.trans e) hl hh
    · refine .kept ?_ ?_ hload
      · simp only [HashTable.asks, h.mask, hsize]
        rw [if_neg hfull, if_neg hlow]
      · rw [hashUpdate, h.mask]
        simp only [hsize]
        rw [if_neg hfull, if_neg hlow]

/-- `hash_update` returns: either it was refused a table, or the table is under its load and holds what it held. -/
theorem HashTable.Good.updated (h : map.Good strings key code bits) (hmin : 3 ≤ bits) (hmax : bits ≤ 20)
    (heap : Heap) (hfuel : 13 + 2 ^ (bits + 1) ≤ fuel) :
    (∃ size, heap.grants (BitVec.ofNat 64 (2 ^ size) * sizeofHashSlot) = false ∧ (size = bits + 1 ∨ size + 1 = bits) ∧
        hashUpdate fuel strings heap map = some (-1, map)) ∨
      ∃ new bits', hashUpdate fuel strings heap map = some (0, new) ∧ new.Loaded strings key code bits' ∧
        ∀ k v, Cells.Holds (new.cells key) k v ↔ Cells.Holds (map.cells key) k v := by
  cases h.update_returns hmin hmax heap hfuel with
  | kept asks run load => exact .inr ⟨map, bits, run, ⟨h, hmin, hmax, load⟩, fun _ _ => Iff.rfl⟩
  | refused size near asks denied run => exact .inl ⟨size, denied, near.imp_right And.left, run⟩
  | moved size new asks granted run loaded holds => exact .inr ⟨new, size, run, loaded, holds⟩

/-! ## The calls -/

/-- One of the two tables `hash_update` may ask for is refused. -/
def Heap.Refuses (heap : Heap) (bits : Nat) : Prop :=
  ∃ size, heap.grants (BitVec.ofNat 64 (2 ^ size) * sizeofHashSlot) = false ∧ (size = bits + 1 ∨ size + 1 = bits)

/-- A table with at least 8 slots, within the heap, one of them empty. -/
structure HashTable.Roomy (map : HashTable) (strings : Strings) (key : Word → K) (code : K → BitVec 64) (bits : Nat) :
    Prop where
  good : map.Good strings key code bits
  min : 3 ≤ bits
  max : bits ≤ 20
  room : map.fill < 2 ^ bits

theorem HashTable.Roomy.filled (h : map.Roomy strings key code bits) : Cells.filled (map.cells key) < 2 ^ bits := by
  have h1 := h.good.fill
  have h2 := h.room
  have h3 : ((2 ^ bits : Nat) : Int) = 2 ^ bits := by push_cast; rfl
  omega

theorem HashTable.Loaded.roomy (h : map.Loaded strings key code bits) : map.Roomy strings key code bits := by
  refine ⟨h.good, h.min, h.max, ?_⟩
  have hload := h.load
  have hpos : (0 : Int) < 2 ^ bits := by positivity
  omega

/-- `hash_isset` and `hash_get` return what the table holds. -/
theorem HashTable.Roomy.get (h : map.Roomy strings key code bits) (hfuel : 13 + 2 ^ bits ≤ fuel) (a default : Word) :
    (∃ v, Cells.Holds (map.cells key) (key a) v ∧ hashGet fuel strings (some map) a default = some v ∧
        hashIsset fuel strings (some map) a = some 1) ∨
      ((∀ v, ¬ Cells.Holds (map.cells key) (key a) v) ∧ hashGet fuel strings (some map) a default = some default ∧
        hashIsset fuel strings (some map) a = some 0) := by
  obtain ⟨i, slot, hi, hslot, hf⟩ := h.good.found h.filled hfuel a
  rw [hashGet, hashIsset]
  simp only [hi, hslot, Option.bind_eq_bind, Option.bind_some]
  cases hf with
  | hit active same =>
    refine .inl ⟨slot.value, ⟨i, ?_⟩, by rw [if_pos active], by rw [if_pos active]⟩
    rw [HashTable.cells_getElem, hslot, Option.map_some, HashSlot.cell_active active, same]
  | miss free absent => exact .inr ⟨absent, by rw [if_neg free], by rw [if_neg free]⟩

theorem HashTable.Loaded.get (h : map.Loaded strings key code bits) (hfuel : 13 + 2 ^ bits ≤ fuel) (a default : Word) :
    (∃ v, Cells.Holds (map.cells key) (key a) v ∧ hashGet fuel strings (some map) a default = some v ∧
        hashIsset fuel strings (some map) a = some 1) ∨
      ((∀ v, ¬ Cells.Holds (map.cells key) (key a) v) ∧ hashGet fuel strings (some map) a default = some default ∧
        hashIsset fuel strings (some map) a = some 0) :=
  h.roomy.get hfuel a default

/-- `hash_set` returns: the key has the value, unless a larger or smaller table was refused. -/
theorem HashTable.Loaded.set (h : map.Loaded strings key code bits) (heap : Heap) (hfuel : 13 + 2 ^ (bits + 1) ≤ fuel)
    (a v : Word) :
    (heap.Refuses bits ∧ ∃ new, hashSet fuel strings heap (some map) a v = some (-1, some new)) ∨
      ∃ new bits', hashSet fuel strings heap (some map) a v = some (0, some new) ∧ new.Loaded strings key code bits' ∧
        ∀ k' v', Cells.Holds (new.cells key) k' v' ↔
          (k' = key a ∧ v' = v) ∨ (k' ≠ key a ∧ Cells.Holds (map.cells key) k' v') := by
  have hpow : 2 ^ (bits + 1) = 2 * 2 ^ bits := Nat.pow_succ'
  obtain ⟨i, slot, hi, hslot, hf⟩ := h.good.found h.room (Nat.le_trans (by omega) hfuel) a
  rw [hashSet]
  simp only [hi, hslot, Option.bind_eq_bind, Option.bind_some]
  cases hf with
  | hit active same =>
    rw [if_pos active]
    obtain ⟨hgood, hholds⟩ := h.good.update hslot active same v
    exact .inr ⟨_, bits, rfl, ⟨hgood, h.min, h.max, h.load⟩, hholds⟩
  | miss free absent n walk passes =>
    rw [if_neg free]
    obtain ⟨hgood, hholds⟩ := h.good.insert ⟨a, v, map.hfunc strings a, .active⟩ hslot free rfl
      (h.good.compares.hash a) absent walk passes _ rfl
    obtain ⟨size, hg, hsize, e⟩ | ⟨new, bits', e, hl, hh⟩ := hgood.updated h.min h.max heap hfuel
    · refine .inl ⟨⟨size, hg, hsize⟩, ?_⟩
      rw [HashTable.put] at e
      rw [e]
      exact ⟨_, rfl⟩
    · refine .inr ⟨new, bits', ?_, hl, fun k' v' => ?_⟩
      · rw [HashTable.put] at e
        rw [e]
        rfl
      · rw [hh, hholds]
        constructor
        · rintro (he | hv)
          · exact .inl he
          · refine .inr ⟨?_, hv⟩
            rintro rfl
            exact absent v' hv
        · rintro (he | ⟨-, hv⟩)
          · exact .inl he
          · exact .inr hv

/-- `hash_del` returns: the key is gone, unless a smaller table was refused. -/
theorem HashTable.Loaded.del (h : map.Loaded strings key code bits) (heap : Heap) (hfuel : 13 + 2 ^ (bits + 1) ≤ fuel)
    (a : Word) :
    (heap.Refuses bits ∧ ∃ new, hashDel fuel strings heap (some map) a = some (-1, some new)) ∨
      ∃ new bits', hashDel fuel strings heap (some map) a = some (0, some new) ∧ new.Loaded strings key code bits' ∧
        ∀ k' v', Cells.Holds (new.cells key) k' v' ↔ k' ≠ key a ∧ Cells.Holds (map.cells key) k' v' := by
  have hpow : 2 ^ (bits + 1) = 2 * 2 ^ bits := Nat.pow_succ'
  obtain ⟨i, slot, hi, hslot, hf⟩ := h.good.found h.room (Nat.le_trans (by omega) hfuel) a
  rw [hashDel]
  simp only [hi, hslot, Option.bind_eq_bind, Option.bind_some]
  cases hf with
  | hit active same =>
    rw [if_neg (by simp [active])]
    obtain ⟨hgood, hholds⟩ := h.good.delete hslot active same
    obtain ⟨size, hg, hsize, e⟩ | ⟨new, bits', e, hl, hh⟩ := hgood.updated h.min h.max heap hfuel
    · refine .inl ⟨⟨size, hg, hsize⟩, ?_⟩
      rw [HashTable.put] at e
      rw [e]
      exact ⟨_, rfl⟩
    · refine .inr ⟨new, bits', ?_, hl, fun k' v' => ?_⟩
      · rw [HashTable.put] at e
        rw [e]
        rfl
      · rw [hh, hholds]
  | miss free absent =>
    rw [if_pos free]
    refine .inr ⟨map, bits, rfl, h, fun k' v' => ⟨fun hv => ⟨?_, hv⟩, fun hv => hv.2⟩⟩
    rintro rfl
    exact absent v' hv

/-- `hash_init` makes an empty table under its load. -/
theorem HashTable.Compares.init (heap : Heap) (map : HashTable) {hfunc : Strings → Word → BitVec 64}
    {cmp : Strings → Word → Word → Bool} {new : HashTable} (hi : hashInit heap map hfunc cmp = (0, new))
    (hcmp : ∀ a b, cmp strings a b = true ↔ key a = key b) (hhash : ∀ a, hfunc strings a = code (key a)) :
    new.Loaded strings key code 3 ∧ (∀ k v, ¬ Cells.Holds (new.cells key) k v) ∧ new.hfunc = hfunc ∧ new.cmp = cmp := by
  rw [hashInit, hashInitialize] at hi
  split at hi
  next r m e =>
  split at e
  next =>
    cases e
    rw [if_neg (by decide)] at hi
    cases hi
    have hc : HashTable.Compares { map with hfunc := hfunc, cmp := cmp } strings key code := ⟨hcmp, hhash⟩
    have hload : 3 * (0 : Int) < 2 * 2 ^ 3 := by decide
    refine ⟨⟨hc.fresh (by decide : 3 < 64), by decide, by decide, hload⟩, fun k v => ?_, rfl, rfl⟩
    change ¬ Cells.Holds (HashTable.cells (HashTable.fresh { map with hfunc := hfunc, cmp := cmp } hashMinsize) key) k v
    rw [HashTable.cells_fresh]
    exact not_holds_replicate
  next =>
    cases e
    rw [if_pos rfl] at hi
    cases hi

/-! ## The functions of a table stay -/

/-- The new table hashes and compares as the old one. -/
def HashTable.Alike (map new : HashTable) : Prop := new.hfunc = map.hfunc ∧ new.cmp = map.cmp

theorem HashTable.Alike.trans {map mid new : HashTable} (h : map.Alike mid) (h' : mid.Alike new) : map.Alike new :=
  ⟨h'.1.trans h.1, h'.2.trans h.2⟩

theorem hashCopySlot_alike {new : HashTable} {slot : HashSlot} (h : hashCopySlot fuel strings map slot = some new) :
    map.Alike new := by
  rw [hashCopySlot] at h
  split at h
  next =>
    cases h
    exact ⟨rfl, rfl⟩
  next =>
    rw [Option.bind_eq_bind, Option.bind_eq_some_iff] at h
    obtain ⟨i, -, e⟩ := h
    cases e
    exact ⟨rfl, rfl⟩

theorem hashCopy_alike {slots : List HashSlot} {new : HashTable} (h : hashCopy fuel strings map slots = some new) :
    map.Alike new := by
  induction slots generalizing map with
  | nil =>
    cases h
    exact ⟨rfl, rfl⟩
  | cons slot slots ih =>
    rw [hashCopy, List.foldlM_cons, Option.bind_eq_bind, Option.bind_eq_some_iff] at h
    obtain ⟨mid, hmid, h⟩ := h
    exact (hashCopySlot_alike hmid).trans (ih h)

theorem hashResize_alike {heap : Heap} {size : BitVec 64} {r : Int} {new : HashTable}
    (h : hashResize fuel strings heap map size = some (r, new)) : map.Alike new := by
  rw [hashResize, hashInitialize] at h
  split at h
  next r' mid e =>
  have hmid : map.Alike mid := by
    split at e
    all_goals
      cases e
      exact ⟨rfl, rfl⟩
  split at h
  next =>
    cases h
    exact hmid
  next =>
    rw [Option.bind_eq_bind, Option.bind_eq_some_iff] at h
    obtain ⟨mid', hc, e⟩ := h
    cases e
    exact hmid.trans (hashCopy_alike hc)

theorem hashUpdate_alike {heap : Heap} {r : Int} {new : HashTable}
    (h : hashUpdate fuel strings heap map = some (r, new)) : map.Alike new := by
  simp only [hashUpdate] at h
  split at h
  next =>
    split at h
    next =>
      cases h
      exact ⟨rfl, rfl⟩
    next => exact hashResize_alike h
  next =>
    split at h
    next => exact hashResize_alike h
    next =>
      cases h
      exact ⟨rfl, rfl⟩

theorem hashSet_alike {heap : Heap} {a v : Word} {r : Int} {new : HashTable}
    (h : hashSet fuel strings heap (some map) a v = some (r, some new)) : map.Alike new := by
  simp only [hashSet, Option.bind_eq_bind, Option.bind_eq_some_iff] at h
  obtain ⟨i, -, slot, -, h⟩ := h
  split at h
  next =>
    cases h
    exact ⟨rfl, rfl⟩
  next =>
    rw [Option.bind_eq_some_iff] at h
    obtain ⟨⟨r', mid⟩, hu, e⟩ := h
    cases e
    obtain ⟨hf, hc⟩ := hashUpdate_alike hu
    exact ⟨hf, hc⟩

theorem hashDel_alike {heap : Heap} {a : Word} {r : Int} {new : HashTable}
    (h : hashDel fuel strings heap (some map) a = some (r, some new)) : map.Alike new := by
  simp only [hashDel, Option.bind_eq_bind, Option.bind_eq_some_iff] at h
  obtain ⟨i, -, slot, -, h⟩ := h
  split at h
  next =>
    cases h
    exact ⟨rfl, rfl⟩
  next =>
    rw [Option.bind_eq_some_iff] at h
    obtain ⟨⟨r', mid⟩, hu, e⟩ := h
    cases e
    obtain ⟨hf, hc⟩ := hashUpdate_alike hu
    exact ⟨hf, hc⟩

/-! ## More turns never change a result -/

open Fuel

theorem hashLookup_steady (strings : Strings) (map : HashTable) (a : Word) (hash : BitVec 64) :
    Steady fun fuel => hashLookup fuel strings map a hash := by
  suffices h : ∀ n m i c free, n ≤ m → hashLookupLoop strings map a hash n c free = some i →
      hashLookupLoop strings map a hash m c free = some i from
    fun n m i hm hi => h n m i _ _ hm hi
  intro n
  induction n with
  | zero =>
    intro m i c free _ hi
    cases hi
  | succ n ih =>
    intro m i c free hm hi
    obtain ⟨m, rfl⟩ : ∃ m', m = m' + 1 := ⟨m - 1, by omega⟩
    rw [hashLookupLoop, Option.bind_eq_bind, Option.bind_eq_some_iff] at hi ⊢
    obtain ⟨slot, hslot, hi⟩ := hi
    refine ⟨slot, hslot, ?_⟩
    split at hi
    next he => rw [if_pos he]; exact hi
    next he =>
      rw [if_neg he]
      split at hi
      next hs => rw [if_pos hs]; exact hi
      next hs => rw [if_neg hs]; exact ih m i _ _ (by omega) hi

theorem hashUpdate_steady (strings : Strings) (heap : Heap) (map : HashTable) :
    Steady fun fuel => hashUpdate fuel strings heap map := by
  have copySlot : ∀ map slot, Steady fun fuel => hashCopySlot fuel strings map slot := fun map slot =>
    .ite (.const _) ((hashLookup_steady strings map slot.key _).bind fun _ => .const _)
  have copy : ∀ map slots, Steady fun fuel => hashCopy fuel strings map slots := fun map slots =>
    Steady.foldlM copySlot slots map
  have resize : ∀ size, Steady fun fuel => hashResize fuel strings heap map size := fun size =>
    .ite (.const _) ((copy _ map.table).bind fun _ => .const _)
  exact .ite (.ite (.const _) (resize _)) (.ite (resize _) (.const _))

theorem hashGet_steady (strings : Strings) (map : HashTable) (a default : Word) :
    Steady fun fuel => hashGet fuel strings (some map) a default :=
  (hashLookup_steady strings map a _).bind fun _ => .const _

theorem hashIsset_steady (strings : Strings) (map : HashTable) (a : Word) :
    Steady fun fuel => hashIsset fuel strings (some map) a :=
  (hashLookup_steady strings map a _).bind fun _ => .const _

theorem hashSet_steady (strings : Strings) (heap : Heap) (map : HashTable) (a v : Word) :
    Steady fun fuel => hashSet fuel strings heap (some map) a v := by
  refine (hashLookup_steady strings map a _).bind fun i => (Steady.const _).bind fun slot => ?_
  exact .ite (.const _) ((hashUpdate_steady strings heap _).bind fun _ => .const _)

theorem hashDel_steady (strings : Strings) (heap : Heap) (map : HashTable) (a : Word) :
    Steady fun fuel => hashDel fuel strings heap (some map) a := by
  refine (hashLookup_steady strings map a _).bind fun i => (Steady.const _).bind fun slot => ?_
  exact .ite (.const _) ((hashUpdate_steady strings heap _).bind fun _ => .const _)

end Xinul
