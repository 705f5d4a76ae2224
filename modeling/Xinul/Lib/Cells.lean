import Mathlib.Data.List.Basic
import Mathlib.Data.Finset.Dedup
import Mathlib.Data.Finset.Card
import Mathlib.Order.Nat

/-!
# Open addressing with deleted cells

A table of cells, each empty, deleted or holding a key with its value, and for
every key a walk through the indices. The walk of a key passes a deleted cell
and a cell of another key, and stops at an empty cell or at a cell of the key.
The table is sound when every cell that holds a key is on the key's walk, before
any stop: a walk then finds a key exactly when the table holds it.
-/

inductive Cell (K V : Type) where
  | empty
  | active (k : K) (v : V)
  | deleted
  deriving DecidableEq

namespace Cell

variable {K V : Type}

/-- The walk of `k` goes on after this cell. -/
def Passes (k : K) : Cell K V → Prop
  | empty => False
  | active k' _ => k' ≠ k
  | deleted => True

/-- The cell is in use or was. -/
def filled : Cell K V → Bool
  | empty => false
  | _ => true

/-- The key a cell holds. -/
def key? : Cell K V → Option K
  | active k _ => some k
  | _ => none

theorem key?_eq_some {x : Cell K V} {k : K} : x.key? = some k ↔ ∃ v, x = active k v := by
  cases x with
  | empty => simp [key?]
  | active k' v => simp [key?]
  | deleted => simp [key?]

end Cell

namespace Cells

variable {K V : Type} {cells : List (Cell K V)} {path : K → Nat → Nat} {k : K} {v : V} {i n : Nat}

/-- The walk passes its first `n` cells. -/
def Passes (cells : List (Cell K V)) (walk : Nat → Nat) (k : K) (n : Nat) : Prop :=
  ∀ m, m < n → ∃ x, cells[walk m]? = some x ∧ x.Passes k

/-- The walk of `k` stops after `n` cells, at the cell `x`. -/
structure Stops (cells : List (Cell K V)) (walk : Nat → Nat) (k : K) (n : Nat) (x : Cell K V) : Prop where
  passes : Passes cells walk k n
  here : cells[walk n]? = some x
  stop : ¬ x.Passes k

/-- Every key held is on its walk, before any stop. -/
def Sound (cells : List (Cell K V)) (path : K → Nat → Nat) : Prop :=
  ∀ i k v, cells[i]? = some (.active k v) → ∃ n, path k n = i ∧ Passes cells (path k) k n

/-- The table holds `v` under `k`. -/
def Holds (cells : List (Cell K V)) (k : K) (v : V) : Prop :=
  ∃ i : Nat, cells[i]? = some (.active k v)

theorem holds_iff : Holds cells k v ↔ .active k v ∈ cells := List.mem_iff_getElem?.symm

/-- A walk that comes to an empty cell stops there or before. -/
theorem exists_stops {walk : Nat → Nat} {bound : Nat} (hin : ∀ m, walk m < cells.length)
    (hempty : ∃ m, m < bound ∧ cells[walk m]? = some .empty) (k : K) :
    ∃ n x, n < bound ∧ Stops cells walk k n x := by
  classical
  have hex : ∃ m, ∃ x, cells[walk m]? = some x ∧ ¬ x.Passes k := by
    obtain ⟨m, -, hm⟩ := hempty
    exact ⟨m, .empty, hm, fun h => h⟩
  obtain ⟨m, hm, he⟩ := hempty
  obtain ⟨x, hx, hs⟩ := Nat.find_spec hex
  refine ⟨Nat.find hex, x, ?_, ⟨?_, hx, hs⟩⟩
  · exact Nat.lt_of_le_of_lt (Nat.find_min' hex ⟨.empty, he, fun h => h⟩) hm
  · intro j hj
    have hn := Nat.find_min hex hj
    refine ⟨_, List.getElem?_eq_getElem (hin j), ?_⟩
    by_contra hp
    exact hn ⟨_, List.getElem?_eq_getElem (hin j), hp⟩

/-- The cells a walk passes are not the one it stops at. -/
theorem Stops.ne {walk : Nat → Nat} {x : Cell K V} (h : Stops cells walk k n x) {m : Nat} (hm : m < n) :
    walk m ≠ walk n := by
  intro e
  obtain ⟨y, hy, hp⟩ := h.passes m hm
  rw [e, h.here] at hy
  cases hy
  exact h.stop hp

/-- Both walks to a key have the same length. -/
theorem Stops.length_eq {walk : Nat → Nat} {x : Cell K V} (h : Stops cells walk k n x)
    (hm : cells[walk i]? = some (.active k v)) (hp : Passes cells walk k i) : n = i := by
  obtain hlt | he | hgt := Nat.lt_trichotomy n i
  · obtain ⟨y, hy, hpass⟩ := hp n hlt
    rw [h.here] at hy
    cases hy
    exact absurd hpass h.stop
  · exact he
  · obtain ⟨y, hy, hpass⟩ := h.passes i hgt
    rw [hm] at hy
    cases hy
    exact absurd rfl hpass

/-- A walk that stops at its key has found what the table holds. -/
theorem Sound.hit (hs : Sound cells path) {v' : V} (h : Stops cells (path k) k n (.active k v))
    (hi : cells[i]? = some (.active k v')) : i = path k n ∧ v' = v := by
  obtain ⟨m, rfl, hp⟩ := hs i k v' hi
  obtain rfl := h.length_eq hi hp
  have e := h.here
  rw [hi] at e
  cases e
  exact ⟨rfl, rfl⟩

/-- A walk that stops at an empty cell: the table does not hold the key. -/
theorem Sound.miss (hs : Sound cells path) (h : Stops cells (path k) k n .empty) : ¬ Holds cells k v := by
  rintro ⟨i, hi⟩
  obtain ⟨m, rfl, hp⟩ := hs i k v hi
  obtain rfl := h.length_eq hi hp
  rw [h.here] at hi
  cases hi

/-- A key is held in one cell. -/
theorem Sound.unique (hs : Sound cells path) {j : Nat} {v' : V} (hi : cells[i]? = some (.active k v))
    (hj : cells[j]? = some (.active k v')) : i = j := by
  obtain ⟨n, rfl, hp⟩ := hs i k v hi
  exact (hs.hit ⟨hp, hi, fun h => h rfl⟩ hj).1.symm

/-! ## One cell changes -/

/-- A cell is replaced by one that the walks of the other keys pass, and whose
own key, if any, has its walk come to it. -/
theorem Sound.set (hs : Sound cells path) {x : Cell K V}
    (others : ∀ j k' v', j ≠ i → cells[j]? = some (.active k' v') → x.Passes k')
    (own : ∀ k' v', x = .active k' v' → ∃ n, path k' n = i ∧ Passes cells (path k') k' n) :
    Sound (cells.set i x) path := by
  intro j k' v' hj
  have kept : ∀ n, Passes cells (path k') k' n → (∀ m, m < n → path k' m = i → x.Passes k') →
      Passes (cells.set i x) (path k') k' n := by
    intro n hp hx m hm
    obtain ⟨y, hy, hpass⟩ := hp m hm
    obtain ⟨hlt, -⟩ := List.getElem?_eq_some_iff.1 hy
    rw [List.getElem?_set]
    split
    next e =>
      rw [← e] at hlt
      exact ⟨x, by rw [if_pos hlt], hx m hm e.symm⟩
    next => exact ⟨y, hy, hpass⟩
  rw [List.getElem?_set] at hj
  split at hj
  next e =>
    split at hj
    next =>
      cases hj
      -- the shortest walk that comes to the cell does not pass it before
      classical
      have hex : ∃ n, path k' n = j := by
        obtain ⟨n, hn, -⟩ := own k' v' rfl
        exact ⟨n, hn.trans e⟩
      refine ⟨Nat.find hex, Nat.find_spec hex, kept _ ?_ ?_⟩
      · obtain ⟨n, hn, hp⟩ := own k' v' rfl
        intro m hm
        exact hp m (Nat.lt_of_lt_of_le hm (Nat.find_min' hex (hn.trans e)))
      · intro m hm hi
        exact absurd (hi.trans e) (Nat.find_min hex hm)
    next => cases hj
  next e =>
    obtain ⟨n, hn, hp⟩ := hs j k' v' hj
    exact ⟨n, hn, kept n hp fun _ _ _ => others j k' v' (Ne.symm e) hj⟩

theorem holds_set (hi : i < cells.length) {x : Cell K V} :
    Holds (cells.set i x) k v ↔ x = .active k v ∨ ∃ j, j ≠ i ∧ cells[j]? = some (.active k v) := by
  constructor
  · rintro ⟨j, hj⟩
    rw [List.getElem?_set] at hj
    split at hj
    next => exact .inl (Option.some.inj hj)
    next e => exact .inr ⟨j, Ne.symm e, hj⟩
  · rintro (rfl | ⟨j, hne, hj⟩)
    · exact ⟨i, by rw [List.getElem?_set_self hi]⟩
    · exact ⟨j, by rw [List.getElem?_set_ne (Ne.symm hne), hj]⟩

/-- A new key goes to a cell its walk comes to. -/
theorem Sound.insert (hs : Sound cells path) (habs : ∀ v', ¬ Holds cells k v') (hn : path k n = i)
    (hp : Passes cells (path k) k n) : Sound (cells.set i (.active k v)) path := by
  apply hs.set
  · rintro j k' v' - hj rfl
    exact habs v' ⟨j, hj⟩
  · rintro k' v' ⟨⟩
    exact ⟨n, hn, hp⟩

/-- What a table holds after a new key has gone to a cell that held none. -/
theorem holds_insert (hi : i < cells.length) (hold : ∀ k' v', cells[i]? ≠ some (.active k' v')) {k' : K} {v' : V} :
    Holds (cells.set i (.active k v)) k' v' ↔ (k' = k ∧ v' = v) ∨ Holds cells k' v' := by
  rw [holds_set hi]
  constructor
  · rintro (e | ⟨j, -, hj⟩)
    · cases e
      exact .inl ⟨rfl, rfl⟩
    · exact .inr ⟨j, hj⟩
  · rintro (⟨rfl, rfl⟩ | ⟨j, hj⟩)
    · exact .inl rfl
    · refine .inr ⟨j, ?_, hj⟩
      rintro rfl
      exact hold _ _ hj

/-- A cell of a key takes another value or none. -/
theorem Sound.replace (hs : Sound cells path) (hi : cells[i]? = some (.active k v)) {x : Cell K V}
    (hx : x = .deleted ∨ ∃ v', x = .active k v') : Sound (cells.set i x) path := by
  apply hs.set
  · intro j k' v' hne hj
    obtain rfl | ⟨v'', rfl⟩ := hx
    · trivial
    · rintro rfl
      exact hne (hs.unique hj hi)
  · intro k' v' e
    obtain rfl | ⟨v'', rfl⟩ := hx
    · cases e
    · cases e
      exact hs i k v hi

/-- What a table holds after the cell of `k` has changed. -/
theorem Sound.holds_replace (hs : Sound cells path) (hi : cells[i]? = some (.active k v)) {x : Cell K V}
    {k' : K} {v' : V} :
    Holds (cells.set i x) k' v' ↔ x = .active k' v' ∨ (k' ≠ k ∧ Holds cells k' v') := by
  obtain ⟨hlt, -⟩ := List.getElem?_eq_some_iff.1 hi
  rw [holds_set hlt]
  apply or_congr_right
  constructor
  · rintro ⟨j, hne, hj⟩
    refine ⟨?_, j, hj⟩
    rintro rfl
    exact hne (hs.unique hj hi)
  · rintro ⟨hne, j, hj⟩
    refine ⟨j, ?_, hj⟩
    rintro rfl
    rw [hi] at hj
    cases hj
    exact hne rfl

/-! ## Counting -/

/-- The number of keys held. -/
def live (cells : List (Cell K V)) : Nat := cells.countP fun x => x.key?.isSome

/-- The number of cells in use or once used. -/
def filled (cells : List (Cell K V)) : Nat := cells.countP Cell.filled

theorem live_snoc (cells : List (Cell K V)) (x : Cell K V) :
    live (cells ++ [x]) = live cells + (if x.key?.isSome then 1 else 0) := by
  rw [live, List.countP_append, List.countP_singleton, live]

/-- How a count changes with one cell. -/
theorem countP_set {α : Type} (p : α → Bool) {l : List α} {i : Nat} {old : α} (hi : l[i]? = some old) (x : α) :
    (l.set i x).countP p + (if p old then 1 else 0) = l.countP p + (if p x then 1 else 0) := by
  induction l generalizing i with
  | nil => simp at hi
  | cons a l ih =>
    cases i with
    | zero =>
      simp only [List.getElem?_cons_zero, Option.some.injEq] at hi
      subst hi
      simp only [List.set_cons_zero, List.countP_cons]
      omega
    | succ i =>
      simp only [List.getElem?_cons_succ] at hi
      have := ih hi
      simp only [List.set_cons_succ, List.countP_cons]
      omega

/-- A table that is not full has an empty cell. -/
theorem exists_empty (h : filled cells < cells.length) : ∃ i : Nat, cells[i]? = some .empty := by
  by_contra hno
  refine absurd (List.countP_eq_length.2 fun x hx => ?_) (Nat.ne_of_lt h)
  cases x with
  | empty =>
    obtain ⟨i, hi, he⟩ := List.mem_iff_getElem.1 hx
    exact absurd ⟨i, by rw [List.getElem?_eq_getElem hi, he]⟩ hno
  | active k v => rfl
  | deleted => rfl

/-- The keys of a sound table are as many as its live cells. -/
theorem Sound.card [DecidableEq K] (hs : Sound cells path) {s : Finset K} (h : ∀ k, k ∈ s ↔ ∃ v, Holds cells k v) :
    s.card = live cells := by
  have hnodup : (cells.filterMap Cell.key?).Nodup := by
    rw [List.Nodup, List.pairwise_filterMap, List.pairwise_iff_getElem]
    rintro i j hi hj hij k hk k' hk' rfl
    obtain ⟨v, hv⟩ := Cell.key?_eq_some.1 hk
    obtain ⟨v', hv'⟩ := Cell.key?_eq_some.1 hk'
    have := hs.unique ((List.getElem?_eq_getElem hi).trans (congrArg some hv))
      ((List.getElem?_eq_getElem hj).trans (congrArg some hv'))
    omega
  have e : s = (cells.filterMap Cell.key?).toFinset := by
    ext k
    rw [h, List.mem_toFinset, List.mem_filterMap]
    constructor
    · rintro ⟨v, i, hi⟩
      exact ⟨.active k v, List.mem_of_getElem? hi, rfl⟩
    · rintro ⟨x, hx, hk⟩
      obtain ⟨v, rfl⟩ := Cell.key?_eq_some.1 hk
      exact ⟨v, List.mem_iff_getElem?.1 hx⟩
  rw [e, List.toFinset_card_of_nodup hnodup, List.length_filterMap_eq_countP]
  rfl

end Cells
