import Mathlib.Logic.Function.Basic
import Mathlib.Data.List.Basic
import Mathlib.Data.Nat.ModEq

/-!
# Rings of cells

The window of a ring of `size` cells: `n` cells in order from a start, the
index going around at `size`. `oldest` finds the start of the window from the
index `free` after its last cell.
-/

namespace Ring

variable {α : Type} {arr : Nat → α} {size start free n : Nat}

/-- The entries of the `n` cells from `start` on. -/
def window (arr : Nat → α) (size start n : Nat) : List α :=
  (List.range n).map fun i => arr ((start + i) % size)

/-- The start of the window of `n` cells that ends before `free`. -/
def oldest (size free n : Nat) : Nat := (free + size - n) % size

@[simp] theorem window_zero : window arr size start 0 = [] := rfl

theorem length_window : (window arr size start n).length = n := by simp [window]

/-- The cells of a window are different. -/
theorem cell_ne {start : Nat} (hn : n < size) {i : Nat} (hi : i < n) : (start + i) % size ≠ (start + n) % size := by
  intro h
  have h1 : (n - i) % size = 0 := by
    have h2 := (Nat.modEq_iff_dvd' (by omega)).1 h
    have h3 : start + n - (start + i) = n - i := by omega
    rw [h3] at h2
    exact Nat.mod_eq_zero_of_dvd h2
  rw [Nat.mod_eq_of_lt (by omega)] at h1
  omega

/-- The window and the cell after it. -/
theorem window_snoc : window arr size start (n + 1) = window arr size start n ++ [arr ((start + n) % size)] := by
  simp [window, List.range_succ]

/-- A write to the cell after the window. -/
theorem window_after (hn : n < size) (x : α) :
    window (Function.update arr ((start + n) % size) x) size start n = window arr size start n := by
  refine List.map_congr_left fun i hi => ?_
  exact Function.update_of_ne (cell_ne hn (List.mem_range.1 hi)) _ _

/-- A write to the cell after the window makes it longer. -/
theorem window_push (hn : n < size) (x : α) :
    window (Function.update arr ((start + n) % size) x) size start (n + 1) = window arr size start n ++ [x] := by
  rw [window_snoc, window_after hn, Function.update_self]

/-- The window without its first cell. -/
theorem window_pop : window arr size start (n + 1) =
    arr (start % size) :: window arr size ((start + 1) % size) n := by
  simp only [window, List.range_succ_eq_map, List.map_cons, List.map_map, Nat.add_zero]
  congr 1
  refine List.map_congr_left fun i _ => ?_
  simp only [Function.comp, Nat.mod_add_mod]
  congr 2
  omega

/-- A write to the cell before the window. -/
theorem window_before (hn : n < size) (hs : start < size) (x : α) :
    window (Function.update arr start x) size ((start + 1) % size) n = window arr size ((start + 1) % size) n := by
  refine List.map_congr_left fun i hi => ?_
  have hlt : i + 1 < size := by
    have := List.mem_range.1 hi
    omega
  have hne : (start + 0) % size ≠ (start + (i + 1)) % size := cell_ne hlt (Nat.succ_pos i)
  rw [Nat.add_zero, Nat.mod_eq_of_lt hs] at hne
  refine Function.update_of_ne ?_ _ _
  rw [Nat.mod_add_mod, Nat.add_assoc, Nat.add_comm 1]
  exact hne.symm

theorem oldest_lt (h : 0 < size) : oldest size free n < size := Nat.mod_lt _ h

/-- The start of the window, by where it wraps around. -/
theorem oldest_eq (hf : free < size) (hn : n ≤ size) :
    oldest size free n = if n ≤ free then free - n else free + size - n := by
  unfold oldest
  split
  · rw [show free + size - n = free - n + size by omega, Nat.add_mod_right, Nat.mod_eq_of_lt (by omega)]
  · exact Nat.mod_eq_of_lt (by omega)

theorem succ_mod (hf : free < size) : (free + 1) % size = if free + 1 = size then 0 else free + 1 := by
  split
  · next h => rw [h, Nat.mod_self]
  · exact Nat.mod_eq_of_lt (by omega)

/-- The window ends before `free`. -/
theorem oldest_add (hf : free < size) (hn : n ≤ size) : (oldest size free n + n) % size = free := by
  rw [oldest, Nat.mod_add_mod, show free + size - n + n = free + size by omega, Nat.add_mod_right,
    Nat.mod_eq_of_lt hf]

theorem oldest_push (hf : free < size) (hn : n < size) :
    oldest size ((free + 1) % size) (n + 1) = oldest size free n := by
  rw [oldest_eq (Nat.mod_lt _ (by omega)) hn, oldest_eq hf (Nat.le_of_lt hn), succ_mod hf]
  split_ifs <;> omega

theorem oldest_pop (hf : free < size) (hn : n < size) :
    oldest size free n = (oldest size free (n + 1) + 1) % size := by
  rw [succ_mod (oldest_lt (by omega)), oldest_eq hf (Nat.le_of_lt hn), oldest_eq hf hn]
  split_ifs <;> omega

end Ring
