import Mathlib.Algebra.Group.Nat.Defs
import Mathlib.Algebra.Group.Int.Defs
import Mathlib.Logic.Function.Basic
import Mathlib.Data.Nat.Basic

/-!
# Byte memory

A memory gives the byte at every address. A word of eight bytes is stored with
its lowest byte first; a block of bytes is filled or copied as a whole.
-/

namespace Bytes

/-- The byte at every address. -/
abbrev Memory := Nat → UInt8

variable {m m' : Memory} {a b v : Nat}

/-- The word of eight bytes at an address. -/
def load64 (m : Memory) (a : Nat) : Nat :=
  (m a).toNat + 256 * ((m (a + 1)).toNat + 256 * ((m (a + 2)).toNat + 256 * ((m (a + 3)).toNat +
    256 * ((m (a + 4)).toNat + 256 * ((m (a + 5)).toNat + 256 * ((m (a + 6)).toNat + 256 * (m (a + 7)).toNat))))))

/-- The memory with the word `v` at `a`. -/
def store64 (m : Memory) (a v : Nat) : Memory :=
  fun i => if a ≤ i ∧ i < a + 8 then UInt8.ofNat (v / 256 ^ (i - a)) else m i

theorem store64_of_lt {i : Nat} (h : i < a) : store64 m a v i = m i := by
  rw [store64, if_neg (by omega)]

theorem store64_of_ge {i : Nat} (h : a + 8 ≤ i) : store64 m a v i = m i := by
  rw [store64, if_neg (by omega)]

theorem store64_byte {i : Nat} (h : i < 8) : (store64 m a v (a + i)).toNat = v / 256 ^ i % 256 := by
  rw [store64, if_pos (by omega), Nat.add_sub_cancel_left]
  exact UInt8.toNat_ofNat'

/-- A word read back. -/
theorem load64_store64 (hv : v < 2 ^ 64) : load64 (store64 m a v) a = v := by
  have h0 : (store64 m a v (a + 0)).toNat = v / 256 ^ 0 % 256 := store64_byte (by decide)
  rw [Nat.add_zero, Nat.pow_zero, Nat.div_one] at h0
  rw [load64, h0, store64_byte (by decide), store64_byte (by decide), store64_byte (by decide),
    store64_byte (by decide), store64_byte (by decide), store64_byte (by decide), store64_byte (by decide)]
  omega

/-- A word stored where it was read. -/
theorem store64_load64 : store64 m a (load64 m a) = m := by
  funext i
  rcases Nat.lt_or_ge i a with hlo | hlo
  · exact store64_of_lt hlo
  rcases Nat.lt_or_ge i (a + 8) with hhi | hhi
  · obtain ⟨j, rfl⟩ := Nat.exists_eq_add_of_le hlo
    have hj : j < 8 := by omega
    have hcases : j = 0 ∨ j = 1 ∨ j = 2 ∨ j = 3 ∨ j = 4 ∨ j = 5 ∨ j = 6 ∨ j = 7 := by omega
    have hbytes : ∀ k, (m (a + k)).toNat < 256 := fun k => (m (a + k)).toNat_lt
    have h0 : (m a).toNat < 256 := hbytes 0
    have hself : m (a + 0) = m a := rfl
    have h1 := hbytes 1
    have h2 := hbytes 2
    have h3 := hbytes 3
    have h4 := hbytes 4
    have h5 := hbytes 5
    have h6 := hbytes 6
    have h7 := hbytes 7
    apply UInt8.toNat_inj.1
    rw [store64_byte hj, load64]
    rcases hcases with rfl | rfl | rfl | rfl | rfl | rfl | rfl | rfl
    · rw [hself]
      omega
    all_goals omega
  · exact store64_of_ge hhi

/-- A word depends on its own bytes. -/
theorem load64_congr (h : ∀ i, a ≤ i → i < a + 8 → m' i = m i) : load64 m' a = load64 m a := by
  simp only [load64, h a (by omega) (by omega), h (a + 1) (by omega) (by omega), h (a + 2) (by omega) (by omega),
    h (a + 3) (by omega) (by omega), h (a + 4) (by omega) (by omega), h (a + 5) (by omega) (by omega),
    h (a + 6) (by omega) (by omega), h (a + 7) (by omega) (by omega)]

/-- A word stored elsewhere. -/
theorem load64_store64_of_ne (h : b + 8 ≤ a ∨ a + 8 ≤ b) : load64 (store64 m a v) b = load64 m b := by
  apply load64_congr
  intro i h1 h2
  obtain h | h := h
  · exact store64_of_lt (by omega)
  · exact store64_of_ge (by omega)

/-! ## Blocks -/

/-- `memset`: the memory with `n` times the byte `b` from `a` on. -/
def memset (m : Memory) (a : Nat) (b : UInt8) (n : Nat) : Memory := fun i => if a ≤ i ∧ i < a + n then b else m i

/-- `memcpy`: the memory with the `n` bytes from `src` on copied to `dst`. -/
def memcpy (m : Memory) (dst src n : Nat) : Memory :=
  fun i => if dst ≤ i ∧ i < dst + n then m (src + (i - dst)) else m i

theorem memset_of_mem {n i : Nat} {c : UInt8} (h : i < n) : memset m a c n (a + i) = c := by
  rw [memset, if_pos (by omega)]

theorem memset_of_not {n i : Nat} {c : UInt8} (h : i < a ∨ a + n ≤ i) : memset m a c n i = m i := by
  rw [memset, if_neg (by omega)]

theorem memcpy_of_mem {n i : Nat} (h : i < n) : memcpy m a b n (a + i) = m (b + i) := by
  rw [memcpy, if_pos (by omega), Nat.add_sub_cancel_left]

theorem memcpy_of_not {n i : Nat} (h : i < a ∨ a + n ≤ i) : memcpy m a b n i = m i := by
  rw [memcpy, if_neg (by omega)]

end Bytes
