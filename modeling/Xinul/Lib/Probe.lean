import Mathlib.Data.Nat.ModEq
import Mathlib.Logic.Function.Iterate
import Mathlib.Algebra.Ring.Parity
import Mathlib.Tactic.Ring

/-!
# Perturbed probing

The walk of an open-addressed table of `2 ^ k` slots: the index becomes
`5 * index + perturb + 1` and the perturbation, which starts as the hash, loses
five bits a step. Once the perturbation has run out the walk is the generator
`5 * x + 1`, which goes through every residue modulo `2 ^ k`: doubling the
number of steps from `2 ^ k` moves every value by an odd multiple of `2 ^ k`.
-/

namespace Probe

/-- The generator the walk becomes. -/
def turn (x : Nat) : Nat := 5 * x + 1

/-- `2 ^ k` turns multiply by one more than an odd multiple of `2 ^ (k + 2)`. -/
theorem five_pow (k : Nat) : ∃ q, q % 2 = 1 ∧ 5 ^ 2 ^ k = 1 + 2 ^ (k + 2) * q := by
  induction k with
  | zero => exact ⟨1, rfl, rfl⟩
  | succ k ih =>
    obtain ⟨q, hq, h⟩ := ih
    refine ⟨q + 2 * (2 ^ k * q ^ 2), by omega, ?_⟩
    rw [pow_succ 2 k, pow_mul, h]
    ring

/-- Four times a value after `n` turns. -/
theorem turn_iterate (n x : Nat) : 4 * turn^[n] x + 1 = 5 ^ n * (4 * x + 1) := by
  induction n with
  | zero => simp
  | succ n ih =>
    rw [Function.iterate_succ_apply', pow_succ]
    unfold turn
    calc 4 * (5 * turn^[n] x + 1) + 1 = 5 * (4 * turn^[n] x + 1) := by ring
      _ = 5 ^ n * 5 * (4 * x + 1) := by rw [ih]; ring

/-- `2 ^ k` turns move a value by an odd multiple of `2 ^ k`. -/
theorem turn_pow (k x : Nat) : turn^[2 ^ k] x ≡ x + 2 ^ k [MOD 2 ^ (k + 1)] := by
  obtain ⟨q, hq, h⟩ := five_pow k
  have e := turn_iterate (2 ^ k) x
  rw [h] at e
  have e' : turn^[2 ^ k] x = x + 2 ^ k * (q * (4 * x + 1)) := by
    have : (1 + 2 ^ (k + 2) * q) * (4 * x + 1) = 4 * (x + 2 ^ k * (q * (4 * x + 1))) + 1 := by ring
    omega
  have odd : q * (4 * x + 1) = 1 + 2 * (q * (2 * x) + q / 2) := by
    have : q * (4 * x + 1) = 2 * (q * (2 * x)) + q := by ring
    omega
  rw [e', odd]
  have : x + 2 ^ k * (1 + 2 * (q * (2 * x) + q / 2)) = x + 2 ^ k + 2 ^ (k + 1) * (q * (2 * x) + q / 2) := by ring
  rw [this]
  exact (Nat.ModEq.refl _).add (Nat.modEq_zero_iff_dvd.2 (Nat.dvd_mul_right _ _))

/-- Two residues modulo `2 ^ k` that agree are, modulo `2 ^ (k + 1)`, equal or half a turn apart. -/
theorem modEq_succ {k x j : Nat} (h : x ≡ j [MOD 2 ^ k]) :
    x ≡ j [MOD 2 ^ (k + 1)] ∨ x + 2 ^ k ≡ j [MOD 2 ^ (k + 1)] := by
  have hp : 0 < 2 ^ k := Nat.two_pow_pos k
  unfold Nat.ModEq at *
  rw [pow_succ]
  have hx := Nat.mod_mul (x := x) (a := 2 ^ k) (b := 2)
  have hj := Nat.mod_mul (x := j) (a := 2 ^ k) (b := 2)
  have hx' := Nat.mod_mul (x := x + 2 ^ k) (a := 2 ^ k) (b := 2)
  rw [Nat.add_mod_right, Nat.add_div_right _ hp] at hx'
  rw [hx, hj, hx', h]
  obtain e | e : x / 2 ^ k % 2 = j / 2 ^ k % 2 ∨ (x / 2 ^ k).succ % 2 = j / 2 ^ k % 2 := by omega
  · exact .inl (by rw [e])
  · exact .inr (by rw [e])

/-- The generator goes through every residue. -/
theorem turn_covers (k x j : Nat) : ∃ n, n < 2 ^ k ∧ turn^[n] x ≡ j [MOD 2 ^ k] := by
  induction k with
  | zero => exact ⟨0, by decide, Nat.modEq_one⟩
  | succ k ih =>
    obtain ⟨n, hn, h⟩ := ih
    obtain e | e := modEq_succ h
    · exact ⟨n, by rw [pow_succ]; omega, e⟩
    · refine ⟨2 ^ k + n, by rw [pow_succ]; omega, ?_⟩
      rw [Function.iterate_add_apply]
      exact (turn_pow k _).trans e

/-! ## The walk -/

/-- The index of the walk and what is left of the perturbation. -/
structure Cursor (w : Nat) where
  index : BitVec w
  perturb : BitVec w
  deriving DecidableEq

variable {w : Nat}

/-- One step of the walk. -/
def Cursor.next (c : Cursor w) : Cursor w :=
  ⟨5 * c.index + c.perturb + 1, c.perturb >>> 5⟩

theorem Cursor.next_index (c : Cursor w) : c.next.index = 5 * c.index + c.perturb + 1 := rfl

theorem Cursor.next_perturb (c : Cursor w) : c.next.perturb = c.perturb >>> 5 := rfl

/-- The slot of a table with `2 ^ k` slots and the mask `2 ^ k - 1` the walk stands at. -/
def Cursor.slot (c : Cursor w) (mask : BitVec w) : Nat := (c.index &&& mask).toNat

theorem Cursor.slot_eq {k : Nat} (hk : k < w) (c : Cursor w) :
    c.slot (BitVec.ofNat w (2 ^ k - 1)) = c.index.toNat % 2 ^ k := by
  have hlt : 2 ^ k - 1 < 2 ^ w :=
    Nat.lt_of_le_of_lt (Nat.sub_le _ _) (Nat.pow_lt_pow_right (by decide) hk)
  rw [Cursor.slot, BitVec.toNat_and, BitVec.toNat_ofNat, Nat.mod_eq_of_lt hlt, Nat.and_two_pow_sub_one_eq_mod]

theorem Cursor.perturb_iterate (n : Nat) (c : Cursor w) : (Cursor.next^[n] c).perturb = c.perturb >>> (5 * n) := by
  induction n with
  | zero => simp
  | succ n ih =>
    rw [Function.iterate_succ_apply', next_perturb, ih, Nat.mul_succ, BitVec.shiftRight_add]

/-- The perturbation has run out after `n` steps. -/
theorem Cursor.perturb_zero {n : Nat} (hn : w ≤ 5 * n) (c : Cursor w) : (Cursor.next^[n] c).perturb = 0#w := by
  rw [perturb_iterate]
  apply BitVec.eq_of_toNat_eq
  rw [BitVec.toNat_ushiftRight, Nat.shiftRight_eq_div_pow]
  exact Nat.div_eq_of_lt (Nat.lt_of_lt_of_le c.perturb.isLt (Nat.pow_le_pow_right (by decide) hn))

/-- With no perturbation the walk is the generator. -/
theorem Cursor.index_turn {k : Nat} (hk : k ≤ w) {c : Cursor w} (hc : c.perturb = 0#w) (n : Nat) :
    (Cursor.next^[n] c).perturb = 0#w ∧
      (Cursor.next^[n] c).index.toNat ≡ turn^[n] c.index.toNat [MOD 2 ^ k] := by
  induction n with
  | zero => exact ⟨hc, Nat.ModEq.refl _⟩
  | succ n ih =>
    obtain ⟨hz, hi⟩ := ih
    rw [Function.iterate_succ_apply', Function.iterate_succ_apply', next_perturb, next_index, hz, turn]
    refine ⟨by simp, ?_⟩
    have hd : 2 ^ k ∣ 2 ^ w := Nat.pow_dvd_pow 2 hk
    rw [BitVec.add_zero, BitVec.toNat_add, BitVec.toNat_mul]
    refine ((Nat.mod_modEq _ _).of_dvd hd).trans (Nat.ModEq.add ?_ ?_)
    · refine ((Nat.mod_modEq _ _).of_dvd hd).trans (Nat.ModEq.mul ?_ hi)
      exact (Nat.mod_modEq _ _).of_dvd hd
    · exact (Nat.mod_modEq _ _).of_dvd hd

/-- The walk visits every slot of the table: the perturbation runs out within `t`
steps, and `2 ^ k` more go through all slots. -/
theorem Cursor.covers {k t : Nat} (hk : k < w) (ht : w ≤ 5 * t) (c : Cursor w) {j : Nat} (hj : j < 2 ^ k) :
    ∃ n, n < t + 2 ^ k ∧ (Cursor.next^[n] c).slot (BitVec.ofNat w (2 ^ k - 1)) = j := by
  obtain ⟨n, hn, h⟩ := turn_covers k (Cursor.next^[t] c).index.toNat j
  refine ⟨n + t, by omega, ?_⟩
  rw [Cursor.slot_eq hk, Function.iterate_add_apply]
  have hi := (index_turn (Nat.le_of_lt hk) (perturb_zero ht c) n).2
  have e : _ % 2 ^ k = j % 2 ^ k := hi.trans h
  rw [e, Nat.mod_eq_of_lt hj]

end Probe
