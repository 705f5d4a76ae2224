import Mathlib.Data.Option.Basic
import Mathlib.Data.List.Basic

/-!
# Calls with fuel

A program whose loops have no bound of their own is a function of the number of
turns its loops may take. It is steady when more turns never change a result, and
it returns `x` when it does so with any large enough number of turns.
-/

namespace Fuel

variable {α β : Type}

/-- More turns never change a result. -/
def Steady (call : Nat → Option α) : Prop := ∀ n m x, n ≤ m → call n = some x → call m = some x

/-- The call returns `x`. -/
def Returns (call : Nat → Option α) (x : α) : Prop := ∃ turns, ∀ fuel, turns ≤ fuel → call fuel = some x

theorem Steady.returns {call : Nat → Option α} (h : Steady call) {n : Nat} {x : α} (hn : call n = some x) :
    Returns call x := ⟨n, fun m hm => h n m x hm hn⟩

theorem Steady.const (o : Option α) : Steady fun _ => o := fun _ _ _ _ h => h

theorem Steady.bind {call : Nat → Option α} {next : α → Nat → Option β} (h : Steady call) (hn : ∀ x, Steady (next x)) :
    Steady fun n => call n >>= fun x => next x n := by
  intro n m y hm hy
  rw [Option.bind_eq_bind, Option.bind_eq_some_iff] at hy ⊢
  obtain ⟨x, hx, hy⟩ := hy
  exact ⟨x, h n m x hm hx, hn x n m y hm hy⟩

theorem Steady.ite {P : Prop} [Decidable P] {f g : Nat → Option α} (hf : Steady f) (hg : Steady g) :
    Steady fun n => if P then f n else g n := by
  split
  next => exact hf
  next => exact hg

theorem Steady.foldlM {body : Nat → α → β → Option α} (h : ∀ x y, Steady fun n => body n x y) (l : List β) :
    ∀ x, Steady fun n => l.foldlM (body n) x := by
  induction l with
  | nil => exact fun x => Steady.const (some x)
  | cons y l ih =>
    intro x
    simp only [List.foldlM_cons]
    exact (h x y).bind ih

end Fuel
