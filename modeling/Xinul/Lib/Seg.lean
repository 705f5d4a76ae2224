import Mathlib.Data.List.Nodup
import Mathlib.Data.List.Infix
import Mathlib.Logic.Function.Basic

/-!
# Singly linked lists in a heap

`next` gives the successor pointer of a cell. `Seg next a l b` says that the
cells `l` are the ones met from the pointer `a` before the pointer `b`;
`Seg next a l none` is a whole list. Updates of `next` outside a segment keep it,
so a list edited at one cell is cut there, edited and put together again.
-/

namespace Linked

variable {α : Type} {next next' : α → Option α} {a b c : Option α} {l l' k : List α} {x y : α}

/-- From the pointer `a` the cells `l` lead to the pointer `b`. -/
def Seg (next : α → Option α) : Option α → List α → Option α → Prop
  | a, [], b => a = b
  | a, x :: l, b => a = some x ∧ Seg next (next x) l b

@[simp] theorem seg_nil : Seg next a [] b ↔ a = b := Iff.rfl

@[simp] theorem seg_cons : Seg next a (x :: l) b ↔ a = some x ∧ Seg next (next x) l b := Iff.rfl

theorem seg_append : Seg next a (l ++ k) c ↔ ∃ b, Seg next a l b ∧ Seg next b k c := by
  induction l generalizing a with
  | nil => simp
  | cons x l ih => simp [ih, and_assoc]

/-- A segment only reads the successors of its cells. -/
theorem Seg.congr (h : Seg next a l b) (heq : ∀ x ∈ l, next' x = next x) : Seg next' a l b := by
  induction l generalizing a with
  | nil => exact h
  | cons x l ih =>
    obtain ⟨ha, hl⟩ := h
    refine ⟨ha, ?_⟩
    rw [heq x (by simp)]
    exact ih hl (fun y hy => heq y (by simp [hy]))

theorem Seg.head (h : Seg next a l none) : a = l.head? := by
  cases l with
  | nil => simpa using h
  | cons x l => simpa using h.1

/-- Two lists from the same pointer are the same list. -/
theorem Seg.unique (h : Seg next a l none) (h' : Seg next a l' none) : l = l' := by
  induction l generalizing a l' with
  | nil =>
    cases l' with
    | nil => rfl
    | cons y l' => rw [seg_nil] at h; subst h; simp at h'
  | cons x l ih =>
    obtain ⟨rfl, hl⟩ := h
    cases l' with
    | nil => simp at h'
    | cons y l' =>
      obtain ⟨he, hl'⟩ := h'
      cases he
      rw [ih hl hl']

/-- The list from a cell of a list is the part of it that starts there. -/
theorem Seg.suffix_of_mem (h : Seg next a l none) (hx : x ∈ l) :
    ∃ k k', l = k ++ x :: k' ∧ Seg next a k (some x) ∧ Seg next (next x) k' none := by
  obtain ⟨k, k', rfl⟩ := List.append_of_mem hx
  obtain ⟨b, hk, hb⟩ := seg_append.1 h
  obtain ⟨rfl, hk'⟩ := hb
  exact ⟨k, k', rfl, hk, hk'⟩

/-- A list that ends does not come back to a cell. -/
theorem Seg.nodup (h : Seg next a l none) : l.Nodup := by
  induction l generalizing a with
  | nil => exact List.nodup_nil
  | cons x l ih =>
    refine List.nodup_cons.2 ⟨fun hx => ?_, ih h.2⟩
    -- a second `x` in `l` would make `l` a proper part of itself
    obtain ⟨k, k', hk, _, hk'⟩ := h.2.suffix_of_mem hx
    have := congrArg List.length (h.2.unique hk')
    rw [hk] at this
    simp at this
    omega

/-- A new last cell. -/
theorem Seg.snoc [DecidableEq α] (h : Seg next a l none) (hy : l.getLast? = some y) (hx : x ∉ l)
    (hn : next x = none) : Seg (Function.update next y (some x)) a (l ++ [x]) none := by
  obtain ⟨k, rfl⟩ := List.getLast?_eq_some_iff.1 hy
  have hnd := h.nodup
  obtain ⟨b, hk, rfl, _⟩ := seg_append.1 h
  have hyk : y ∉ k := by
    rw [List.nodup_append] at hnd
    exact fun hy' => hnd.2.2 y hy' y (by simp) rfl
  have hyx : x ≠ y := by
    rintro rfl
    exact hx (by simp)
  rw [List.append_assoc]
  refine seg_append.2 ⟨some y, hk.congr fun z hz => ?_, rfl, ?_⟩
  · rw [Function.update_of_ne]
    rintro rfl
    exact hyk hz
  · rw [Function.update_self]
    refine ⟨rfl, ?_⟩
    rw [Function.update_of_ne hyx, hn]
    rfl

/-- A new cell after the cell `y`. -/
theorem Seg.insert [DecidableEq α] (h : Seg next a (k ++ [y]) b) (hx : next x = b) (hxy : x ≠ y)
    (hyk : y ∉ k) :
    Seg (Function.update next y (some x)) a (k ++ [y, x]) b := by
  obtain ⟨c, hk, rfl, hb⟩ := seg_append.1 h
  refine seg_append.2 ⟨some y, hk.congr fun z hz => ?_, rfl, ?_⟩
  · rw [Function.update_of_ne]
    rintro rfl
    exact hyk hz
  · rw [Function.update_self]
    refine ⟨rfl, ?_⟩
    rw [Function.update_of_ne hxy, hx]
    rfl

/-- The list without its last cell. -/
theorem Seg.dropLast [DecidableEq α] (h : Seg next a (k ++ [y, x]) none) :
    Seg (Function.update next y none) a (k ++ [y]) none := by
  have hnd := h.nodup
  obtain ⟨b, hk, rfl, _⟩ := seg_append.1 h
  have hyk : y ∉ k := by
    rw [List.nodup_append] at hnd
    exact fun hy' => hnd.2.2 y hy' y (by simp) rfl
  refine seg_append.2 ⟨some y, hk.congr fun z hz => ?_, rfl, ?_⟩
  · rw [Function.update_of_ne]
    rintro rfl
    exact hyk hz
  · rw [Function.update_self]
    rfl

/-- The list without a cell that is neither the first nor the last. -/
theorem Seg.bypass [DecidableEq α] (h : Seg next a (k ++ y :: x :: l) none) :
    Seg (Function.update next y (next x)) a (k ++ y :: l) none := by
  have hnd := h.nodup
  obtain ⟨b, hk, rfl, hyx, hl⟩ := seg_append.1 h
  rw [List.nodup_append, List.nodup_cons] at hnd
  refine seg_append.2 ⟨some y, hk.congr fun z hz => ?_, rfl, ?_⟩
  · rw [Function.update_of_ne]
    rintro rfl
    exact hnd.2.2 z hz z (by simp) rfl
  · rw [Function.update_self]
    refine hl.congr fun z hz => ?_
    rw [Function.update_of_ne]
    rintro rfl
    exact hnd.2.1.1 (by simp [hz])

end Linked
