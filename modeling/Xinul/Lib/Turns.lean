import Mathlib.Data.List.Rotate
import Mathlib.Order.Lattice
import Mathlib.Logic.Function.Iterate
import Xinul.Lib.Insert

/-!
# Taking turns

A holder and a waiting list that is served from its end. In a turn the last one waiting
takes over if the holder does not outrank it, and the holder is put back in front of the
first one in the list that does not rank below it. Those of the holder's rank that are
all at the end of the list hold in a cycle; one that stands in front of somebody of a
lower rank never gets its turn.
-/

namespace Turns

open Waiting

variable {α β : Type} [LinearOrder β] {rank : α → β} {c p t z : α} {q low back l r tops : List α} {k : Nat}

/-- The holder goes back into the list. -/
def putBack (rank : α → β) (c : α) (l : List α) : List α := insertWhile (fun x => decide (rank x < rank c)) c l

/-- One turn. -/
def turn (rank : α → β) (line : α × List α) : α × List α :=
  match line.2.getLast? with
  | none => line
  | some p => if rank line.1 ≤ rank p then (p, putBack rank line.1 line.2.dropLast) else line

theorem turn_nil : turn rank (c, []) = (c, []) := rfl

theorem turn_snoc : turn rank (c, l ++ [p]) = if rank c ≤ rank p then (p, putBack rank c l) else (c, l ++ [p]) := by
  simp [turn]

/-- Everything in the list ranks below the holder, up to some that do not. -/
theorem putBack_append (hlow : ∀ x ∈ low, rank x < rank c) (hl : ∀ x ∈ l, ¬ rank x < rank c) :
    putBack rank c (low ++ l) = low ++ c :: l := by
  induction low with
  | nil =>
    cases l with
    | nil => rfl
    | cons x l =>
      have hx := hl x (by simp)
      simp [putBack, insertWhile_cons, hx]
  | cons x low ih =>
    have hx := hlow x (by simp)
    have ih := ih fun y hy => hlow y (by simp [hy])
    unfold putBack at ih ⊢
    simp [insertWhile_cons, hx, ih]

/-- What is behind somebody who does not rank below the holder stays behind. -/
theorem putBack_before (ht : t ∈ l) (hrank : ¬ rank t < rank c) (r : List α) :
    putBack rank c (l ++ r) = putBack rank c l ++ r := by
  induction l with
  | nil => cases ht
  | cons x l ih =>
    unfold putBack at ih ⊢
    rw [List.cons_append, insertWhile_cons, insertWhile_cons]
    by_cases hx : rank x < rank c
    · have hne : t ≠ x := by
        rintro rfl
        exact hrank hx
      have ht' : t ∈ l := List.mem_of_ne_of_mem hne ht
      simp [hx, ih ht']
    · simp [hx]

/-! ## The cycle -/

/-- The holder and the list when the members of the cycle hold in this order. -/
inductive InLine (low : List α) : List α → α × List α → Prop where
  | mk (c : α) (r : List α) : InLine low (c :: r) (c, low ++ r.reverse)

theorem InLine.head (h : InLine low l (c, q)) : l.head? = some c := by
  cases h
  rfl

theorem InLine.unique {line line' : α × List α} (h : InLine low l line) (h' : InLine low l line') : line = line' := by
  cases h
  cases h'
  rfl

/-- A turn goes one further in the cycle. -/
theorem InLine.turn {line : α × List α} (h : InLine low l line) (hlow : ∀ x ∈ low, ∀ y ∈ l, rank x < rank y)
    (heq : ∀ x ∈ l, ∀ y ∈ l, rank x = rank y) : InLine low (l.rotate 1) (Turns.turn rank line) := by
  obtain ⟨c, r⟩ := h
  cases r with
  | nil =>
    have hsame : Turns.turn rank (c, low) = (c, low) := by
      rcases List.eq_nil_or_concat low with rfl | ⟨l, p, rfl⟩
      · rfl
      · have hp := hlow p (by simp) c (by simp)
        rw [List.concat_eq_append, turn_snoc, if_neg (not_le_of_gt hp)]
    rw [List.reverse_nil, List.append_nil, hsame]
    have hline : InLine low [c] (c, low ++ [].reverse) := .mk c []
    simpa using hline
  | cons p r =>
    have hrank := heq c (by simp) p (by simp)
    rw [List.reverse_cons, ← List.append_assoc, turn_snoc, if_pos hrank.le]
    have hput : putBack rank c (low ++ r.reverse) = low ++ (r ++ [c]).reverse := by
      rw [putBack_append (fun x hx => hlow x hx c (by simp)) fun x hx => ?_, List.reverse_append]
      · rfl
      · have hx' : x ∈ r := by simpa using hx
        exact not_lt_of_ge (heq c (by simp) x (by simp [hx'])).le
    rw [hput]
    have hline : InLine low (p :: (r ++ [c])) (p, low ++ (r ++ [c]).reverse) := .mk p (r ++ [c])
    simpa using hline

/-- After `k` turns the cycle is rotated by `k`. -/
theorem InLine.turns {line : α × List α} (h : InLine low l line) (hlow : ∀ x ∈ low, ∀ y ∈ l, rank x < rank y)
    (heq : ∀ x ∈ l, ∀ y ∈ l, rank x = rank y) (k : Nat) : InLine low (l.rotate k) ((Turns.turn rank)^[k] line) := by
  induction k with
  | zero => simpa using h
  | succ k ih =>
    rw [Function.iterate_succ_apply', ← List.rotate_rotate]
    apply ih.turn
    · intro x hx y hy
      exact hlow x hx y (by simpa using hy)
    · intro x hx y hy
      exact heq x (by simpa using hx) y (by simpa using hy)

/-- In as many turns in a row as the cycle is long every member holds once. -/
theorem consecutive (l : List α) (k : Nat) :
    (List.range' k l.length).map (fun i => l[i % l.length]?) = (l.rotate k).map some := by
  apply List.ext_getElem?
  intro j
  by_cases hj : j < l.length
  · rw [List.getElem?_map, List.getElem?_map, List.getElem?_rotate hj, List.getElem?_range' hj, Nat.one_mul, Nat.add_comm k j]
    have hmod : (j + k) % l.length < l.length := Nat.mod_lt _ (by omega)
    simp [List.getElem?_eq_getElem hmod]
  · rw [List.getElem?_eq_none (by simpa using hj), List.getElem?_eq_none (by simpa using hj)]

/-! ## Somebody out of line -/

/-- The holder outranks the last one waiting: it goes on holding. -/
theorem turn_fixed (hz : rank z < rank c) : turn rank (c, l ++ [z]) = (c, l ++ [z]) := by
  rw [turn_snoc, if_neg (not_le_of_gt hz)]

/-- If somebody of the top rank stands in front of somebody below it, the turns stop at the
last one with everybody of the top rank behind them. -/
theorem turns_stop {top : β} (hz : rank z < top) (ht : t ∈ l) (hrank : rank t = top) (hc : rank c = top)
    (htops : ∀ x ∈ tops, rank x = top) :
    ((turn rank)^[tops.length] (c, l ++ z :: tops)).1 = ((turn rank)^[tops.length + 1] (c, l ++ z :: tops)).1 := by
  induction tops using List.reverseRecOn generalizing c l with
  | nil =>
    have hfix : turn rank (c, l ++ [z]) = (c, l ++ [z]) := turn_fixed (by rw [hc]; exact hz)
    simp [hfix]
  | append_singleton tops p ih =>
    have hp : rank p = top := htops p (by simp)
    have hturn : turn rank (c, l ++ z :: (tops ++ [p])) = (p, putBack rank c l ++ z :: tops) := by
      have hassoc : l ++ z :: (tops ++ [p]) = (l ++ z :: tops) ++ [p] := by simp
      rw [hassoc, turn_snoc, if_pos (by rw [hc, hp]), putBack_before ht (by rw [hc, hrank]; exact lt_irrefl _)]
    rw [List.length_append, List.length_singleton, Function.iterate_succ_apply, Function.iterate_succ_apply, hturn]
    apply ih _ hp fun x hx => htops x (by simp [hx])
    exact mem_insertWhile.2 (.inr ht)

/-- A list of which all of the top rank are at the end. -/
theorem exists_split {top : β} (hle : ∀ x ∈ q, rank x ≤ top) (h : q.Pairwise fun x y => rank x = top → rank y = top) :
    ∃ low, q = low ++ q.filter (fun x => decide (rank x = top)) ∧ ∀ x ∈ low, rank x < top := by
  induction q with
  | nil => exact ⟨[], rfl, by simp⟩
  | cons x q ih =>
    obtain ⟨hx, hq⟩ := List.pairwise_cons.1 h
    by_cases htop : rank x = top
    · have hall : (x :: q).filter (fun y => rank y = top) = x :: q := by
        apply List.filter_eq_self.2
        intro y hy
        rcases List.mem_cons.1 hy with rfl | hy
        · simpa using htop
        · simpa using hx y hy htop
      exact ⟨[], by rw [hall, List.nil_append], by simp⟩
    · obtain ⟨low, heq, hlow⟩ := ih (fun y hy => hle y (by simp [hy])) hq
      have hlt : rank x < top := lt_of_le_of_ne (hle x (by simp)) htop
      refine ⟨x :: low, ?_, fun y hy => ?_⟩
      · rw [List.filter_cons_of_neg (by simpa using htop), List.cons_append, ← heq]
      · rcases List.mem_cons.1 hy with rfl | hy
        · exact hlt
        · exact hlow y hy

/-- A list of which not all of the top rank are at the end. -/
theorem exists_out_of_line {top : β} (hle : ∀ x ∈ q, rank x ≤ top)
    (h : ¬ q.Pairwise fun x y => rank x = top → rank y = top) :
    ∃ l t z tops, q = l ++ z :: tops ∧ t ∈ l ∧ rank t = top ∧ rank z < top ∧ ∀ x ∈ tops, rank x = top := by
  induction q using List.reverseRecOn with
  | nil => exact absurd List.Pairwise.nil h
  | append_singleton q p ih =>
    by_cases hp : rank p = top
    · have hq : ¬ q.Pairwise fun x y => rank x = top → rank y = top := by
        intro hq
        apply h
        rw [List.pairwise_append]
        refine ⟨hq, List.pairwise_singleton _ _, fun x _ y hy _ => ?_⟩
        obtain rfl : y = p := by simpa using hy
        exact hp
      obtain ⟨l, t, z, tops, rfl, ht, hrank, hz, htops⟩ := ih (fun x hx => hle x (by simp [hx])) hq
      refine ⟨l, t, z, tops ++ [p], by simp, ht, hrank, hz, fun x hx => ?_⟩
      rcases List.mem_append.1 hx with hx | hx
      · exact htops x hx
      · obtain rfl : x = p := by simpa using hx
        exact hp
    · -- the last one ranks below, so somebody of the top rank is in front of it
      have hlt : rank p < top := lt_of_le_of_ne (hle p (by simp)) hp
      obtain ⟨t, ht, hrank⟩ : ∃ t ∈ q, rank t = top := by
        by_contra hnone
        apply h
        have hno : ∀ t ∈ q, rank t ≠ top := fun t ht hr => hnone ⟨t, ht, hr⟩
        apply List.pairwise_of_forall_mem_list
        intro x hx y _ hr
        rcases List.mem_append.1 hx with hx | hx
        · exact absurd hr (hno x hx)
        · obtain rfl : x = p := by simpa using hx
          exact absurd hr hp
      exact ⟨q, t, p, [], by simp, ht, hrank, hlt, by simp⟩

end Turns
