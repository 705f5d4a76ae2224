import Mathlib.Data.List.Pairwise
import Mathlib.Data.List.Perm.Basic
import Mathlib.Data.List.TakeDrop
import Mathlib.Data.List.TakeWhile

/-!
# Insertion in an ordered list

`insertWhile p e l` puts `e` in front of the first element that `p` does not
pass. Read as a waiting list it keeps any order that `p` respects.
-/

namespace Waiting

variable {α : Type} {p : α → Bool} {e c : α} {l : List α} {R : α → α → Prop}

/-- `e` in front of the first element of `l` that does not satisfy `p`. -/
def insertWhile (p : α → Bool) (e : α) (l : List α) : List α :=
  l.takeWhile p ++ e :: l.dropWhile p

@[simp] theorem insertWhile_nil : insertWhile p e [] = [e] := rfl

theorem insertWhile_cons :
    insertWhile p e (c :: l) = if p c then c :: insertWhile p e l else e :: c :: l := by
  by_cases h : p c <;> simp [insertWhile, h]

theorem insertWhile_of_forall (h : ∀ c ∈ l, p c = true) : insertWhile p e l = l ++ [e] := by
  rw [insertWhile, List.takeWhile_eq_self_iff.2 h, List.dropWhile_eq_nil_iff.2 h]

theorem insertWhile_perm : (insertWhile p e l).Perm (e :: l) := by
  refine (List.perm_middle).trans (List.Perm.cons _ ?_)
  rw [List.takeWhile_append_dropWhile]

@[simp] theorem mem_insertWhile : c ∈ insertWhile p e l ↔ c = e ∨ c ∈ l := by
  rw [insertWhile_perm.mem_iff, List.mem_cons]

/-- Insertion keeps an order in which everything `p` passes comes first. -/
theorem pairwise_insertWhile (h : l.Pairwise R) (pass : ∀ c ∈ l, p c = true → R c e)
    (stop : ∀ c ∈ l, p c = false → R e c) (down : ∀ a ∈ l, ∀ b ∈ l, R a b → p b = true → p a = true) :
    (insertWhile p e l).Pairwise R := by
  induction l with
  | nil => simp [insertWhile]
  | cons c l ih =>
    obtain ⟨hc, hl⟩ := List.pairwise_cons.1 h
    rw [insertWhile_cons]
    split
    · rename_i hp
      refine List.pairwise_cons.2 ⟨fun d hd => ?_, ih hl ?_ ?_ ?_⟩
      · rcases mem_insertWhile.1 hd with rfl | hd
        · exact pass c (by simp) hp
        · exact hc d hd
      · exact fun d hd => pass d (by simp [hd])
      · exact fun d hd => stop d (by simp [hd])
      · exact fun a ha b hb => down a (by simp [ha]) b (by simp [hb])
    · rename_i hp
      have hstop : ∀ d ∈ c :: l, p d = false := by
        intro d hd
        rcases List.mem_cons.1 hd with rfl | hd
        · simpa using hp
        · by_contra hpd
          exact hp (down c (by simp) d (by simp [hd]) (hc d hd) (by simpa using hpd))
      refine List.pairwise_cons.2 ⟨fun d hd => stop d hd (hstop d hd), h⟩

end Waiting
