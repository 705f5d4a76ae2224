import Xinul.Lib.Wp

/-!
# Two programs side by side

Programs over two kinds of states, and a relation between these: two programs agree
when from related states they stop with related faults or return the same value in
related states. A sequence of calls then gives the same answers on both sides, up to
the same fault if there is one.
-/

namespace Prog

variable {σ τ ε φ α β ι : Type}

/-- Two outcomes, both faults or both not. -/
inductive Both (F : ε → φ → Prop) (V : α → β → Prop) : Except ε α → Except φ β → Prop where
  | error {e : ε} {f : φ} : F e f → Both F V (.error e) (.error f)
  | ok {a : α} {b : β} : V a b → Both F V (.ok a) (.ok b)

/-- The two programs agree from these two states. -/
abbrev Agree (F : ε → φ → Prop) (R : σ → τ → Prop) (m : StateT σ (Except ε) α) (m' : StateT τ (Except φ) α) (s : σ) (t : τ) :
    Prop := Both F (fun x y => x.1 = y.1 ∧ R x.2 y.2) (m s) (m' t)

variable {F : ε → φ → Prop} {R : σ → τ → Prop} {m : StateT σ (Except ε) α} {m' : StateT τ (Except φ) α} {s : σ} {t : τ}

/-- Agreement, read off the preconditions of the two programs, one inside the other. -/
theorem Agree.of_wp (h : wp m (fun a u => wp m' (fun b v => a = b ∧ R u v) (fun _ => False) t)
    (fun e => wp m' (fun _ _ => False) (F e) t) s) : Agree F R m m' s t := by
  unfold Agree
  cases hm : m s with
  | error e =>
    have h' := (wp_of_error hm).1 h
    cases hm' : m' t with
    | error f => exact .error ((wp_of_error hm').1 h')
    | ok b => exact ((wp_of_ok (a := b.1) (t := b.2) hm').1 h').elim
  | ok a =>
    have h' := (wp_of_ok (a := a.1) (t := a.2) hm).1 h
    cases hm' : m' t with
    | error f => exact ((wp_of_error hm').1 h').elim
    | ok b => exact .ok ((wp_of_ok (a := b.1) (t := b.2) hm').1 h')

/-- A sequence of calls: the answers up to the first fault, and the state or the fault in the end. -/
def calls (exec : ι → StateT σ (Except ε) α) : List ι → σ → List α × Except ε σ
  | [], s => ([], .ok s)
  | i :: is, s => match exec i s with
    | .error e => ([], .error e)
    | .ok r => (r.1 :: (calls exec is r.2).1, (calls exec is r.2).2)

/-- Calls that agree as long as `n` of them are left give the same answers and end alike. -/
theorem calls_agree {exec : ι → StateT σ (Except ε) α} {exec' : ι → StateT τ (Except φ) α} {R : Nat → σ → τ → Prop}
    (h : ∀ n i s t, R (n + 1) s t → Agree F (R n) (exec i) (exec' i) s t) (is : List ι) (hR : R is.length s t) :
    (calls exec is s).1 = (calls exec' is t).1 ∧ Both F (R 0) (calls exec is s).2 (calls exec' is t).2 := by
  induction is generalizing s t with
  | nil => exact ⟨rfl, .ok hR⟩
  | cons i is ih =>
    have hi := h is.length i s t hR
    unfold Agree at hi
    rw [calls, calls]
    generalize exec i s = o at hi
    generalize exec' i t = o' at hi
    cases hi with
    | error hf => exact ⟨rfl, .error hf⟩
    | ok hv =>
      obtain ⟨hans, hst⟩ := hv
      obtain ⟨hall, hend⟩ := ih hst
      exact ⟨congrArg₂ List.cons hans hall, hend⟩

end Prog
