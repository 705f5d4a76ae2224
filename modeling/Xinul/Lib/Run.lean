import Mathlib.Logic.Relation

/-!
# Runs of a machine

A machine has initial states and a labelled step relation. `Reach C s` says
that `s` is reached by a run all of whose steps meet the condition `C` on the
state before the step and its label; `Path C s t` is a part of such a run, and
`Noted C s n` a run along which notes `n` are kept about what happened.
-/

namespace Machine

variable {σ ε : Type} {init : σ → Prop} {step : σ → ε → σ → Prop} {C D : σ → ε → Prop}

/-- The states reached by runs whose steps all meet `C`. -/
inductive Reach (init : σ → Prop) (step : σ → ε → σ → Prop) (C : σ → ε → Prop) : σ → Prop where
  | init {s : σ} : init s → Reach init step C s
  | step {s t : σ} {e : ε} : Reach init step C s → C s e → step s e t → Reach init step C t

/-- The states reached from `s` by steps that all meet `C`. -/
inductive Path (step : σ → ε → σ → Prop) (C : σ → ε → Prop) (s : σ) : σ → Prop where
  | refl : Path step C s s
  | step {t u : σ} {e : ε} : Path step C s t → C t e → step t e u → Path step C s u

/-- An invariant of the steps that meet `C`. -/
theorem Reach.invariant {I : σ → Prop} (h0 : ∀ s, init s → I s)
    (hs : ∀ s e t, I s → C s e → step s e t → I t) {s : σ} (h : Reach init step C s) : I s := by
  induction h with
  | init h => exact h0 _ h
  | step _ hc hst ih => exact hs _ _ _ ih hc hst

theorem Reach.path {s t : σ} (h : Reach init step C s) (p : Path step C s t) :
    Reach init step C t := by
  induction p with
  | refl => exact h
  | step _ hc hst ih => exact ih.step hc hst

theorem Reach.mono (hcd : ∀ s e, C s e → D s e) {s : σ} (h : Reach init step C s) :
    Reach init step D s := by
  induction h with
  | init h => exact .init h
  | step _ hc hst ih => exact ih.step (hcd _ _ hc) hst

/-! ## Notes -/

section notes

variable {μ : Type} {n₀ n : μ} {note : σ → ε → μ → μ} {s : σ}

/-- The states reached by runs whose steps all meet `C`, with what was noted on the
way: `n₀` at the start, and at each step what `note` makes of the notes so far. -/
inductive Noted (init : σ → Prop) (step : σ → ε → σ → Prop) (C : σ → ε → Prop) (n₀ : μ) (note : σ → ε → μ → μ) :
    σ → μ → Prop where
  | init {s : σ} : init s → Noted init step C n₀ note s n₀
  | step {s t : σ} {e : ε} {n : μ} : Noted init step C n₀ note s n → C s e → step s e t →
      Noted init step C n₀ note t (note s e n)

theorem Noted.reach (h : Noted init step C n₀ note s n) : Reach init step C s := by
  induction h with
  | init h => exact .init h
  | step _ hc hst ih => exact ih.step hc hst

/-- Notes can be kept along every run. -/
theorem Reach.noted (n₀ : μ) (note : σ → ε → μ → μ) (h : Reach init step C s) :
    ∃ n, Noted init step C n₀ note s n := by
  induction h with
  | init h => exact ⟨n₀, .init h⟩
  | step _ hc hst ih =>
    obtain ⟨n, hn⟩ := ih
    exact ⟨_, hn.step hc hst⟩

end notes

end Machine
