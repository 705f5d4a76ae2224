import Mathlib.Logic.Basic
import Mathlib.Order.Defs.Unbundled

/-!
# Weakest preconditions for stateful programs that may fault

A program is a `StateT σ (Except ε) α`: it runs from a state and either
returns a value and a new state or stops with a fault. `wp m Q E s` says that
from `s` the program `m` ends in `Q` if it returns and in `E` if it faults; it
is a total reading, since the programs here are functions. The rules are the
usual ones, stated as rewrites so that a straight-line program is executed
symbolically by `simp`.
-/

namespace Prog

variable {σ ε α β : Type}

/-- From `s`, a return of `m` satisfies `Q` and a fault of `m` satisfies `E`. -/
def wp (m : StateT σ (Except ε) α) (Q : α → σ → Prop) (E : ε → Prop) (s : σ) : Prop :=
  match m s with
  | .ok r => Q r.1 r.2
  | .error e => E e

variable {Q Q' : α → σ → Prop} {E E' : ε → Prop} {s t : σ}

theorem wp_of_ok {m : StateT σ (Except ε) α} {a : α} (h : m s = .ok (a, t)) :
    wp m Q E s ↔ Q a t := by
  simp only [wp, h]

theorem wp_of_error {m : StateT σ (Except ε) α} {e : ε} (h : m s = .error e) :
    wp m Q E s ↔ E e := by
  simp only [wp, h]

/-- Only what the run returns matters. -/
theorem wp_congr {m n : StateT σ (Except ε) α} (h : m s = n t) : wp m Q E s ↔ wp n Q E t := by
  simp only [wp, h]

@[simp] theorem wp_pure (a : α) : wp (pure a : StateT σ (Except ε) α) Q E s ↔ Q a s := Iff.rfl

@[simp] theorem wp_get {Q : σ → σ → Prop} :
    wp (get : StateT σ (Except ε) σ) Q E s ↔ Q s s := Iff.rfl

@[simp] theorem wp_modify {Q : PUnit → σ → Prop} (f : σ → σ) :
    wp (modify f : StateT σ (Except ε) PUnit) Q E s ↔ Q ⟨⟩ (f s) := Iff.rfl

@[simp] theorem wp_throw (e : ε) : wp (throw e : StateT σ (Except ε) α) Q E s ↔ E e := Iff.rfl

@[simp] theorem wp_bind (m : StateT σ (Except ε) α) (f : α → StateT σ (Except ε) β)
    {Q : β → σ → Prop} :
    wp (m >>= f) Q E s ↔ wp m (fun a t => wp (f a) Q E t) E s := by
  simp only [wp, bind, StateT.bind, Except.bind]
  cases m s with
  | error e => exact Iff.rfl
  | ok r => exact Iff.rfl

theorem wp_ite (c : Prop) [Decidable c] (m n : StateT σ (Except ε) α) :
    wp (if c then m else n) Q E s ↔ (c → wp m Q E s) ∧ (¬ c → wp n Q E s) := by
  by_cases hc : c <;> simp [hc]

/-- Consequence: weaken both postconditions. -/
theorem wp_mono {m : StateT σ (Except ε) α} (h : wp m Q E s)
    (hQ : ∀ a t, m s = .ok (a, t) → Q a t → Q' a t) (hE : ∀ e, m s = .error e → E e → E' e) :
    wp m Q' E' s := by
  unfold wp at h ⊢
  cases hm : m s with
  | error e => rw [hm] at h; exact hE e hm h
  | ok r => rw [hm] at h; exact hQ r.1 r.2 hm h

/-- The bind rule with a spec for the first half. -/
theorem wp_seq {m : StateT σ (Except ε) α} {f : α → StateT σ (Except ε) β}
    {Q : β → σ → Prop} {P : α → σ → Prop} (hm : wp m P E s)
    (hf : ∀ a t, m s = .ok (a, t) → P a t → wp (f a) Q E t) :
    wp (m >>= f) Q E s := by
  rw [wp_bind]
  exact wp_mono hm hf (fun _ _ h => h)

/-- A return of the program, read off a proved precondition. -/
theorem wp_ok {m : StateT σ (Except ε) α} (h : wp m Q E s) {a : α} (hm : m s = .ok (a, t)) : Q a t :=
  (wp_of_ok hm).1 h

/-- A fault of the program, read off a proved precondition. -/
theorem wp_error {m : StateT σ (Except ε) α} (h : wp m Q E s) {e : ε} (hm : m s = .error e) : E e :=
  (wp_of_error hm).1 h

/-- A program without faults returns. -/
theorem wp_returns {m : StateT σ (Except ε) α} (h : wp m Q (fun _ => False) s) : ∃ a t, m s = .ok (a, t) ∧ Q a t := by
  cases hm : m s with
  | ok v => exact ⟨v.1, v.2, rfl, wp_ok h hm⟩
  | error e => exact (wp_error h hm).elim

/-- A spec that leaves the faults out is about the returns. -/
theorem wp_of_returns {m : StateT σ (Except ε) α} (h : ∀ a t, m s = .ok (a, t) → Q a t) : wp m Q (fun _ => True) s := by
  unfold wp
  cases hm : m s with
  | ok v => exact h v.1 v.2 hm
  | error e => trivial

/-- Two specs of one program. -/
theorem wp_and {m : StateT σ (Except ε) α} (h : wp m Q E s) (h' : wp m Q' E' s) :
    wp m (fun a t => Q a t ∧ Q' a t) E s := by
  unfold wp at h h' ⊢
  cases hm : m s with
  | error e => rw [hm] at h; exact h
  | ok r => rw [hm] at h h'; exact ⟨h, h'⟩

/-- A spec that is only asked for under a condition. -/
theorem wp_imp {m : StateT σ (Except ε) α} {F : Prop} (h : F → wp m Q (fun _ => True) s) :
    wp m (fun a t => F → Q a t) (fun _ => True) s := by
  unfold wp at h ⊢
  cases hm : m s with
  | error e => trivial
  | ok r => exact fun hf => by simpa only [hm] using h hf

/-! ## Running a program -/

theorem run_bind {m : StateT σ (Except ε) α} {f : α → StateT σ (Except ε) β} {a : α} (h : m s = .ok (a, t)) :
    (m >>= f) s = f a t := by
  simp only [Bind.bind, StateT.bind, Except.bind, h]

theorem run_bind_error {m : StateT σ (Except ε) α} {f : α → StateT σ (Except ε) β} {e : ε} (h : m s = .error e) :
    (m >>= f) s = .error e := by
  simp only [Bind.bind, StateT.bind, Except.bind, h]

/-! ## Frames -/

section frames

variable {γ : Type} {φ : σ → γ}

/-- A return of `m` leaves the part `φ` of the state as it was. -/
def Keeps (φ : σ → γ) (m : StateT σ (Except ε) α) : Prop :=
  ∀ s, wp m (fun _ t => φ t = φ s) (fun _ => True) s

theorem Keeps.pure (a : α) : Keeps φ (pure a : StateT σ (Except ε) α) := fun _ => rfl

theorem Keeps.get : Keeps φ (get : StateT σ (Except ε) σ) := fun _ => rfl

theorem Keeps.throw (e : ε) : Keeps φ (throw e : StateT σ (Except ε) α) := fun _ => trivial

theorem Keeps.modify {f : σ → σ} (h : ∀ s, φ (f s) = φ s) :
    Keeps φ (modify f : StateT σ (Except ε) PUnit) := h

theorem Keeps.bind {m : StateT σ (Except ε) α} {f : α → StateT σ (Except ε) β} (hm : Keeps φ m)
    (hf : ∀ a, Keeps φ (f a)) : Keeps φ (m >>= f) := by
  intro s
  refine wp_seq (hm s) fun a t _ ht => ?_
  exact wp_mono (hf a t) (fun _ _ _ hu => hu.trans ht) (fun _ _ h => h)

theorem Keeps.ite {c : Prop} [Decidable c] {m n : StateT σ (Except ε) α} (hm : Keeps φ m)
    (hn : Keeps φ n) : Keeps φ (if c then m else n) := by
  split
  · exact hm
  · exact hn

end frames

/-! ## Relations between the states before and after -/

section guards

variable {R : σ → σ → Prop} {E : σ → ε → Prop}

/-- A return of `m` leads to a state related to the one it started in, and a fault is one
that may happen there. -/
def Guards (R : σ → σ → Prop) (E : σ → ε → Prop) (m : StateT σ (Except ε) α) : Prop :=
  ∀ s, wp m (fun _ t => R s t) (E s) s

/-- A return of `m` leads to a state related to the one it started in. -/
abbrev Respects (R : σ → σ → Prop) (m : StateT σ (Except ε) α) : Prop := Guards R (fun _ _ => True) m

/-- A fault that may happen in a related state may happen. -/
class ReflectsFaults (R : σ → σ → Prop) (E : σ → ε → Prop) : Prop extends IsPreorder σ R where
  reflects : ∀ {s t e}, R s t → E t e → E s e

instance [IsPreorder σ R] : ReflectsFaults R fun (_ : σ) (_ : ε) => True where
  reflects _ _ := trivial

theorem Respects.run {m : StateT σ (Except ε) α} (h : Respects R m) (s : σ) : wp m (fun _ t => R s t) (fun _ => True) s :=
  h s

theorem Guards.throw {e : ε} (h : ∀ s, E s e) : Guards R E (throw e : StateT σ (Except ε) α) := h

theorem Guards.modify {f : σ → σ} (h : ∀ s, R s (f s)) : Guards R E (modify f : StateT σ (Except ε) PUnit) := h

theorem Guards.ite {c : Prop} [Decidable c] {m n : StateT σ (Except ε) α} (hm : Guards R E m)
    (hn : Guards R E n) : Guards R E (if c then m else n) := by
  split
  · exact hm
  · exact hn

theorem Guards.pure [IsPreorder σ R] (a : α) : Guards R E (pure a : StateT σ (Except ε) α) := fun s => refl_of R s

theorem Guards.get [IsPreorder σ R] : Guards R E (get : StateT σ (Except ε) σ) := fun s => refl_of R s

variable [ReflectsFaults R E]

/-- A state related to the one a program starts in is related to what it returns in. -/
theorem Guards.after {m : StateT σ (Except ε) α} (hm : Guards R E m) (h : R s t) :
    wp m (fun _ u => R s u) (E s) t :=
  wp_mono (hm t) (fun _ _ _ hu => trans_of R h hu) (fun _ _ he => ReflectsFaults.reflects h he)

omit [ReflectsFaults R E] in
theorem Respects.after [IsPreorder σ R] {m : StateT σ (Except ε) α} (hm : Respects R m) (h : R s t) :
    wp m (fun _ u => R s u) (fun _ => True) t := Guards.after hm h

theorem Guards.bind {m : StateT σ (Except ε) α} {f : α → StateT σ (Except ε) β} (hm : Guards R E m)
    (hf : ∀ a, Guards R E (f a)) : Guards R E (m >>= f) :=
  fun s => wp_seq (hm s) fun a _ _ ht => (hf a).after ht

end guards

/-! ## Programs that do not see a change of the state -/

section blind

variable {f : σ → σ}

/-- The program does the same in a state that `f` changed, and the change stays. -/
def Blind (f : σ → σ) (m : StateT σ (Except ε) α) : Prop := ∀ s, m (f s) = (m s).map fun r => (r.1, f r.2)

theorem Blind.pure (a : α) : Blind f (pure a : StateT σ (Except ε) α) := fun _ => rfl

theorem Blind.throw (e : ε) : Blind f (throw e : StateT σ (Except ε) α) := fun _ => rfl

theorem Blind.modify {g : σ → σ} (h : ∀ s, g (f s) = f (g s)) : Blind f (modify g : StateT σ (Except ε) PUnit) :=
  fun s => congrArg (fun t => Except.ok (PUnit.unit, t)) (h s)

theorem Blind.bind {m : StateT σ (Except ε) α} {k : α → StateT σ (Except ε) β} (hm : Blind f m)
    (hk : ∀ a, Blind f (k a)) : Blind f (m >>= k) := by
  intro s
  simp only [Bind.bind, StateT.bind, Except.bind, hm s]
  cases m s with
  | error e => rfl
  | ok r => exact hk r.1 r.2

/-- What is read of the state is what `f` leaves alone. -/
theorem Blind.get {k : σ → StateT σ (Except ε) β} (h : ∀ s, k (f s) = k s) (hk : ∀ s, Blind f (k s)) :
    Blind f (MonadState.get >>= k) := by
  intro s
  change k (f s) (f s) = (k s s).map fun r => (r.1, f r.2)
  rw [h s]
  exact hk s s

theorem Blind.ite {c : Prop} [Decidable c] {m n : StateT σ (Except ε) α} (hm : Blind f m) (hn : Blind f n) :
    Blind f (if c then m else n) := by
  split
  · exact hm
  · exact hn

end blind

end Prog
