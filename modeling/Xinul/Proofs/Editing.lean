import Xinul.Kernel.Keyboard
import Xinul.Proofs.ConsoleRing

/-!
# The loops of the editing keys

A loop that erases goes down from the last character, looking at the one before it. It
stops inside the buffer or goes on to the first cell, and looks at the cell before that
one too.
-/

namespace Xinul

namespace Console

variable {c : Console} {i : Int} {n : Nat}

@[simp] theorem deleteLast_last : c.deleteLast.lastWrittenCharIndex = c.lastWrittenCharIndex - 1 := rfl
@[simp] theorem deleteLast_start : c.deleteLast.startOfBufferIndex = c.startOfBufferIndex := rfl
@[simp] theorem deleteLast_echo : c.deleteLast.echo = c.echo := rfl

/-- `delete_last` clears the last character and no other. -/
theorem byteAt_deleteLast (hi : i < c.lastWrittenCharIndex) : c.deleteLast.byteAt i = c.byteAt i := by
  unfold byteAt deleteLast
  by_cases hneg : i < 0
  · rw [if_pos hneg, if_pos hneg]
  · rw [if_neg hneg, if_neg hneg]
    dsimp only
    rw [if_neg (by omega), Function.update_of_ne (by omega)]

/-- `delete_last`, `n` times. -/
def erase (c : Console) (n : Nat) : Console := deleteLast^[n] c

@[simp] theorem erase_zero : c.erase 0 = c := rfl

theorem erase_succ : c.erase (n + 1) = c.deleteLast.erase n := rfl

@[simp] theorem erase_last : (c.erase n).lastWrittenCharIndex = c.lastWrittenCharIndex - n := by
  induction n generalizing c with
  | zero => simp
  | succ n ih =>
    rw [erase_succ, ih, deleteLast_last]
    omega

@[simp] theorem erase_start : (c.erase n).startOfBufferIndex = c.startOfBufferIndex := by
  induction n generalizing c with
  | zero => rfl
  | succ n ih => rw [erase_succ, ih, deleteLast_start]

@[simp] theorem erase_echo : (c.erase n).echo = c.echo := by
  induction n generalizing c with
  | zero => rfl
  | succ n ih => rw [erase_succ, ih, deleteLast_echo]

theorem erase_add (m n : Nat) : (c.erase m).erase n = c.erase (n + m) := (Function.iterate_add_apply _ n m c).symm

theorem byteAt_erase (hi : i ≤ c.lastWrittenCharIndex - n) : (c.erase n).byteAt i = c.byteAt i := by
  induction n generalizing c with
  | zero => rfl
  | succ n ih =>
    rw [erase_succ, ih (by rw [deleteLast_last]; omega), byteAt_deleteLast (by omega)]

end Console

namespace Handling

variable {h : Handling} {p : UInt8 → Bool} {b : Bool} {i : Int} {n m t : Nat}

@[simp] theorem touch_ring : (h.touch i).ring = h.ring := rfl
@[simp] theorem touch_touched : (h.touch i).touched = h.touched ++ [i] := rfl
@[simp] theorem touch_ended : (h.touch i).ended = h.ended := rfl
@[simp] theorem deleteLast_ring : h.deleteLast.ring = h.ring.deleteLast := rfl
@[simp] theorem deleteLast_touched : h.deleteLast.touched = h.touched ++ [h.ring.lastWrittenCharIndex] := rfl
@[simp] theorem deleteLast_ended : h.deleteLast.ended = h.ended := rfl

/-- The ring after the loop, if it has ended. -/
def result (h : Handling) : Option Console := if h.ended then some h.ring else none

/-- Recording the accesses does not change what the loop does. -/
theorem eraseWhile_result (he : h.ended = true) :
    (h.eraseWhile p b t).result = Console.eraseWhile p b t h.ring := by
  induction t generalizing h with
  | zero => rfl
  | succ n ih =>
    rw [eraseWhile, Console.eraseWhile]
    by_cases hl : h.ring.lastWrittenCharIndex ≠ -1
    · by_cases hp : p (h.ring.byteAt (h.ring.lastWrittenCharIndex - 1)) = true
      · have hand := And.intro hl hp
        rw [if_pos hl, if_pos hp, if_pos hand]
        cases b with
        | true => exact ih he
        | false => exact ih he
      · rw [if_pos hl, if_neg hp, if_neg fun hand => hp hand.2]
        simp [result, he]
    · rw [if_neg hl, if_neg fun hand => hl hand.1]
      simp [result, he]

/-- What was accessed stays recorded. -/
theorem touched_eraseWhile (hi : i ∈ h.touched) : i ∈ (h.eraseWhile p b t).touched := by
  induction t generalizing h with
  | zero => exact hi
  | succ n ih =>
    rw [eraseWhile]
    split_ifs
    · exact ih (by simp [hi])
    · exact ih (by simp [hi])
    · simp [hi]
    · exact hi

@[simp] theorem echo_eraseWhile : (h.eraseWhile p b t).ring.echo = h.ring.echo := by
  induction t generalizing h with
  | zero => rfl
  | succ n ih =>
    rw [eraseWhile]
    split_ifs
    · exact ih
    · exact ih
    · rfl
    · rfl

/-- A loop on a ring that is not empty looks at the cell before the last character. -/
theorem eraseWhile_touches (hl : h.ring.lastWrittenCharIndex ≠ -1) (ht : 0 < t) :
    h.ring.lastWrittenCharIndex - 1 ∈ (h.eraseWhile p b t).touched := by
  obtain ⟨t, rfl⟩ := Nat.exists_eq_succ_of_ne_zero (by omega : t ≠ 0)
  rw [eraseWhile, if_pos hl]
  split_ifs
  · exact touched_eraseWhile (by simp)
  · exact touched_eraseWhile (by simp)
  · simp

/-- The ring is empty. -/
theorem eraseWhile_empty (hl : h.ring.lastWrittenCharIndex = -1) (ht : 0 < t) : h.eraseWhile p b t = h := by
  obtain ⟨t, rfl⟩ := Nat.exists_eq_succ_of_ne_zero (by omega : t ≠ 0)
  rw [eraseWhile, if_neg (not_not.2 hl)]

/-- The loop stops inside the buffer after `n` characters. -/
theorem eraseWhile_stop (hm : h.ring.lastWrittenCharIndex = m) (hn : n < m)
    (hp : ∀ j < n, p (h.ring.byteAt (m - 1 - j)) = true) (hstop : p (h.ring.byteAt (m - 1 - n)) = false) :
    ∃ l, (h.eraseWhile p false t).touched = h.touched ++ l ∧ (∀ i ∈ l, 0 ≤ i ∧ i ≤ m) ∧
      (n < t → h.eraseWhile p false t = ⟨h.ring.erase n, h.touched ++ l, h.ended⟩) ∧
      (t ≤ n → (h.eraseWhile p false t).ended = false) := by
  induction t generalizing h m n with
  | zero => exact ⟨[], by simp [eraseWhile], by simp, fun hlt => absurd hlt (by omega), fun _ => rfl⟩
  | succ t ih =>
    have hl : h.ring.lastWrittenCharIndex ≠ -1 := by omega
    rw [eraseWhile, if_pos hl]
    cases n with
    | zero =>
      have hnot : ¬ p (h.ring.byteAt (h.ring.lastWrittenCharIndex - 1)) = true := by
        rw [hm]
        simpa using hstop
      rw [if_neg hnot]
      refine ⟨[h.ring.lastWrittenCharIndex - 1], rfl, ?_, fun _ => rfl, fun hle => absurd hle (by omega)⟩
      intro i hi
      obtain rfl := List.mem_singleton.1 hi
      omega
    | succ n =>
      have hfirst : p (h.ring.byteAt (h.ring.lastWrittenCharIndex - 1)) = true := by
        have := hp 0 (by omega)
        rw [hm]
        simpa using this
      rw [if_pos hfirst, if_neg (by simp)]
      obtain ⟨m, rfl⟩ : ∃ k, m = k + 1 := ⟨m - 1, by omega⟩
      -- below the last character `delete_last` changes nothing
      have hsame : ∀ j : Nat, h.ring.deleteLast.byteAt (m - 1 - j) = h.ring.byteAt ((m + 1 : Nat) - 1 - (j + 1 : Nat)) := by
        intro j
        rw [Console.byteAt_deleteLast (by omega)]
        congr 1
        omega
      obtain ⟨l, htouched, hrange, hrun, hlate⟩ := @ih (((h.touch (h.ring.lastWrittenCharIndex - 1))).deleteLast) n m
        (by simp [hm]) (by omega)
        (fun j hj => by rw [deleteLast_ring, touch_ring, hsame]; exact hp (j + 1) (by omega))
        (by rw [deleteLast_ring, touch_ring, hsame]; exact hstop)
      refine ⟨(h.ring.lastWrittenCharIndex - 1) :: h.ring.lastWrittenCharIndex :: l, ?_, ?_, fun hlt => ?_,
        fun hle => hlate (by omega)⟩
      · rw [htouched]
        simp
      · intro i hi
        rcases List.mem_cons.1 hi with rfl | hi
        · omega
        · rcases List.mem_cons.1 hi with rfl | hi
          · omega
          · have := hrange i hi
            omega
      · rw [hrun (by omega)]
        simp [Console.erase_succ]

/-- The loop does not stop inside the buffer: it looks at the cell before the first one. -/
theorem eraseWhile_falls (hm : h.ring.lastWrittenCharIndex = m)
    (hp : ∀ j < m, p (h.ring.byteAt (m - 1 - j)) = true) (ht : m < t) :
    -1 ∈ (h.eraseWhile p false t).touched := by
  induction m generalizing h t with
  | zero =>
    have hmem := eraseWhile_touches (p := p) (b := false) (h := h) (by omega) ht
    rwa [hm] at hmem
  | succ m ih =>
    obtain ⟨t, rfl⟩ := Nat.exists_eq_succ_of_ne_zero (by omega : t ≠ 0)
    have hfirst : p (h.ring.byteAt (h.ring.lastWrittenCharIndex - 1)) = true := by
      have := hp 0 (by omega)
      rw [hm]
      simpa using this
    rw [eraseWhile, if_pos (by omega), if_pos hfirst, if_neg (by simp)]
    apply ih
    · simp [hm]
    · intro j hj
      have hj' := hp (j + 1) (by omega)
      rw [deleteLast_ring, touch_ring, Console.byteAt_deleteLast (by omega)]
      have heq : (m : Int) - 1 - j = (m + 1 : Nat) - 1 - (j + 1 : Nat) := by omega
      rw [heq]
      exact hj'
    · omega

/-- A loop that erases ends, whatever it tests. -/
theorem eraseWhile_ends (hm : -1 ≤ h.ring.lastWrittenCharIndex) (ht : h.ring.lastWrittenCharIndex + 1 < t) :
    (h.eraseWhile p false t).ended = h.ended ∧ -1 ≤ (h.eraseWhile p false t).ring.lastWrittenCharIndex ∧
      (h.eraseWhile p false t).ring.lastWrittenCharIndex ≤ h.ring.lastWrittenCharIndex := by
  induction t generalizing h with
  | zero => omega
  | succ t ih =>
    rw [eraseWhile]
    by_cases hl : h.ring.lastWrittenCharIndex ≠ -1
    · rw [if_pos hl]
      by_cases hp : p (h.ring.byteAt (h.ring.lastWrittenCharIndex - 1)) = true
      · rw [if_pos hp, if_neg (by simp)]
        have hgo := ih (h := (h.touch (h.ring.lastWrittenCharIndex - 1)).deleteLast)
          (by simp only [deleteLast_ring, touch_ring, Console.deleteLast_last]; omega)
          (by simp only [deleteLast_ring, touch_ring, Console.deleteLast_last]; omega)
        simp only [deleteLast_ring, touch_ring, Console.deleteLast_last, deleteLast_ended, touch_ended] at hgo
        exact ⟨hgo.1, hgo.2.1, by omega⟩
      · rw [if_neg hp]
        exact ⟨rfl, hm, le_rfl⟩
    · rw [if_neg hl]
      exact ⟨rfl, hm, le_rfl⟩

/-! ## Without the echo -/

/-- A loop with nothing to do in it looks at one character, over and over. -/
theorem eraseWhile_keeps : (h.eraseWhile p true t).ring = h.ring ∧
    ∀ i ∈ (h.eraseWhile p true t).touched, i ∈ h.touched ∨
      h.ring.lastWrittenCharIndex ≠ -1 ∧ i = h.ring.lastWrittenCharIndex - 1 := by
  induction t generalizing h with
  | zero => exact ⟨rfl, fun i hi => .inl hi⟩
  | succ t ih =>
    rw [eraseWhile]
    by_cases hl : h.ring.lastWrittenCharIndex ≠ -1
    · have htouch : ∀ i ∈ (h.touch (h.ring.lastWrittenCharIndex - 1)).touched, i ∈ h.touched ∨
          h.ring.lastWrittenCharIndex ≠ -1 ∧ i = h.ring.lastWrittenCharIndex - 1 := by
        intro i hi
        rw [touch_touched] at hi
        rcases List.mem_append.1 hi with hi | hi
        · exact .inl hi
        · exact .inr ⟨hl, List.mem_singleton.1 hi⟩
      rw [if_pos hl, if_pos rfl]
      by_cases hp : p (h.ring.byteAt (h.ring.lastWrittenCharIndex - 1)) = true
      · rw [if_pos hp]
        obtain ⟨hring, hmem⟩ := ih (h := h.touch (h.ring.lastWrittenCharIndex - 1))
        refine ⟨hring, fun i hi => ?_⟩
        rcases hmem i hi with hi | hi
        · exact htouch i hi
        · exact .inr hi
      · rw [if_neg hp]
        exact ⟨rfl, htouch⟩
    · rw [if_neg hl]
      exact ⟨rfl, fun i hi => .inl hi⟩

/-- And it goes on for ever if it does not end at once. -/
theorem eraseWhile_spins (hl : h.ring.lastWrittenCharIndex ≠ -1)
    (hp : p (h.ring.byteAt (h.ring.lastWrittenCharIndex - 1)) = true) : (h.eraseWhile p true t).ended = false := by
  induction t generalizing h with
  | zero => rfl
  | succ t ih =>
    rw [eraseWhile, if_pos hl, if_pos hp, if_pos rfl]
    exact ih (h := h.touch (h.ring.lastWrittenCharIndex - 1)) hl hp

/-! ## The handler -/

@[simp] theorem kaddtobuffer_ring {k : UInt8} : (h.kaddtobuffer k).ring = h.ring.kaddtobuffer k := by
  rw [kaddtobuffer, Console.kaddtobuffer]
  split <;> rfl

@[simp] theorem kaddtobuffer_ended {k : UInt8} : (h.kaddtobuffer k).ended = h.ended := by
  rw [kaddtobuffer]
  split <;> rfl

@[simp] theorem addSpaces_ring : (h.addSpaces n).ring = h.ring.addSpaces n := by
  induction n generalizing h with
  | zero => rfl
  | succ n ih => rw [addSpaces, ih, kaddtobuffer_ring, Console.addSpaces]

@[simp] theorem addSpaces_ended : (h.addSpaces n).ended = h.ended := by
  induction n generalizing h with
  | zero => rfl
  | succ n ih => rw [addSpaces, ih, kaddtobuffer_ended]

/-- A second loop goes on from where the first one ended. -/
theorem result_then : (if h.ended then (h.eraseWhile p (!h.ring.echo) t).result else h.result) =
    h.result.bind fun c => Console.eraseWhile p (!c.echo) t c := by
  by_cases he : h.ended = true
  · rw [if_pos he, eraseWhile_result he, result, if_pos he]
    rfl
  · rw [if_neg he, result, if_neg he]
    rfl

end Handling

/-- The key that deletes a word. -/
theorem Console.handle_word {c : Console} {t : Nat} : c.handle t keyDw =
    if ((⟨c, [], true⟩ : Handling).eraseWhile (· = charSpace) (!c.echo) t).ended then
      ((⟨c, [], true⟩ : Handling).eraseWhile (· = charSpace) (!c.echo) t).eraseWhile (· ≠ charSpace)
        (!((⟨c, [], true⟩ : Handling).eraseWhile (· = charSpace) (!c.echo) t).ring.echo) t
    else (⟨c, [], true⟩ : Handling).eraseWhile (· = charSpace) (!c.echo) t := rfl

/-- Recording the accesses does not change what the handler does. -/
theorem Console.key_eq (c : Console) (k : UInt8) : c.key k = (c.handle (bufferSize + 1) k).result := by
  have hadd : ∀ k, ((⟨c, [], true⟩ : Handling).kaddtobuffer k).result = some (c.kaddtobuffer k) := by
    intro k
    simp [Handling.result]
  have hspaces : ∀ n, ((⟨c, [], true⟩ : Handling).addSpaces n).result = some (c.addSpaces n) := by
    intro n
    simp [Handling.result]
  unfold handle key
  simp only [apply_ite Handling.result]
  rw [Handling.result_then]
  simp only [hadd, hspaces, Handling.eraseWhile_result (h := ⟨c, [], true⟩) rfl, ite_and]
  rfl

end Xinul
