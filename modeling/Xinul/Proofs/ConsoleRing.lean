import Xinul.Kernel.Input
import Xinul.Lib.Ring

/-!
# The console ring as a queue of characters

`start_of_buffer_index` and `last_written_char_index` are both on a character, so the
empty ring has a form of its own, `-1` for the second index. `Console.Holds` says which
characters the ring holds; the functions of `console.c` and `cons_read.c` are then read
as functions of that list.
-/

namespace Xinul

open Ring

/-- A line of at most `n` characters is read: the characters given to the reader and
those left. The newline is read with a line that is shorter. -/
def readLine : Nat → List UInt8 → List UInt8 × List UInt8
  | 0, q => ([], q)
  | _, [] => ([], [])
  | n + 1, k :: q => if k = charNewline then ([], q) else (k :: (readLine n q).1, (readLine n q).2)

/-- What is left starts after the characters given, and after the newline if the reader
had asked for more. -/
theorem readLine_snd (n : Nat) (q : List UInt8) :
    (readLine n q).2 = q.drop ((readLine n q).1.length + if (readLine n q).1.length < n then 1 else 0) := by
  induction n, q using readLine.induct with
  | case1 q => simp [readLine]
  | case2 n hn => cases n <;> simp_all [readLine]
  | case3 n q => simp [readLine]
  | case4 n k q hk ih =>
    simp only [readLine, if_neg hk, ih, List.length_cons]
    rw [Nat.add_right_comm, List.drop_succ_cons]
    simp only [Nat.succ_eq_add_one, Nat.add_lt_add_iff_right]

/-- A character is typed. -/
def typed (k : UInt8) (q : List UInt8) : List UInt8 := if q.length < bufferSize then q ++ [k] else q

/-- `cons_read` of `n` characters does not have to wait. -/
def canRead (n : Nat) (q : List UInt8) : Bool := charNewline ∈ q ∨ q.length = bufferSize ∨ n ≤ q.length

/-- The ring holds the characters `q`, the oldest first. -/
inductive Console.Holds (c : Console) : List UInt8 → Prop where
  | empty : c.lastWrittenCharIndex = -1 → c.startOfBufferIndex = 0 → c.Holds []
  | chars {q : List UInt8} {start n : Nat} : q.length = n + 1 → n < bufferSize → start < bufferSize →
      c.startOfBufferIndex = start → c.lastWrittenCharIndex = ((start + n) % bufferSize : Nat) →
      window c.buffer bufferSize start (n + 1) = q → c.Holds q

section

variable {c c' : Console} {q : List UInt8} {k : UInt8} {n start : Nat}

theorem Console.Holds.length_le (h : c.Holds q) : q.length ≤ bufferSize := by
  cases h with
  | empty _ _ => exact Nat.zero_le _
  | chars hlen hn _ _ _ _ => omega

/-- C's remainder of an index. -/
theorem tmod_succ (m : Nat) : Int.tmod ((m : Int) + 1) bufferSize = ((m + 1) % bufferSize : Nat) := by
  rw [Int.ofNat_tmod]
  rfl

theorem Console.Holds.isBufferFull (h : c.Holds q) : c.isBufferFull = decide (q.length = bufferSize) := by
  cases h with
  | empty hl _ => simp [Console.isBufferFull, hl, bufferSize]
  | chars hlen hn hs hst hl _ =>
    have hne : c.lastWrittenCharIndex ≠ -1 := by omega
    rw [Console.isBufferFull, if_neg hne, hl, hst, tmod_succ, hlen]
    congr 1
    simp only [eq_iff_iff]
    unfold bufferSize at *
    omega

theorem Console.Holds.bufferCurrentSize (h : c.Holds q) : c.bufferCurrentSize = q.length % bufferSize := by
  cases h with
  | empty hl hst => simp [Console.bufferCurrentSize, hl, hst, bufferSize]
  | @chars _ start n hlen hn hs hst hl _ =>
    rw [Console.bufferCurrentSize, hl, hst, hlen]
    unfold bufferSize at *
    rcases lt_or_ge (start + n) 20 with hlt | hge
    · have hx : (((start + n) % 20 : Nat) : Int) - start + 1 = (n + 1 : Nat) := by omega
      have hr : Int.tmod (n + 1 : Nat) (20 : Nat) = ((n + 1) % 20 : Nat) := (Int.ofNat_tmod _ _).symm
      rw [hx, hr]
      rw [if_neg (by omega), Int.toNat_natCast]
    · -- the last character is before the first one
      have hx : (((start + n) % 20 : Nat) : Int) - start + 1 = -(19 - n : Nat) := by omega
      have hr : Int.tmod (19 - n : Nat) (20 : Nat) = (19 - n : Nat) := by
        rw [← Int.ofNat_tmod, Nat.mod_eq_of_lt (by omega)]
      rw [hx, Int.neg_tmod, hr]
      split <;> omega

/-- `kaddtobuffer` puts the character at the end, if there is room. -/
theorem Console.Holds.kaddtobuffer (h : c.Holds q) : (c.kaddtobuffer k).Holds (typed k q) := by
  rw [Console.kaddtobuffer, h.isBufferFull, typed]
  by_cases hfull : q.length = bufferSize
  · rw [if_pos (by simpa using hfull), if_neg (by omega)]
    exact h
  · have hlt : q.length < bufferSize := lt_of_le_of_ne h.length_le hfull
    rw [if_neg (by simpa using hfull), if_pos hlt]
    cases h with
    | empty hl hst =>
      refine @Console.Holds.chars _ _ 0 0 rfl (by decide) (by decide) hst ?_ ?_
      · simp [hl]
      · simp [window, hl]
    | @chars _ start n hlen hn hs hst hl hw =>
      have hi : Int.tmod (c.lastWrittenCharIndex + 1) bufferSize = ((start + (n + 1)) % bufferSize : Nat) := by
        rw [hl, tmod_succ, Nat.mod_add_mod]
        rfl
      refine @Console.Holds.chars _ _ start (n + 1) (by simp [hlen]) (by omega) hs hst hi ?_
      dsimp only
      rw [hi, Int.toNat_natCast, window_push (by omega), hw]

/-! ## The loops -/

/-- A cell further on in a window that is not all of it is another cell. -/
theorem next_ne {temp m : Nat} (ht : temp < bufferSize) (hm : m + 1 < bufferSize) :
    temp ≠ (temp + (m + 1)) % bufferSize := by
  intro h
  have : (temp + 0) % bufferSize ≠ _ := cell_ne hm (Nat.succ_pos m)
  rw [Nat.add_zero, Nat.mod_eq_of_lt ht] at this
  exact this h

/-- The end of a window does not change when its first cell is left. -/
theorem window_end (temp m : Nat) : ((temp + 1) % bufferSize + m) % bufferSize = (temp + (m + 1)) % bufferSize := by
  rw [Nat.mod_add_mod]
  congr 1
  omega

/-- The loop of `detected_eol` ends on a newline if there is one. -/
theorem eolWalk_spec {m temp : Nat} (fuel : Nat) (ht : temp < bufferSize) (hm : m < bufferSize) (hfuel : m < fuel)
    (hl : c.lastWrittenCharIndex = ((temp + m) % bufferSize : Nat)) :
    ∃ i, c.eolWalk fuel temp = some i ∧
      (c.buffer i = charNewline ↔ charNewline ∈ window c.buffer bufferSize temp (m + 1)) := by
  induction m generalizing temp fuel with
  | zero =>
    obtain ⟨fuel, rfl⟩ := Nat.exists_eq_succ_of_ne_zero (by omega : fuel ≠ 0)
    rw [Nat.add_zero, Nat.mod_eq_of_lt ht] at hl
    refine ⟨temp, by simp [Console.eolWalk, hl], ?_⟩
    simp [window, Nat.mod_eq_of_lt ht, eq_comm]
  | succ m ih =>
    obtain ⟨fuel, rfl⟩ := Nat.exists_eq_succ_of_ne_zero (by omega : fuel ≠ 0)
    rw [window_pop, Nat.mod_eq_of_lt ht, List.mem_cons, Console.eolWalk]
    have hne : (temp : Int) ≠ c.lastWrittenCharIndex := by
      rw [hl]
      exact_mod_cast next_ne ht hm
    by_cases hk : c.buffer temp = charNewline
    · exact ⟨temp, by simp [hk], by simp [hk]⟩
    · rw [if_pos ⟨hne, hk⟩]
      obtain ⟨i, hi, hiff⟩ := @ih ((temp + 1) % bufferSize) fuel (Nat.mod_lt _ (by decide)) (by omega)
        (by omega) (by rw [window_end, hl])
      exact ⟨i, hi, by rw [hiff]; simp [Ne.symm hk]⟩

theorem Console.Holds.detectedEol (h : c.Holds q) : c.detectedEol = some (decide (charNewline ∈ q)) := by
  cases h with
  | empty hl _ => simp [Console.detectedEol, Console.isBufferEmpty, hl]
  | @chars _ start n hlen hn hs hst hl hw =>
    have hne : c.lastWrittenCharIndex ≠ -1 := by omega
    obtain ⟨i, hi, hiff⟩ := eolWalk_spec (bufferSize + 1) hs hn (by omega) hl
    rw [hw] at hiff
    simp [Console.detectedEol, Console.isBufferEmpty, hne, hst, hi, hiff]

/-- What `copy` does once its loop has ended. -/
def Console.copyEnd (c : Console) (length : Nat) (buf : Nat → UInt8) (out : List UInt8) (temp : Nat) :
    Console × List UInt8 :=
  if out.length ≥ length then
    ({ c with buffer := buf, startOfBufferIndex := temp }, out)
  else if (temp : Int) = c.lastWrittenCharIndex ∧ buf temp ≠ charNewline then
    ({ c with buffer := Function.update buf temp 0, startOfBufferIndex := 0, lastWrittenCharIndex := -1 },
      out ++ [buf temp])
  else if (temp : Int) = c.lastWrittenCharIndex ∧ buf temp = charNewline then
    ({ c with buffer := buf, startOfBufferIndex := 0, lastWrittenCharIndex := -1 }, out)
  else if buf temp = charNewline then
    ({ c with buffer := Function.update buf temp 0, startOfBufferIndex := ((temp + 1) % bufferSize : Nat) }, out)
  else ({ c with buffer := buf }, out)

theorem Console.copy_eq (length : Nat) : c.copy length =
    (copyWalk c.lastWrittenCharIndex (bufferSize + 1) length c.startOfBufferIndex.toNat c.buffer []).map
      fun (buf, out, temp) => c.copyEnd length buf out temp := rfl

/-- The loop of `copy` ends before the first character. -/
theorem copyWalk_stop {temp room fuel : Nat} {buf : Nat → UInt8} {out : List UInt8} (hfuel : 0 < fuel)
    (h : room = 0 ∨ buf temp = charNewline ∨ (temp : Int) = c.lastWrittenCharIndex) :
    Console.copyWalk c.lastWrittenCharIndex fuel room temp buf out = some (buf, out, temp) := by
  obtain ⟨fuel, rfl⟩ := Nat.exists_eq_succ_of_ne_zero (by omega : fuel ≠ 0)
  rw [Console.copyWalk, if_neg]
  rintro ⟨h1, h2, h3⟩
  rcases h with h | h | h
  · omega
  · exact h2 h
  · exact h3 h

/-- The reader has all it asked for: the ring starts where the loop ended. -/
theorem copyEnd_enough {m temp : Nat} (buf : Nat → UInt8) (out : List UInt8) (ht : temp < bufferSize)
    (hm : m < bufferSize) (hl : c.lastWrittenCharIndex = ((temp + m) % bufferSize : Nat)) :
    (c.copyEnd (out.length + 0) buf out temp).2 = out ∧
      (c.copyEnd (out.length + 0) buf out temp).1.Holds (window buf bufferSize temp (m + 1)) := by
  rw [Console.copyEnd, if_pos (by simp)]
  exact ⟨rfl, .chars length_window hm ht rfl hl rfl⟩

/-- The loop of `copy` with what follows it, from a character on: by induction on the
characters up to the last one. -/
theorem copyWalk_spec {m temp : Nat} (room fuel : Nat) (buf : Nat → UInt8) (out : List UInt8) (ht : temp < bufferSize)
    (hm : m < bufferSize) (hfuel : m < fuel) (hl : c.lastWrittenCharIndex = ((temp + m) % bufferSize : Nat)) :
    ∃ buf' out' temp', Console.copyWalk c.lastWrittenCharIndex fuel room temp buf out = some (buf', out', temp') ∧
      (c.copyEnd (out.length + room) buf' out' temp').2 =
        out ++ (readLine room (window buf bufferSize temp (m + 1))).1 ∧
      (c.copyEnd (out.length + room) buf' out' temp').1.Holds
        (readLine room (window buf bufferSize temp (m + 1))).2 := by
  induction m generalizing temp room fuel buf out with
  | zero =>
    have hlast : (temp : Int) = c.lastWrittenCharIndex := by rw [hl, Nat.add_zero, Nat.mod_eq_of_lt ht]
    have hw : window buf bufferSize temp 1 = [buf temp] := by simp [window, Nat.mod_eq_of_lt ht]
    refine ⟨buf, out, temp, copyWalk_stop (by omega) (.inr (.inr hlast)), ?_⟩
    cases room with
    | zero => simpa [readLine] using copyEnd_enough buf out ht hm hl
    | succ room =>
      rw [hw, Console.copyEnd, if_neg (by omega), readLine]
      by_cases hk : buf temp = charNewline
      · rw [if_neg (by simp [hk]), if_pos ⟨hlast, hk⟩, if_pos hk]
        exact ⟨by simp, .empty rfl rfl⟩
      · rw [if_pos ⟨hlast, hk⟩, if_neg hk]
        have hnil : readLine room [] = ([], []) := by cases room <;> rfl
        rw [hnil]
        exact ⟨rfl, .empty rfl rfl⟩
  | succ m ih =>
    have hne : (temp : Int) ≠ c.lastWrittenCharIndex := by
      rw [hl]
      exact_mod_cast next_ne ht hm
    have hrest : window (Function.update buf temp 0) bufferSize ((temp + 1) % bufferSize) (m + 1) =
        window buf bufferSize ((temp + 1) % bufferSize) (m + 1) := window_before hm ht 0
    have hend : c.lastWrittenCharIndex = (((temp + 1) % bufferSize + m) % bufferSize : Nat) := by rw [window_end, hl]
    have hlt : (temp + 1) % bufferSize < bufferSize := Nat.mod_lt _ (by decide)
    cases room with
    | zero => exact ⟨buf, out, temp, copyWalk_stop (by omega) (.inl rfl), by simpa [readLine] using copyEnd_enough buf out ht hm hl⟩
    | succ room =>
      rw [window_pop, Nat.mod_eq_of_lt ht, readLine]
      by_cases hk : buf temp = charNewline
      · refine ⟨buf, out, temp, copyWalk_stop (by omega) (.inr (.inl hk)), ?_⟩
        rw [Console.copyEnd, if_neg (by omega), if_neg (by simp [hk]), if_neg (fun h => hne h.1), if_pos hk, if_pos hk]
        exact ⟨by simp, .chars length_window (by omega) hlt rfl hend hrest⟩
      · obtain ⟨fuel, rfl⟩ := Nat.exists_eq_succ_of_ne_zero (by omega : fuel ≠ 0)
        obtain ⟨buf', out', temp', hwalk, h1, h2⟩ := ih room fuel
          (Function.update buf temp 0) (out ++ [buf temp]) hlt (by omega) (by omega) hend
        rw [hrest] at h1 h2
        rw [if_neg hk]
        have hlen : (out ++ [buf temp]).length + room = out.length + (room + 1) := by simp; omega
        rw [hlen] at h1 h2
        refine ⟨buf', out', temp', ?_, ?_, h2⟩
        · rw [Console.copyWalk, if_pos ⟨Nat.succ_pos _, hk, hne⟩]
          exact hwalk
        · rw [h1, List.append_assoc]
          rfl

/-- `copy` reads a line. -/
theorem Console.Holds.copy (h : c.Holds q) (hq : q ≠ []) (length : Nat) :
    ∃ c', c.copy length = some (c', (readLine length q).1) ∧ c'.Holds (readLine length q).2 := by
  cases h with
  | empty _ _ => exact absurd rfl hq
  | @chars _ start n hlen hn hs hst hl hw =>
    obtain ⟨buf, out, temp, hwalk, h1, h2⟩ := copyWalk_spec length (bufferSize + 1) c.buffer []
      hs hn (by omega) hl
    rw [hw] at h1 h2
    rw [List.length_nil, Nat.zero_add] at h1 h2
    refine ⟨(c.copyEnd length buf out temp).1, ?_, h2⟩
    rw [Console.copy_eq, hst, Int.toNat_natCast, hwalk]
    exact congrArg some (Prod.ext rfl h1)

end

end Xinul
