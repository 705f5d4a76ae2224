import Xinul.Proofs.Editing

/-!
# What the editing keys erase

The handler stores no carriage return, and leaves no space in a cell that holds none of
the text. So its loops over the spaces of a word stop inside the text or not at all.
-/

namespace Xinul

open Ring

namespace Console

/-- The ring holds `q`, no cell a carriage return, and no cell outside the text a space. -/
structure Tidy (c : Console) (q : List UInt8) : Prop where
  holds : c.Holds q
  noReturn : ∀ i, c.buffer i ≠ charReturn
  blank : ∀ i < bufferSize, c.buffer i = charSpace → ∃ j < q.length, i = (c.startOfBufferIndex.toNat + j) % bufferSize

variable {c c' : Console} {q q' : List UInt8} {k : UInt8} {i m n : Nat}

theorem byteAt_natCast (c : Console) (i : Nat) : c.byteAt i = c.buffer i := by
  rw [byteAt, if_neg (by omega), Int.toNat_natCast]

theorem Holds.last_range (h : c.Holds q) : -1 ≤ c.lastWrittenCharIndex ∧ c.lastWrittenCharIndex < bufferSize := by
  cases h with
  | empty hl _ =>
    rw [hl]
    decide
  | @chars _ start n _ _ _ _ hl _ =>
    have hlt := Nat.mod_lt (start + n) (show 0 < bufferSize by decide)
    omega

/-- A ring holds one text. -/
theorem Holds.unique (h : c.Holds q) (h' : c.Holds q') : q = q' := by
  cases h with
  | empty hl _ =>
    cases h' with
    | empty _ _ => rfl
    | chars _ _ _ _ hl' _ => omega
  | @chars _ start n hlen hn hs hst hl hw =>
    cases h' with
    | empty hl' _ => omega
    | @chars _ start' n' hlen' hn' hs' hst' hl' hw' =>
      obtain rfl : start = start' := by omega
      obtain rfl : n = n' := by
        have hmod : (start + n) % bufferSize = (start + n') % bufferSize := by omega
        unfold bufferSize at *
        omega
      rw [← hw, hw']

/-- A cell of the text below the last one: there are two characters at least. -/
theorem Tidy.ne_start (h : c.Tidy q) (hi : c.buffer i = charSpace) (hlt : (i : Int) < c.lastWrittenCharIndex) :
    c.lastWrittenCharIndex ≠ c.startOfBufferIndex := by
  intro heq
  have hrange := h.holds.last_range
  obtain ⟨j, hj, hcell⟩ := h.blank i (by omega) hi
  cases h.holds with
  | empty hl _ => omega
  | @chars _ start n hlen hn hs hst hl _ =>
    rw [hst, Int.toNat_natCast] at hcell
    unfold bufferSize at *
    omega

/-- `delete_last` erases the last of at least two characters. -/
theorem Tidy.deleteLast (h : c.Tidy q) (hlast : 1 ≤ c.lastWrittenCharIndex)
    (hne : c.lastWrittenCharIndex ≠ c.startOfBufferIndex) :
    c.deleteLast.Tidy q.dropLast ∧ q = q.dropLast ++ [c.byteAt c.lastWrittenCharIndex] := by
  obtain ⟨hholds, hreturn, hblank⟩ := h
  cases hholds with
  | empty hl _ => omega
  | @chars _ start n hlen hn hs hst hl hw =>
    obtain ⟨n, rfl⟩ : ∃ k, n = k + 1 := by
      refine ⟨n - 1, ?_⟩
      have hn0 : n ≠ 0 := by
        rintro rfl
        rw [Nat.add_zero, Nat.mod_eq_of_lt hs] at hl
        exact hne (hl.trans hst.symm)
      omega
    have hbuffer : c.deleteLast.buffer = Function.update c.buffer ((start + (n + 1)) % bufferSize) 0 := by
      unfold Console.deleteLast
      dsimp only
      rw [if_neg (by omega), hl, Int.toNat_natCast]
    have hq : q = window c.buffer bufferSize start (n + 1) ++ [c.byteAt c.lastWrittenCharIndex] := by
      rw [← hw, window_snoc, hl, byteAt_natCast]
    have hdrop : q.dropLast = window c.buffer bufferSize start (n + 1) := by
      rw [hq, List.dropLast_concat]
    refine ⟨⟨?_, ?_, ?_⟩, by rw [hdrop]; exact hq⟩
    · refine @Console.Holds.chars _ _ start n (by simp [hlen]) (by omega) hs hst ?_ ?_
      · rw [deleteLast_last, hl]
        unfold bufferSize at *
        omega
      · rw [hbuffer, window_after hn, hdrop]
    · intro i
      rw [hbuffer]
      by_cases hi : i = (start + (n + 1)) % bufferSize
      · rw [hi, Function.update_self]
        decide
      · rw [Function.update_of_ne hi]
        exact hreturn i
    · intro i hi hsp
      rw [hbuffer] at hsp
      by_cases hcell : i = (start + (n + 1)) % bufferSize
      · rw [hcell, Function.update_self] at hsp
        cases hsp
      · rw [Function.update_of_ne hcell] at hsp
        obtain ⟨j, hj, rfl⟩ := hblank i hi hsp
        have hstart : c.startOfBufferIndex.toNat = start := by omega
        refine ⟨j, ?_, rfl⟩
        rw [hlen] at hj
        rw [hdrop, length_window]
        have hjn : j ≠ n + 1 := by
          rintro rfl
          rw [hstart] at hcell
          exact hcell rfl
        omega

/-- The characters down to two cells after a space are erased. -/
theorem Tidy.erase {a : Nat} (h : c.Tidy q) (hm : c.lastWrittenCharIndex = (a + 1 + n : Nat)) (hsp : c.buffer a = charSpace) :
    ∃ q', (c.erase n).Tidy q' ∧ q = q' ++ (List.range' (a + 2) n).map fun i => c.buffer i := by
  induction n generalizing c q with
  | zero => exact ⟨q, h, by simp⟩
  | succ n ih =>
    have hne := h.ne_start hsp (by omega)
    obtain ⟨hdel, hq⟩ := h.deleteLast (by omega) hne
    have hkeep : ∀ i : Nat, i < a + 1 + (n + 1) → c.deleteLast.buffer i = c.buffer i := by
      intro i hi
      have hbyte := byteAt_deleteLast (c := c) (i := i) (by omega)
      rwa [byteAt_natCast, byteAt_natCast] at hbyte
    obtain ⟨q', htidy, hq'⟩ := ih hdel (by rw [deleteLast_last]; omega) (by rw [hkeep a (by omega)]; exact hsp)
    refine ⟨q', htidy, ?_⟩
    have hsame : ((List.range' (a + 2) n).map fun i => c.deleteLast.buffer i) = (List.range' (a + 2) n).map fun i => c.buffer i := by
      apply List.map_congr_left
      intro i hi
      obtain ⟨_, hlt⟩ := List.mem_range'_1.1 hi
      exact hkeep i (by omega)
    rw [hq, hq', hsame, List.range'_concat, List.map_append, ← List.append_assoc, hm, byteAt_natCast]
    simp only [List.map_cons, List.map_nil, Nat.one_mul]
    congr 3
    omega

/-- A character typed goes to the cell after the text. -/
theorem Holds.next_cell (h : c.Holds q) (hfull : q.length ≠ bufferSize) :
    Int.tmod (c.lastWrittenCharIndex + 1) bufferSize = ((c.startOfBufferIndex.toNat + q.length) % bufferSize : Nat) := by
  cases h with
  | empty hl hst =>
    rw [hl, hst]
    rfl
  | @chars _ start n hlen hn hs hst hl hw =>
    rw [hl, tmod_succ, Nat.mod_add_mod, hst, hlen]
    rfl

theorem Tidy.kaddtobuffer (h : c.Tidy q) (hk : k ≠ charReturn) : (c.kaddtobuffer k).Tidy (typed k q) := by
  have hholds := h.holds.kaddtobuffer (k := k)
  rw [Console.kaddtobuffer, h.holds.isBufferFull, typed] at hholds ⊢
  by_cases hfull : q.length = bufferSize
  · rw [if_pos (by simpa using hfull), if_neg (by omega)]
    exact h
  · have hlt : q.length < bufferSize := lt_of_le_of_ne h.holds.length_le hfull
    rw [if_neg (by simpa using hfull), if_pos hlt] at hholds ⊢
    have hcell := h.holds.next_cell hfull
    refine ⟨hholds, ?_, ?_⟩
    · intro i
      dsimp only
      by_cases hi : i = (Int.tmod (c.lastWrittenCharIndex + 1) bufferSize).toNat
      · rw [hi, Function.update_self]
        exact hk
      · rw [Function.update_of_ne hi]
        exact h.noReturn i
    · intro i hi hsp
      dsimp only at hsp ⊢
      rw [List.length_append, List.length_singleton]
      by_cases hnew : i = (Int.tmod (c.lastWrittenCharIndex + 1) bufferSize).toNat
      · refine ⟨q.length, by omega, ?_⟩
        rw [hnew, hcell, Int.toNat_natCast]
      · rw [Function.update_of_ne hnew] at hsp
        obtain ⟨j, hj, hij⟩ := h.blank i hi hsp
        exact ⟨j, by omega, hij⟩

end Console

namespace Handling

variable {h : Handling} {q : List UInt8} {k : UInt8} {n : Nat}

/-- Every access was inside the buffer. -/
def Within (h : Handling) : Prop := ∀ i ∈ h.touched, 0 ≤ i ∧ i < bufferSize

theorem Within.touch {i : Int} (hw : h.Within) (h0 : 0 ≤ i) (hb : i < bufferSize) : (h.touch i).Within := by
  intro j hj
  rcases List.mem_append.1 hj with hj | hj
  · exact hw j hj
  · obtain rfl := List.mem_singleton.1 hj
    exact ⟨h0, hb⟩

theorem Within.kaddtobuffer (hw : h.Within) (hq : h.ring.Holds q) : (h.kaddtobuffer k).Within := by
  rw [Handling.kaddtobuffer, hq.isBufferFull]
  by_cases hfull : q.length = bufferSize
  · rw [if_pos (by simpa using hfull)]
    exact hw
  · rw [if_neg (by simpa using hfull)]
    have hcell := hq.next_cell hfull
    apply Within.touch hw
    · omega
    · have hlt := Nat.mod_lt (h.ring.startOfBufferIndex.toNat + q.length) (show 0 < bufferSize by decide)
      omega

theorem addSpaces_tidy (hw : h.Within) (hq : h.ring.Tidy q) : (h.addSpaces n).Within ∧ ∃ q', (h.addSpaces n).ring.Tidy q' := by
  induction n generalizing h q with
  | zero => exact ⟨hw, q, hq⟩
  | succ n ih =>
    rw [addSpaces]
    apply ih (hw.kaddtobuffer hq.holds)
    rw [kaddtobuffer_ring]
    exact hq.kaddtobuffer (by decide)

end Handling

/-! ## Keys that do no harm -/

/-- The keys that erase. -/
def EraseKey (k : UInt8) : Prop := k = keyBs ∨ k = keyBsh ∨ k = keyDl ∨ k = keyDw

/-- The last characters are a word, spaces and one more character; there is a space before
the word, further down in the buffer, and no newline in it but for its first letter or
after it. -/
def Console.WordBefore (c : Console) : Prop :=
  ∃ a b m : Nat, c.lastWrittenCharIndex = m ∧ a + 1 < b ∧ b ≤ m ∧ c.buffer a = charSpace ∧
    (∀ i, a < i → i < b → c.buffer i ≠ charSpace) ∧ (∀ i, b ≤ i → i < m → c.buffer i = charSpace) ∧
    ∀ i, a + 1 < i → i ≤ m → c.buffer i ≠ charNewline

/-- The states in which the key erases what it should. -/
structure Careful (c : Console) (k : UInt8) : Prop where
  last : k = keyBs ∨ k = keyBsh → c.lastWrittenCharIndex = -1 ∨ 1 ≤ c.lastWrittenCharIndex ∧
    c.lastWrittenCharIndex ≠ c.startOfBufferIndex ∧ c.byteAt c.lastWrittenCharIndex ≠ charNewline
  line : k = keyDl → c.lastWrittenCharIndex = -1
  word : k = keyDw → c.echo = true → c.lastWrittenCharIndex = -1 ∨ c.WordBefore
  silent : k = keyDw → c.echo = false → c.lastWrittenCharIndex ≠ 0

/-- The handler stays inside the buffer, leaves a ring that is in order, and erases
nothing but the characters after the last newline. -/
structure EditsLine (c : Console) (q : List UInt8) (k : UInt8) : Prop where
  within : ∀ turns, (c.handle turns k).Within
  text : ∀ turns, (c.handle turns k).ended = true → ∃ q', (c.handle turns k).ring.Holds q' ∧
    (EraseKey k → ∃ gone, q = q' ++ gone ∧ charNewline ∉ gone)

section

variable {c : Console} {q : List UInt8} {k : UInt8} {t : Nat}

/-! ### The branches of the handler -/

theorem Console.handle_back (hk : k = keyBs ∨ k = keyBsh) : c.handle t k =
    if c.lastWrittenCharIndex ≠ -1 then
      if c.byteAt (c.lastWrittenCharIndex - 1) ≠ charReturn then
        ((⟨c, [], true⟩ : Handling).touch (c.lastWrittenCharIndex - 1)).deleteLast
      else (⟨c, [], true⟩ : Handling).touch (c.lastWrittenCharIndex - 1)
    else ⟨c, [], true⟩ := by
  rcases hk with rfl | rfl <;> rfl

theorem Console.handle_line : c.handle t keyDl = (⟨c, [], true⟩ : Handling).eraseWhile (· ≠ charReturn) false t := rfl

/-- The other keys put characters in the ring or do nothing. -/
theorem Console.handle_other (hk : ¬ EraseKey k) : (∃ x, x ≠ charReturn ∧ c.handle t k = (⟨c, [], true⟩ : Handling).kaddtobuffer x) ∨
    (∃ n, c.handle t k = (⟨c, [], true⟩ : Handling).addSpaces n) ∨ c.handle t k = ⟨c, [], true⟩ := by
  have hback : ¬ (k = keyBs ∨ k = keyBsh) := fun h => hk (by rcases h with h | h <;> simp [EraseKey, h])
  have hline : k ≠ keyDl := fun h => hk (by simp [EraseKey, h])
  have hword : k ≠ keyDw := fun h => hk (by simp [EraseKey, h])
  simp only [Console.handle, if_neg hback, if_neg hline, if_neg hword]
  split_ifs with h1 h2 h3 h4
  · refine .inl ⟨k, ?_, rfl⟩
    rintro rfl
    exact absurd h1 (by decide)
  · exact .inr (.inl ⟨_, rfl⟩)
  · refine .inl ⟨k, ?_, rfl⟩
    rw [h3]
    decide
  · exact .inl ⟨charNewline, by decide, rfl⟩
  · exact .inr (.inr rfl)

/-! ### The condition is enough -/

theorem within_nil : (⟨c, [], true⟩ : Handling).Within := fun i hi => by cases hi

/-- What the handler leaves when it is careful. -/
structure Edits (q : List UInt8) (k : UInt8) (h : Handling) : Prop where
  within : h.Within
  text : h.ended = true → ∃ q', h.ring.Tidy q' ∧ (EraseKey k → ∃ gone, q = q' ++ gone ∧ charNewline ∉ gone)

theorem Edits.same (h : c.Tidy q) : Edits q k ⟨c, [], true⟩ :=
  ⟨within_nil, fun _ => ⟨q, h, fun _ => ⟨[], by simp, by simp⟩⟩⟩

theorem edits_empty (h : c.Tidy q) {p : UInt8 → Bool} {b : Bool} (hl : c.lastWrittenCharIndex = -1) :
    Edits q k ((⟨c, [], true⟩ : Handling).eraseWhile p b t) := by
  cases t with
  | zero => exact ⟨within_nil (c := c), fun he => by cases he⟩
  | succ n =>
    rw [Handling.eraseWhile_empty hl (Nat.succ_pos n)]
    exact .same h

theorem edits_word_empty (h : c.Tidy q) (hl : c.lastWrittenCharIndex = -1) : Edits q keyDw (c.handle t keyDw) := by
  have hfirst := edits_empty (k := keyDw) (p := (· = charSpace)) (b := !c.echo) (t := t) h hl
  rw [Console.handle_word]
  cases t with
  | zero => exact hfirst
  | succ n =>
    rw [Handling.eraseWhile_empty (h := ⟨c, [], true⟩) hl (Nat.succ_pos n), if_pos rfl]
    exact edits_empty h hl

theorem edits_back (h : c.Tidy q) (hk : k = keyBs ∨ k = keyBsh) (hc : Careful c k) : Edits q k (c.handle t k) := by
  rw [Console.handle_back hk]
  have hrange := h.holds.last_range
  rcases hc.last hk with hl | ⟨hl, hne, hnl⟩
  · rw [if_neg (not_not.2 hl)]
    exact .same h
  · obtain ⟨m, hm⟩ : ∃ m : Nat, c.lastWrittenCharIndex - 1 = m := ⟨(c.lastWrittenCharIndex - 1).toNat, by omega⟩
    have hreturn : c.byteAt (c.lastWrittenCharIndex - 1) ≠ charReturn := by
      rw [hm, Console.byteAt_natCast]
      exact h.noReturn m
    rw [if_pos (by omega), if_pos hreturn]
    obtain ⟨htidy, hq⟩ := h.deleteLast hl hne
    constructor
    · apply Handling.Within.touch
      · exact within_nil.touch (by omega) (by omega)
      · show 0 ≤ c.lastWrittenCharIndex
        omega
      · exact hrange.2
    · exact fun _ => ⟨q.dropLast, htidy, fun _ => ⟨_, hq, by simpa using hnl.symm⟩⟩

theorem edits_word (h : c.Tidy q) (he : c.echo = true) (hw : c.WordBefore) : Edits q keyDw (c.handle t keyDw) := by
  obtain ⟨a, b, m, hm, hab, hbm, hsp, hword, hspaces, hnl⟩ := hw
  have hrange := h.holds.last_range
  rw [Console.handle_word, he, Bool.not_true]
  -- the spaces before the last character, but for the first
  obtain ⟨l, htouched, hl, hrun, hlate⟩ := Handling.eraseWhile_stop (h := ⟨c, [], true⟩) (p := (· = charSpace)) (t := t)
    (m := m) (n := m - b) hm (by omega)
    (fun j hj => by
      have hcell : (m : Int) - 1 - j = (m - 1 - j : Nat) := by omega
      rw [hcell, Console.byteAt_natCast, hspaces _ (by omega) (by omega)]
      rfl)
    (by
      have hcell : (m : Int) - 1 - (m - b : Nat) = (b - 1 : Nat) := by omega
      rw [hcell, Console.byteAt_natCast]
      simpa using hword (b - 1) (by omega) (by omega))
  have hwithin : ((⟨c, [], true⟩ : Handling).eraseWhile (· = charSpace) false t).Within := by
    intro i hi
    rw [htouched] at hi
    have := hl i (by simpa using hi)
    omega
  by_cases hlt : m - b < t
  · rw [hrun hlt] at hwithin ⊢
    rw [if_pos rfl]
    dsimp only
    rw [Console.erase_echo, he, Bool.not_true]
    -- that space and the word, but for its first letter
    have hsame : ∀ i : Nat, i < b → (c.erase (m - b)).byteAt i = c.buffer i := by
      intro i hi
      rw [Console.byteAt_erase (by omega), Console.byteAt_natCast]
    obtain ⟨l', htouched', hl', hrun', hlate'⟩ := Handling.eraseWhile_stop (h := ⟨c.erase (m - b), [] ++ l, true⟩)
      (p := (· ≠ charSpace)) (t := t) (m := b) (n := b - (a + 1)) (by rw [Console.erase_last]; omega) (by omega)
      (fun j hj => by
        have hcell : (b : Int) - 1 - j = (b - 1 - j : Nat) := by omega
        dsimp only
        rw [hcell, hsame _ (by omega)]
        simpa using hword (b - 1 - j) (by omega) (by omega))
      (by
        have hcell : (b : Int) - 1 - (b - (a + 1) : Nat) = (a : Nat) := by omega
        dsimp only
        rw [hcell, hsame _ (by omega), hsp]
        rfl)
    constructor
    · intro i hi
      rw [htouched'] at hi
      rcases List.mem_append.1 hi with hi | hi
      · exact hwithin i hi
      · have := hl' i hi
        omega
    · intro hend
      have hlt' : b - (a + 1) < t := by
        by_contra hge
        rw [hlate' (by omega)] at hend
        cases hend
      rw [hrun' hlt']
      dsimp only
      rw [Console.erase_add, show b - (a + 1) + (m - b) = m - (a + 1) by omega]
      obtain ⟨q', htidy, hq⟩ := h.erase (n := m - (a + 1)) (a := a) (by omega) hsp
      refine ⟨q', htidy, fun _ => ⟨_, hq, ?_⟩⟩
      rw [List.mem_map]
      rintro ⟨i, hi, heq⟩
      obtain ⟨hge, hlt⟩ := List.mem_range'_1.1 hi
      exact hnl i (by omega) (by omega) heq
  · have hend := hlate (by omega)
    rw [if_neg (by rw [hend]; simp)]
    exact ⟨hwithin, fun he => by rw [hend] at he; cases he⟩

theorem edits_silent (h : c.Tidy q) (he : c.echo = false) (hc : Careful c keyDw) : Edits q keyDw (c.handle t keyDw) := by
  by_cases hl : c.lastWrittenCharIndex = -1
  · exact edits_word_empty h hl
  · -- the loops look at the cell before the last character, and do not end
    have hrange := h.holds.last_range
    have hpos := hc.silent rfl he
    rw [Console.handle_word, he, Bool.not_false]
    obtain ⟨hring, htouched⟩ := Handling.eraseWhile_keeps (h := ⟨c, [], true⟩) (p := (· = charSpace)) (t := t)
    have hfirst : ((⟨c, [], true⟩ : Handling).eraseWhile (· = charSpace) true t).Within := by
      intro i hi
      rcases htouched i hi with hi | ⟨-, rfl⟩
      · cases hi
      · dsimp only
        omega
    by_cases hend : ((⟨c, [], true⟩ : Handling).eraseWhile (· = charSpace) true t).ended = true
    · rw [if_pos hend, hring, he, Bool.not_false]
      obtain ⟨hring', htouched'⟩ := Handling.eraseWhile_keeps
        (h := (⟨c, [], true⟩ : Handling).eraseWhile (· = charSpace) true t) (p := (· ≠ charSpace)) (t := t)
      constructor
      · intro i hi
        rcases htouched' i hi with hi | ⟨-, rfl⟩
        · exact hfirst i hi
        · rw [hring]
          dsimp only
          omega
      · intro _
        refine ⟨q, ?_, fun _ => ⟨[], by simp, by simp⟩⟩
        rw [hring', hring]
        exact h
    · rw [if_neg hend]
      exact ⟨hfirst, fun he => absurd he hend⟩

/-- A careful handler erases what it should. -/
theorem Console.Tidy.edits (h : c.Tidy q) (hc : Careful c k) : Edits q k (c.handle t k) := by
  by_cases hk : EraseKey k
  · rcases hk with rfl | rfl | rfl | rfl
    · exact edits_back h (.inl rfl) hc
    · exact edits_back h (.inr rfl) hc
    · rw [Console.handle_line]
      exact edits_empty h (hc.line rfl)
    · by_cases he : c.echo = true
      · rcases hc.word rfl he with hl | hw
        · exact edits_word_empty h hl
        · exact edits_word h he hw
      · exact edits_silent h (by simpa using he) hc
  · rcases c.handle_other (t := t) hk with ⟨x, hx, heq⟩ | ⟨n, heq⟩ | heq
    · rw [heq]
      refine ⟨within_nil.kaddtobuffer h.holds, fun _ => ⟨typed x q, ?_, fun hk' => absurd hk' hk⟩⟩
      rw [Handling.kaddtobuffer_ring]
      exact h.kaddtobuffer hx
    · rw [heq]
      obtain ⟨hw, q', hq'⟩ := Handling.addSpaces_tidy (h := ⟨c, [], true⟩) (n := n) within_nil h
      exact ⟨hw, fun _ => ⟨q', hq', fun hk' => absurd hk' hk⟩⟩
    · rw [heq]
      exact .same h

/-! ### The condition is needed -/

/-- Everybody down to the first satisfies `p`, or somebody is the first who does not. -/
theorem exists_stop (p : Nat → Bool) (m : Nat) : (∀ j < m, p j = true) ∨ ∃ n < m, p n = false ∧ ∀ j < n, p j = true := by
  induction m with
  | zero => exact .inl fun j hj => absurd hj (Nat.not_lt_zero j)
  | succ m ih =>
    rcases ih with hall | ⟨n, hn, hp, hbefore⟩
    · cases hm : p m with
      | true =>
        left
        intro j hj
        rcases Nat.lt_succ_iff_lt_or_eq.1 hj with hj | rfl
        · exact hall j hj
        · exact hm
      | false => exact .inr ⟨m, Nat.lt_succ_self m, hm, hall⟩
    · exact .inr ⟨n, Nat.lt_succ_of_lt hn, hp, hbefore⟩

/-- The last character is at a cell. -/
theorem Console.Tidy.last_cell (h : c.Tidy q) (hl : c.lastWrittenCharIndex ≠ -1) :
    ∃ m : Nat, c.lastWrittenCharIndex = m ∧ m < bufferSize := by
  have hrange := h.holds.last_range
  exact ⟨c.lastWrittenCharIndex.toNat, by omega, by omega⟩

theorem EditsLine.line (h : c.Tidy q) (hs : EditsLine c q keyDl) : c.lastWrittenCharIndex = -1 := by
  by_contra hl
  obtain ⟨m, hm, -⟩ := h.last_cell hl
  -- no cell has a carriage return, so the loop goes down to the first cell
  have hfalls := Handling.eraseWhile_falls (h := ⟨c, [], true⟩) (p := (· ≠ charReturn)) (t := m + 1) hm
    (fun j hj => by
      have hcell : (m : Int) - 1 - j = (m - 1 - j : Nat) := by omega
      rw [hcell, Console.byteAt_natCast]
      simpa using h.noReturn (m - 1 - j)) (Nat.lt_succ_self m)
  have := hs.within (m + 1) (-1) (by rw [Console.handle_line]; exact hfalls)
  omega

theorem EditsLine.back (h : c.Tidy q) (hk : k = keyBs ∨ k = keyBsh) (hs : EditsLine c q k) : c.lastWrittenCharIndex = -1 ∨
    1 ≤ c.lastWrittenCharIndex ∧ c.lastWrittenCharIndex ≠ c.startOfBufferIndex ∧
      c.byteAt c.lastWrittenCharIndex ≠ charNewline := by
  by_cases hl : c.lastWrittenCharIndex = -1
  · exact .inl hl
  right
  obtain ⟨m, hm, hb⟩ := h.last_cell hl
  have hpos : 1 ≤ c.lastWrittenCharIndex := by
    have hmem : c.lastWrittenCharIndex - 1 ∈ (c.handle 0 k).touched := by
      rw [Console.handle_back hk, if_pos hl]
      split_ifs <;> simp
    have := hs.within 0 _ hmem
    omega
  have hreturn : c.byteAt (c.lastWrittenCharIndex - 1) ≠ charReturn := by
    have hcell : c.lastWrittenCharIndex - 1 = (m - 1 : Nat) := by omega
    rw [hcell, Console.byteAt_natCast]
    exact h.noReturn (m - 1)
  have hhandle : c.handle 0 k = ((⟨c, [], true⟩ : Handling).touch (c.lastWrittenCharIndex - 1)).deleteLast := by
    rw [Console.handle_back hk, if_pos hl, if_pos hreturn]
  obtain ⟨q', hq', hgone⟩ := hs.text 0 (by rw [hhandle]; rfl)
  have herase : EraseKey k := by
    rcases hk with rfl | rfl
    · exact .inl rfl
    · exact .inr (.inl rfl)
  obtain ⟨gone, hq, hnl⟩ := hgone herase
  rw [hhandle] at hq'
  have hq' : c.deleteLast.Holds q' := hq'
  have hne : c.lastWrittenCharIndex ≠ c.startOfBufferIndex := by
    intro heq
    -- the only character was erased, and the index before it is taken for the last of a full ring
    have hone : q.length = 1 := by
      cases h.holds with
      | empty hl' _ => omega
      | @chars _ start n hlen hn hs hst hl' _ =>
        unfold bufferSize at *
        omega
    have hlen : q'.length ≤ 1 := by
      have := congrArg List.length hq
      rw [List.length_append] at this
      omega
    cases hq' with
    | empty hl' _ =>
      rw [Console.deleteLast_last] at hl'
      omega
    | @chars _ start n hlen' hn hs hst hl' _ =>
      rw [Console.deleteLast_last] at hl'
      rw [Console.deleteLast_start] at hst
      unfold bufferSize at *
      omega
  refine ⟨hpos, hne, ?_⟩
  obtain ⟨htidy, hsplit⟩ := h.deleteLast hpos hne
  obtain rfl := hq'.unique htidy.holds
  obtain rfl := List.append_cancel_left (hq.symm.trans hsplit)
  simpa using fun heq => hnl (by simp [heq])

theorem EditsLine.silent (he : c.echo = false) (hs : EditsLine c q keyDw) : c.lastWrittenCharIndex ≠ 0 := by
  intro hl
  have hfirst := Handling.eraseWhile_touches (h := ⟨c, [], true⟩) (p := (· = charSpace)) (b := true) (t := 1)
    (by dsimp only; omega) Nat.one_pos
  have hmem : c.lastWrittenCharIndex - 1 ∈ (c.handle 1 keyDw).touched := by
    rw [Console.handle_word, he, Bool.not_false]
    split_ifs
    · exact Handling.touched_eraseWhile hfirst
    · exact hfirst
  have := hs.within 1 _ hmem
  omega

theorem EditsLine.word (h : c.Tidy q) (he : c.echo = true) (hs : EditsLine c q keyDw) :
    c.lastWrittenCharIndex = -1 ∨ c.WordBefore := by
  by_cases hl : c.lastWrittenCharIndex = -1
  · exact .inl hl
  right
  obtain ⟨m, hm, hb⟩ := h.last_cell hl
  have hwithin := hs.within bufferSize
  have htext := hs.text bufferSize
  rw [Console.handle_word, he, Bool.not_true] at hwithin htext
  have hfirstIn : ∀ i ∈ ((⟨c, [], true⟩ : Handling).eraseWhile (· = charSpace) false bufferSize).touched, 0 ≤ i := by
    intro i hi
    split_ifs at hwithin
    · exact (hwithin i (Handling.touched_eraseWhile hi)).1
    · exact (hwithin i hi).1
  -- the first loop stops in front of a character that is no space
  obtain hall | ⟨n, hn, hstop, hbefore⟩ := exists_stop (fun j => decide (c.byteAt (m - 1 - j) = charSpace)) m
  · have := hfirstIn (-1) (Handling.eraseWhile_falls hm hall hb)
    omega
  obtain ⟨l, -, -, hrun, -⟩ := Handling.eraseWhile_stop (h := ⟨c, [], true⟩) (p := (· = charSpace)) (t := bufferSize)
    hm hn hbefore hstop
  rw [hrun (by omega), if_pos rfl] at hwithin htext
  dsimp only at hwithin htext
  rw [Console.erase_echo, he, Bool.not_true] at hwithin htext
  have hlast : (c.erase n).lastWrittenCharIndex = (m - n : Nat) := by
    rw [Console.erase_last]
    omega
  have hsame : ∀ j : Nat, (c.erase n).byteAt ((m - n : Nat) - 1 - j) = c.byteAt ((m - n : Nat) - 1 - j) := by
    intro j
    rw [Console.byteAt_erase (by omega)]
  -- the second one stops behind a space
  obtain hall | ⟨n', hn', hstop', hbefore'⟩ := exists_stop
    (fun j => decide ((c.erase n).byteAt ((m - n : Nat) - 1 - j) ≠ charSpace)) (m - n)
  · have := (hwithin (-1) (Handling.eraseWhile_falls hlast hall (by omega))).1
    omega
  obtain ⟨l', -, -, hrun', -⟩ := Handling.eraseWhile_stop (h := ⟨c.erase n, [] ++ l, true⟩) (p := (· ≠ charSpace))
    (t := bufferSize) hlast hn' hbefore' hstop'
  rw [hrun' (by omega)] at htext
  obtain ⟨q', hq', hgone⟩ := htext rfl
  obtain ⟨gone, hq, hnl⟩ := hgone (.inr (.inr (.inr rfl)))
  have hcell : ∀ j : Nat, j < m → c.byteAt (m - 1 - j) = c.buffer (m - 1 - j) := by
    intro j hj
    rw [← Console.byteAt_natCast]
    congr 1
    omega
  have hcell' : ∀ j : Nat, j < m - n → (c.erase n).byteAt ((m - n : Nat) - 1 - j) = c.buffer (m - n - 1 - j) := by
    intro j hj
    rw [hsame, ← Console.byteAt_natCast]
    congr 1
    omega
  have hspaces : ∀ j < n, c.buffer (m - 1 - j) = charSpace := by
    intro j hj
    rw [← hcell j (by omega)]
    simpa using hbefore j hj
  have hword : ∀ j < n', c.buffer (m - n - 1 - j) ≠ charSpace := by
    intro j hj
    rw [← hcell' j (by omega)]
    simpa using hbefore' j hj
  have hspace : c.buffer (m - n - 1 - n') = charSpace := by
    rw [← hcell' n' hn']
    simpa using hstop'
  -- the second loop takes a turn at least
  have hone : n' ≠ 0 := by
    rintro rfl
    rw [hcell n hn] at hstop
    have heq : m - n - 1 - 0 = m - 1 - n := by omega
    rw [heq] at hspace
    simp [hspace] at hstop
  refine ⟨m - n - 1 - n', m - n, m, hm, by omega, by omega, hspace, fun i hi hib => ?_, fun i hi him => ?_, fun i hi him => ?_⟩
  · have := hword (m - n - 1 - i) (by omega)
    rwa [show m - n - 1 - (m - n - 1 - i) = i by omega] at this
  · have := hspaces (m - 1 - i) (by omega)
    rwa [show m - 1 - (m - 1 - i) = i by omega] at this
  · obtain ⟨q₁, htidy, hsplit⟩ := h.erase (n := n' + n) (a := m - n - 1 - n') (by omega) hspace
    dsimp only at hq'
    rw [Console.erase_add] at hq'
    obtain rfl := hq'.unique htidy.holds
    obtain rfl := List.append_cancel_left (hq.symm.trans hsplit)
    intro hi'
    apply hnl
    rw [← hi']
    exact List.mem_map_of_mem (List.mem_range'_1.2 ⟨by omega, by omega⟩)

theorem Console.Tidy.careful (h : c.Tidy q) (hs : EditsLine c q k) : Careful c k where
  last hk := EditsLine.back h hk hs
  line hk := by
    subst hk
    exact EditsLine.line h hs
  word hk he := by
    subst hk
    exact EditsLine.word h he hs
  silent hk he := by
    subst hk
    exact EditsLine.silent he hs

end

/-! ## `copy` -/

section

variable {c c' : Console} {q : List UInt8} {length : Nat}

/-- The spaces are in the cells from `start` on, `n` at most, and no cell has a carriage return. -/
structure Clean (buf : Nat → UInt8) (start n : Nat) : Prop where
  noReturn : ∀ i, buf i ≠ charReturn
  blank : ∀ i < bufferSize, buf i = charSpace → ∃ j < n, i = (start + j) % bufferSize

/-- A cell is cleared. -/
theorem Clean.clear {buf : Nat → UInt8} {start n i : Nat} (h : Clean buf start n) : Clean (Function.update buf i 0) start n := by
  constructor
  · intro j
    by_cases hj : j = i
    · rw [hj, Function.update_self]
      decide
    · rw [Function.update_of_ne hj]
      exact h.noReturn j
  · intro j hb hsp
    by_cases hj : j = i
    · rw [hj, Function.update_self] at hsp
      cases hsp
    · rw [Function.update_of_ne hj] at hsp
      exact h.blank j hb hsp

/-- The first cell has no space, so the others start after it. -/
theorem Clean.next {buf : Nat → UInt8} {start n : Nat} (h : Clean buf start (n + 1)) (hs : start < bufferSize)
    (hne : buf start ≠ charSpace) : Clean buf ((start + 1) % bufferSize) n := by
  refine ⟨h.noReturn, fun i hi hsp => ?_⟩
  obtain ⟨j, hj, rfl⟩ := h.blank i hi hsp
  cases j with
  | zero =>
    rw [Nat.add_zero, Nat.mod_eq_of_lt hs] at hsp
    exact absurd hsp hne
  | succ j =>
    refine ⟨j, by omega, ?_⟩
    rw [Nat.mod_add_mod]
    congr 1
    omega

/-- The loop of `copy` clears the cells it takes. -/
theorem copyWalk_clean {last : Int} {temp temp' m fuel room : Nat} {buf buf' : Nat → UInt8} {out out' : List UInt8}
    (ht : temp < bufferSize) (hl : last = ((temp + m) % bufferSize : Nat)) (hclean : Clean buf temp (m + 1))
    (h : Console.copyWalk last fuel room temp buf out = some (buf', out', temp')) :
    ∃ m' ≤ m, temp' < bufferSize ∧ last = ((temp' + m') % bufferSize : Nat) ∧ Clean buf' temp' (m' + 1) ∧
      (out'.length = out.length + room ∨ buf' temp' = charNewline ∨ (temp' : Int) = last) := by
  induction fuel generalizing temp m room buf out with
  | zero => cases h
  | succ fuel ih =>
    rw [Console.copyWalk] at h
    by_cases hgo : 0 < room ∧ buf temp ≠ charNewline ∧ (temp : Int) ≠ last
    · rw [if_pos hgo] at h
      obtain ⟨m, rfl⟩ : ∃ k, m = k + 1 := by
        refine ⟨m - 1, ?_⟩
        have hm : m ≠ 0 := by
          rintro rfl
          apply hgo.2.2
          rw [hl, Nat.add_zero, Nat.mod_eq_of_lt ht]
        omega
      have hnext : Clean (Function.update buf temp 0) ((temp + 1) % bufferSize) (m + 1) :=
        hclean.clear.next ht (by rw [Function.update_self]; decide)
      obtain ⟨m', hm', ht', hl', hclean', hexit⟩ := ih (Nat.mod_lt _ (by decide)) (by rw [hl, window_end]) hnext h
      refine ⟨m', by omega, ht', hl', hclean', ?_⟩
      rcases hexit with hlen | hexit
      · left
        rw [hlen, List.length_append, List.length_singleton]
        omega
      · exact .inr hexit
    · rw [if_neg hgo] at h
      simp only [Option.some.injEq, Prod.mk.injEq] at h
      obtain ⟨rfl, rfl, rfl⟩ := h
      refine ⟨m, le_rfl, ht, hl, hclean, ?_⟩
      by_cases hroom : room = 0
      · exact .inl (by omega)
      · by_cases hnl : buf temp = charNewline
        · exact .inr (.inl hnl)
        · right
          right
          by_contra hne
          exact hgo ⟨by omega, hnl, hne⟩

theorem Console.Tidy.clean (h : c.Tidy q) : Clean c.buffer c.startOfBufferIndex.toNat q.length := ⟨h.noReturn, h.blank⟩

theorem Clean.tidy (hq : c.Holds q) (h : Clean c.buffer c.startOfBufferIndex.toNat q.length) : c.Tidy q :=
  ⟨hq, h.noReturn, h.blank⟩

/-- What is read leaves no spaces behind. -/
theorem Console.Tidy.copy (h : c.Tidy q) (hq : q ≠ []) {out : List UInt8} (hc : c.copy length = some (c', out)) :
    ∃ q', c'.Tidy q' := by
  obtain ⟨c₁, hcopy, hholds⟩ := h.holds.copy hq length
  rw [hc] at hcopy
  obtain ⟨rfl, -⟩ := Prod.mk.inj (Option.some.inj hcopy)
  have hclean := h.clean
  cases h.holds with
  | empty _ _ => exact absurd rfl hq
  | @chars _ start n hlen hn hs hst hl hw =>
    rw [hst, Int.toNat_natCast, hlen] at hclean
    rw [Console.copy_eq, hst, Int.toNat_natCast] at hc
    obtain ⟨⟨buf, taken, temp⟩, hwalk, hend⟩ := Option.map_eq_some_iff.1 hc
    obtain ⟨m, hm, ht, hl', hclean', hexit⟩ := copyWalk_clean hs hl hclean hwalk
    have hc' : c' = (c.copyEnd length buf taken temp).1 := (congrArg Prod.fst hend).symm
    refine ⟨_, Clean.tidy hholds ?_⟩
    rw [hc', Console.copyEnd] at hholds ⊢
    by_cases henough : taken.length ≥ length
    · rw [if_pos henough] at hholds ⊢
      have hrest := hholds.unique (.chars length_window (by omega) ht rfl hl' rfl)
      rw [hrest, length_window]
      exact hclean'
    rw [if_neg henough] at hholds ⊢
    by_cases hlast : (temp : Int) = c.lastWrittenCharIndex
    · -- the last character: the ring is empty afterwards
      obtain rfl : m = 0 := by
        unfold bufferSize at *
        omega
      have hempty : ∀ buf' : Nat → UInt8, (∀ i, buf' i ≠ charReturn) → (∀ i < bufferSize, buf' i = charSpace → i ≠ temp ∧ buf i = charSpace) →
          Clean buf' 0 0 := by
        intro buf' hreturn hsp
        refine ⟨hreturn, fun i hi heq => ?_⟩
        obtain ⟨hne, hbuf⟩ := hsp i hi heq
        obtain ⟨j, hj, hij⟩ := hclean'.blank i hi hbuf
        obtain rfl : j = 0 := by omega
        rw [Nat.add_zero, Nat.mod_eq_of_lt ht] at hij
        exact absurd hij hne
      by_cases hnl : buf temp = charNewline
      · rw [if_neg fun h => h.2 hnl, if_pos ⟨hlast, hnl⟩] at hholds ⊢
        have hrest := hholds.unique (.empty rfl rfl)
        rw [hrest]
        refine hempty buf hclean'.noReturn fun i hi hsp => ⟨?_, hsp⟩
        rintro rfl
        rw [hnl] at hsp
        cases hsp
      · rw [if_pos ⟨hlast, hnl⟩] at hholds ⊢
        have hrest := hholds.unique (.empty rfl rfl)
        rw [hrest]
        refine hempty (Function.update buf temp 0) hclean'.clear.noReturn fun i hi hsp => ?_
        by_cases hi : i = temp
        · rw [hi, Function.update_self] at hsp
          cases hsp
        · rw [Function.update_of_ne hi] at hsp
          exact ⟨hi, hsp⟩
    · -- a newline with characters behind it
      obtain ⟨m, rfl⟩ : ∃ k, m = k + 1 := by
        refine ⟨m - 1, ?_⟩
        have hm0 : m ≠ 0 := by
          rintro rfl
          apply hlast
          rw [hl', Nat.add_zero, Nat.mod_eq_of_lt ht]
        omega
      have hnl : buf temp = charNewline := by
        rcases hexit with hlen' | hnl | heq
        · rw [List.length_nil] at hlen'
          omega
        · exact hnl
        · exact absurd heq hlast
      rw [if_neg fun h => hlast h.1, if_neg fun h => hlast h.1, if_pos hnl] at hholds ⊢
      have hrest := hholds.unique (.chars length_window (show m < bufferSize by omega) (Nat.mod_lt _ (by decide)) rfl
        (by rw [hl', window_end]) rfl)
      rw [hrest, length_window]
      exact hclean'.clear.next ht (by rw [Function.update_self]; decide)

end

end Xinul
