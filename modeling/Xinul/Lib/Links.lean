import Xinul.Lib.Seg

/-!
# Circular doubly linked lists

A cell has a `next` and a `prev` pointer. From the cell `b` the pointers `next` lead
through the cells `l` back to `b`, and the pointers `prev` lead through the same cells
the other way: `Ring` is the first half read twice, once on each pointer. So an edit
of a ring is an edit of a loop and the same edit of its mirror.
-/

namespace Linked

variable {α : Type} {next prev : α → Option α} {a c : Option α} {b d e : α} {l l' u v : List α}

/-- From `b` the pointers lead through the cells `l` back to `b`. -/
def Loop (next : α → Option α) (b : α) (l : List α) : Prop := Seg next (next b) l (some b)

/-- The circular list of the cells `l` after the cell `b`. -/
structure Ring (next prev : α → Option α) (b : α) (l : List α) : Prop where
  forth : Loop next b l
  back : Loop prev b l.reverse

theorem ring_nil : Ring next prev b [] ↔ next b = some b ∧ prev b = some b :=
  ⟨fun h => ⟨h.forth, h.back⟩, fun h => ⟨h.1, h.2⟩⟩

/-- The same list met the other way. -/
theorem Ring.mirror (h : Ring next prev b l) : Ring prev next b l.reverse :=
  ⟨h.back, by rw [List.reverse_reverse]; exact h.forth⟩

/-- Two walks from one pointer that end at the first cell of a kind are the same walk. -/
theorem Seg.same_end {E : α → Prop} (h : Seg next a l (some b)) (h' : Seg next a l' (some d)) (hb : E b) (hd : E d)
    (hl : ∀ y ∈ l, ¬ E y) (hl' : ∀ y ∈ l', ¬ E y) : l = l' ∧ b = d := by
  induction l generalizing a l' with
  | nil =>
    cases l' with
    | nil =>
      rw [seg_nil] at h h'
      exact ⟨rfl, Option.some.inj (h.symm.trans h')⟩
    | cons y l' =>
      rw [seg_nil] at h
      obtain rfl : b = y := Option.some.inj (h.symm.trans h'.1)
      exact absurd hb (hl' b List.mem_cons_self)
  | cons x l ih =>
    obtain ⟨rfl, hs⟩ := h
    cases l' with
    | nil =>
      rw [seg_nil] at h'
      cases h'
      exact absurd hd (hl _ List.mem_cons_self)
    | cons y l' =>
      obtain ⟨hy, hs'⟩ := h'
      cases hy
      obtain ⟨rfl, rfl⟩ := ih hs hs' (fun z hz => hl z (by simp [hz])) (fun z hz => hl' z (by simp [hz]))
      exact ⟨rfl, rfl⟩

/-- A walk that ends does not come back to a cell. -/
theorem Seg.nodup_of_not_mem (h : Seg next a l (some b)) (hb : b ∉ l) : l.Nodup := by
  induction l generalizing a with
  | nil => exact List.nodup_nil
  | cons x l ih =>
    have hb' : b ∉ l := fun hm => hb (by simp [hm])
    refine List.nodup_cons.2 ⟨fun hx => ?_, ih h.2 hb'⟩
    -- the walks from the two places of `x` are one walk, but the first is longer
    obtain ⟨k, k', rfl⟩ := List.append_of_mem hx
    have hk : ∀ y ∈ k', y ≠ b := fun y hy hyb => hb' (by simp [← hyb, hy])
    have hk' : ∀ y ∈ k ++ x :: k', y ≠ b := fun y hy hyb => hb' (hyb ▸ hy)
    obtain ⟨_, _, _, htail⟩ := seg_append.1 h.2
    have := congrArg List.length (h.2.same_end (E := (· = b)) htail rfl rfl hk' hk).1
    simp at this
    omega

theorem Loop.nodup (h : Loop next b l) (hb : b ∉ l) : (b :: l).Nodup :=
  List.nodup_cons.2 ⟨hb, Seg.nodup_of_not_mem h hb⟩

theorem loop_iff : Loop next b l ↔ Seg next (some b) (b :: l) (some b) := by
  rw [seg_cons, Loop]
  simp

/-! ## Edits -/

section edits

variable [DecidableEq α] {k k' : List α} {p q : α}

/-- A new cell `e` after the cell `p`. -/
theorem Seg.link (h : Seg next a (k ++ p :: v) c) (hnd : (k ++ p :: v).Nodup) (he : e ∉ k ++ p :: v) :
    Seg (Function.update (Function.update next e (next p)) p (some e)) a (k ++ p :: e :: v) c := by
  obtain ⟨_, hk, rfl, hv⟩ := seg_append.1 h
  rw [List.nodup_append, List.nodup_cons] at hnd
  obtain ⟨-, ⟨hpv, -⟩, hkp⟩ := hnd
  have hep : e ≠ p := fun heq => he (by simp [heq])
  have same : ∀ x, x ≠ p → x ≠ e → Function.update (Function.update next e (next p)) p (some e) x = next x := by
    intro x hxp hxe
    rw [Function.update_of_ne hxp, Function.update_of_ne hxe]
  refine seg_append.2 ⟨some p, hk.congr fun x hx => same x (hkp x hx p (by simp)) ?_, rfl, ?_⟩
  · rintro rfl
    exact he (by simp [hx])
  · rw [Function.update_self, seg_cons, Function.update_of_ne hep, Function.update_self]
    refine ⟨rfl, hv.congr fun x hx => same x ?_ ?_⟩
    · rintro rfl
      exact hpv hx
    · rintro rfl
      exact he (by simp [hx])

/-- The cell `e` after the cell `p` is left out. -/
theorem Seg.unlink (h : Seg next a (k ++ p :: e :: v) c) (hnd : (k ++ p :: e :: v).Nodup) :
    Seg (Function.update next p (next e)) a (k ++ p :: v) c := by
  obtain ⟨_, hk, rfl, _, hv⟩ := seg_append.1 h
  rw [List.nodup_append, List.nodup_cons] at hnd
  obtain ⟨-, ⟨hpv, -⟩, hkp⟩ := hnd
  refine seg_append.2 ⟨some p, hk.congr fun x hx => ?_, rfl, ?_⟩
  · exact Function.update_of_ne (hkp x hx p (by simp)) _ _
  · rw [Function.update_self]
    refine hv.congr fun x hx => Function.update_of_ne ?_ _ _
    rintro rfl
    exact hpv (by simp [hx])

/-- `p` is the cell before the cells `v` of the ring, `q` the one after the cells `u`. -/
structure Between (b : α) (u v : List α) (p q : α) : Prop where
  before : ∃ k, b :: u = k ++ [p]
  after : ∃ k, b :: v.reverse = k ++ [q]

omit [DecidableEq α] in
theorem Between.mirror (h : Between b u v p q) : Between b v.reverse u.reverse q p :=
  ⟨h.after, by rw [List.reverse_reverse]; exact h.before⟩

omit [DecidableEq α] in
theorem Between.exists (b : α) (u v : List α) : ∃ p q, Between b u v p q := by
  have last : ∀ l : List α, ∃ x k, b :: l = k ++ [x] := fun l =>
    ⟨(b :: l).getLast (by simp), (b :: l).dropLast, (List.dropLast_append_getLast _).symm⟩
  obtain ⟨p, k, hp⟩ := last u
  obtain ⟨q, k', hq⟩ := last v.reverse
  exact ⟨p, q, ⟨k, hp⟩, ⟨k', hq⟩⟩

omit [DecidableEq α] in
/-- The pointer `next` of the cell before. -/
theorem Loop.next_eq (h : Loop next b (u ++ v)) (hpq : Between b u v p q) : next p = some q := by
  obtain ⟨⟨k, hk⟩, k', hk'⟩ := hpq
  rw [loop_iff, ← List.cons_append, hk, List.append_assoc] at h
  obtain ⟨_, _, _, hv⟩ := seg_append.1 h
  cases v with
  | nil =>
    obtain ⟨-, rfl⟩ : k' = [] ∧ q = b := by
      cases k' with
      | nil => simpa using hk'.symm
      | cons y k' => simp at hk'
    exact hv
  | cons y v =>
    rw [List.reverse_cons, ← List.cons_append] at hk'
    obtain ⟨-, hy⟩ := List.append_inj' hk' rfl
    obtain rfl : y = q := by simpa using hy
    exact hv.1

omit [DecidableEq α] in
theorem Ring.next_eq (h : Ring next prev b (u ++ v)) (hpq : Between b u v p q) : next p = some q := h.forth.next_eq hpq

omit [DecidableEq α] in
theorem Ring.prev_eq (h : Ring next prev b (u ++ v)) (hpq : Between b u v p q) : prev q = some p := by
  have hback := h.back
  rw [List.reverse_append] at hback
  exact hback.next_eq hpq.mirror

theorem Loop.insert (h : Loop next b (u ++ v)) (hb : b ∉ u ++ v) (he : e ∉ b :: (u ++ v)) (hpq : Between b u v p q) :
    Loop (Function.update (Function.update next e (some q)) p (some e)) b (u ++ e :: v) := by
  have hnd := h.nodup hb
  have hq := h.next_eq hpq
  obtain ⟨⟨k, hk⟩, -⟩ := hpq
  rw [loop_iff] at h ⊢
  rw [← List.cons_append, hk, List.append_assoc] at h hnd he ⊢
  rw [← hq]
  exact Seg.link h hnd he

theorem Loop.remove (h : Loop next b (u ++ e :: v)) (hb : b ∉ u ++ e :: v) (hpq : Between b u v p q) :
    Loop (Function.update next p (some q)) b (u ++ v) := by
  have hnd := h.nodup hb
  have hq : next e = some q := by
    rw [show u ++ e :: v = (u ++ [e]) ++ v by simp] at h
    exact h.next_eq ⟨⟨b :: u, by simp⟩, hpq.after⟩
  obtain ⟨⟨k, hk⟩, -⟩ := hpq
  rw [loop_iff] at h ⊢
  rw [← List.cons_append, hk, List.append_assoc] at h hnd ⊢
  rw [← hq]
  exact Seg.unlink h hnd

/-- A new cell between two neighbours. -/
theorem Ring.insert (h : Ring next prev b (u ++ v)) (hb : b ∉ u ++ v) (he : e ∉ b :: (u ++ v)) (hpq : Between b u v p q) :
    Ring (Function.update (Function.update next e (some q)) p (some e))
      (Function.update (Function.update prev e (some p)) q (some e)) b (u ++ e :: v) := by
  refine ⟨h.forth.insert hb he hpq, ?_⟩
  have hback := h.back
  rw [List.reverse_append] at hback
  rw [List.reverse_append, List.reverse_cons, List.append_assoc]
  exact hback.insert (by simpa [and_comm] using hb) (by simpa [and_comm] using he) hpq.mirror

/-- A cell is left out. -/
theorem Ring.remove (h : Ring next prev b (u ++ e :: v)) (hb : b ∉ u ++ e :: v) (hpq : Between b u v p q) :
    Ring (Function.update next p (some q)) (Function.update prev q (some p)) b (u ++ v) := by
  refine ⟨h.forth.remove hb hpq, ?_⟩
  have hback := h.back
  rw [List.reverse_append, List.reverse_cons, List.append_assoc, List.singleton_append] at hback
  rw [List.reverse_append]
  refine hback.remove ?_ hpq.mirror
  simp only [List.mem_append, List.mem_cons, not_or, List.mem_reverse] at hb ⊢
  exact ⟨hb.2.2, hb.2.1, hb.1⟩

omit [DecidableEq α] in
/-- The two neighbours of a cell. -/
theorem Ring.neighbours (h : Ring next prev b (u ++ e :: v)) (hpq : Between b u v p q) : next e = some q ∧ prev e = some p := by
  constructor
  · rw [show u ++ e :: v = (u ++ [e]) ++ v by simp] at h
    exact h.next_eq ⟨⟨b :: u, by simp⟩, hpq.after⟩
  · refine h.prev_eq (u := u) (v := e :: v) ⟨hpq.before, ⟨b :: v.reverse, by simp⟩⟩

end edits

/-- A loop only reads the pointers of its cells. -/
theorem Loop.congr {next' : α → Option α} (h : Loop next b l) (heq : ∀ x ∈ b :: l, next' x = next x) : Loop next' b l := by
  rw [loop_iff] at h ⊢
  exact h.congr heq

/-- A ring only reads the pointers of its cells. -/
theorem Ring.congr {next' prev' : α → Option α} (h : Ring next prev b l) (hn : ∀ x ∈ b :: l, next' x = next x)
    (hp : ∀ x ∈ b :: l, prev' x = prev x) : Ring next' prev' b l :=
  ⟨h.forth.congr hn, h.back.congr fun x hx => hp x (by simpa using hx)⟩

end Linked
