import Xinul.Lib.Links
import Xinul.Lib.Insert
import Xinul.Kernel.Links

/-!
# What the links spell

The links spell the lists `L` when every head is the head of a ring through the
elements of its list, and the elements in no list have two null pointers. Every
operation of `queue.h` is one on lists: it returns what the lists say, fails its
assertion exactly when they say so, and leaves links that spell the new lists.
-/

namespace Xinul

namespace QueueH

open Prog Linked Waiting

variable {κ ε : Type}

/-- The links spell the lists. -/
structure Spells (m : Links κ ε) (L : κ → List ε) : Prop where
  ring : ∀ k, Ring m.next m.prev (.head k) ((L k).map .field)
  free : ∀ e, (∀ k, e ∉ L k) → m.next (.field e) = none ∧ m.prev (.field e) = none

/-- Every head points to itself, no element is chained. -/
def Links.unlinked : Links κ ε where
  prev := fun l => match l with
    | .head k => some (.head k)
    | .field _ => none
  next := fun l => match l with
    | .head k => some (.head k)
    | .field _ => none

theorem spells_unlinked : Spells (Links.unlinked : Links κ ε) fun _ => [] :=
  ⟨fun _ => ring_nil.2 ⟨rfl, rfl⟩, fun _ _ => ⟨rfl, rfl⟩⟩

section spells

variable {m : Links κ ε} {L : κ → List ε} {k k' : κ} {e : ε} {u v : List ε} {p q : LinkPtr κ ε}

@[simp] theorem head_not_mem_map : (LinkPtr.head k : LinkPtr κ ε) ∉ u.map .field := by simp

@[simp] theorem field_mem_map : (LinkPtr.field e : LinkPtr κ ε) ∈ u.map .field ↔ e ∈ u := by simp

/-- From an element of a list the links lead to the head of this list. -/
theorem Spells.walk (h : Spells m L) (hk : L k = u ++ e :: v) :
    Seg m.next (m.next (.field e)) (v.map .field) (some (.head k)) := by
  have hring := (h.ring k).forth
  rw [hk, List.map_append, List.map_cons] at hring
  obtain ⟨_, _, _, hv⟩ := seg_append.1 hring
  exact hv

theorem Spells.nodup (h : Spells m L) (k : κ) : (L k).Nodup :=
  (List.nodup_cons.1 ((h.ring k).forth.nodup head_not_mem_map)).2.of_map _

/-- An element is in one list at most. -/
theorem Spells.disjoint (h : Spells m L) (hk : e ∈ L k) (hk' : e ∈ L k') : k = k' := by
  obtain ⟨u, v, hu⟩ := List.append_of_mem hk
  obtain ⟨u', v', hu'⟩ := List.append_of_mem hk'
  have hend : ∀ w : List ε, ∀ l ∈ w.map (LinkPtr.field (κ := κ)), ¬ ∃ d, l = .head d := by
    intro w l hl
    obtain ⟨x, -, rfl⟩ := List.mem_map.1 hl
    rintro ⟨d, hd⟩
    cases hd
  have heads := ((h.walk hu).same_end (h.walk hu') ⟨k, rfl⟩ ⟨k', rfl⟩ (hend v) (hend v')).2
  exact LinkPtr.head.inj heads

/-- The links of an element in a list are not null. -/
theorem Spells.linked (h : Spells m L) (hk : e ∈ L k) : m.next (.field e) ≠ none ∧ m.prev (.field e) ≠ none := by
  obtain ⟨u, v, hu⟩ := List.append_of_mem hk
  have hring := h.ring k
  rw [hu, List.map_append, List.map_cons] at hring
  obtain ⟨p, q, hpq⟩ := Between.exists (LinkPtr.head k) (u.map .field) (v.map .field)
  obtain ⟨hn, hp⟩ := hring.neighbours hpq
  rw [hn, hp]
  exact ⟨by simp, by simp⟩

/-- An element is in a list exactly when its links are not null. -/
theorem Spells.null_iff (h : Spells m L) : (m.prev (.field e) = none ∧ m.next (.field e) = none) ↔ ∀ k, e ∉ L k :=
  ⟨fun hn _ hk => (h.linked hk).1 hn.2, fun hn => ⟨(h.free e hn).2, (h.free e hn).1⟩⟩

/-- A cell of the ring of another head. -/
theorem Spells.apart (h : Spells m L) (hk : L k = u ++ v) (hne : k' ≠ k) {l : LinkPtr κ ε}
    (hl : l ∈ .head k' :: (L k').map .field) (hpq : Between (.head k) (u.map .field) (v.map .field) p q) :
    l ≠ p ∧ l ≠ q := by
  have hmem : ∀ l, l ∈ .head k :: (L k).map .field → l ∉ .head k' :: (L k').map (LinkPtr.field (κ := κ)) := by
    rintro (d | x) hx hx'
    · simp only [List.mem_cons, LinkPtr.head.injEq, head_not_mem_map, or_false] at hx hx'
      exact hne (hx'.symm.trans hx)
    · simp only [List.mem_cons, reduceCtorEq, field_mem_map, false_or] at hx hx'
      exact hne (h.disjoint hx' hx)
  obtain ⟨⟨a, ha⟩, c, hc⟩ := hpq
  constructor
  · rintro rfl
    refine hmem l ?_ hl
    have : l ∈ LinkPtr.head k :: u.map .field := by
      rw [ha]
      simp
    rw [hk]
    simp only [List.mem_cons, List.map_append, List.mem_append] at this ⊢
    exact this.imp id .inl
  · rintro rfl
    refine hmem l ?_ hl
    have : l ∈ LinkPtr.head k :: (v.map .field).reverse := by
      rw [hc]
      simp
    rw [hk]
    simp only [List.mem_cons, List.mem_reverse, List.map_append, List.mem_append] at this ⊢
    exact this.imp id .inr

/-- The first link of the elements `v` followed by the head. -/
def cursor (k : κ) (v : List ε) : LinkPtr κ ε := (v.head?.map .field).getD (.head k)

@[simp] theorem cursor_nil : cursor k ([] : List ε) = .head k := rfl
@[simp] theorem cursor_cons : cursor k (e :: v) = .field e := rfl

theorem between_cursor (k : κ) (u v : List ε) :
    Between (LinkPtr.head k) (u.map .field) (v.map .field) (cursor k u.reverse) (cursor k v) := by
  have last : ∀ w : List ε, ∃ a, LinkPtr.head k :: (w.reverse.map LinkPtr.field) = a ++ [cursor k w] := by
    intro w
    cases w with
    | nil => exact ⟨[], rfl⟩
    | cons e w => exact ⟨.head k :: w.reverse.map .field, by simp⟩
  constructor
  · obtain ⟨a, ha⟩ := last u.reverse
    exact ⟨a, by rwa [List.reverse_reverse] at ha⟩
  · obtain ⟨a, ha⟩ := last v
    exact ⟨a, by rwa [← List.map_reverse]⟩

theorem Spells.next_head (h : Spells m L) : m.next (.head k) = some (cursor k (L k)) :=
  (h.ring k).next_eq (u := []) (between_cursor k [] (L k))

theorem Spells.prev_head (h : Spells m L) : m.prev (.head k) = some (cursor k (L k).reverse) := by
  have hring := h.ring k
  rw [← List.append_nil ((L k).map _)] at hring
  exact hring.prev_eq (between_cursor k (L k) [])

theorem Spells.prev_cursor (h : Spells m L) (hk : L k = u ++ v) : m.prev (cursor k v) = some (cursor k u.reverse) := by
  have hring := h.ring k
  rw [hk, List.map_append] at hring
  exact hring.prev_eq (between_cursor k u v)

theorem Spells.neighbours (h : Spells m L) (hk : L k = u ++ e :: v) :
    m.next (.field e) = some (cursor k v) ∧ m.prev (.field e) = some (cursor k u.reverse) := by
  have hring := h.ring k
  rw [hk, List.map_append, List.map_cons] at hring
  exact hring.neighbours (between_cursor k u v)

theorem cursor_ne (he : e ∉ u) : cursor k u ≠ .field e := by
  cases u with
  | nil => simp
  | cons x u =>
    rintro hx
    obtain rfl : x = e := LinkPtr.field.inj hx
    exact he (by simp)

theorem Spells.outside (h : Spells m L) (hk : L k = u ++ v) (hne : k' ≠ k) {l : LinkPtr κ ε}
    (hl : l ∈ .head k' :: (L k').map .field) : l ≠ cursor k u.reverse ∧ l ≠ cursor k v :=
  h.apart hk hne hl (between_cursor k u v)

theorem cell_ne (he : e ∉ u) {l : LinkPtr κ ε} (hl : l ∈ .head k :: u.map .field) : l ≠ .field e := by
  rintro rfl
  simp only [List.mem_cons, reduceCtorEq, field_mem_map, false_or] at hl
  exact he hl

section edits

variable [DecidableEq κ] [DecidableEq ε]

/-- An element is linked in between `u` and `v`. -/
theorem Spells.insert (h : Spells m L) (he : ∀ k, e ∉ L k) (hk : L k = u ++ v) :
    Spells ⟨Function.update (Function.update m.prev (.field e) (some (cursor k u.reverse))) (cursor k v) (some (.field e)),
      Function.update (Function.update m.next (.field e) (some (cursor k v))) (cursor k u.reverse) (some (.field e))⟩
      (Function.update L k (u ++ e :: v)) := by
  have hek := he k
  rw [hk, List.mem_append, not_or] at hek
  constructor
  · intro k'
    by_cases hkk : k' = k
    · subst hkk
      have hring := h.ring k'
      rw [hk, List.map_append] at hring
      rw [Function.update_self, List.map_append, List.map_cons]
      refine hring.insert (by simp) ?_ (between_cursor k' u v)
      simp [hek.1, hek.2]
    · rw [Function.update_of_ne hkk]
      refine (h.ring k').congr (fun l hl => ?_) fun l hl => ?_
      · dsimp only
        rw [Function.update_of_ne (h.outside hk hkk hl).1, Function.update_of_ne (cell_ne (he k') hl)]
      · dsimp only
        rw [Function.update_of_ne (h.outside hk hkk hl).2, Function.update_of_ne (cell_ne (he k') hl)]
  · intro x hx
    have hxk := hx k
    simp only [Function.update_self, List.mem_append, List.mem_cons, not_or] at hxk
    have hfree : ∀ d, x ∉ L d := by
      intro d
      by_cases hd : d = k
      · subst hd
        rw [hk, List.mem_append]
        exact fun hm => hm.elim hxk.1 hxk.2.2
      · have := hx d
        rwa [Function.update_of_ne hd] at this
    have hxe : (LinkPtr.field x : LinkPtr κ ε) ≠ .field e := fun hc => hxk.2.1 (LinkPtr.field.inj hc)
    obtain ⟨hn, hp⟩ := h.free x hfree
    constructor
    · dsimp only
      rw [Function.update_of_ne (cursor_ne (by simpa using hxk.1)).symm, Function.update_of_ne hxe, hn]
    · dsimp only
      rw [Function.update_of_ne (cursor_ne hxk.2.2).symm, Function.update_of_ne hxe, hp]

/-- An element is linked out, and its links are made null. -/
theorem Spells.remove (h : Spells m L) (hk : L k = u ++ e :: v) :
    Spells ⟨Function.update (Function.update m.prev (cursor k v) (some (cursor k u.reverse))) (.field e) none,
      Function.update (Function.update m.next (cursor k u.reverse) (some (cursor k v))) (.field e) none⟩
      (Function.update L k (u ++ v)) := by
  have hnd := h.nodup k
  rw [hk] at hnd
  obtain ⟨hev, -⟩ := List.nodup_cons.1 (List.nodup_middle.1 hnd)
  rw [List.mem_append, not_or] at hev
  have hek : ∀ k', k' ≠ k → e ∉ L k' := fun k' hne hm => hne (h.disjoint hm (by rw [hk]; simp))
  constructor
  · intro k'
    by_cases hkk : k' = k
    · subst hkk
      have hring := h.ring k'
      rw [hk, List.map_append, List.map_cons] at hring
      rw [Function.update_self]
      have he : e ∉ u ++ v := by simp [hev.1, hev.2]
      refine (List.map_append ▸ hring.remove (by simp) (between_cursor k' u v)).congr (fun l hl => ?_) fun l hl => ?_
      · exact Function.update_of_ne (cell_ne he hl) _ _
      · exact Function.update_of_ne (cell_ne he hl) _ _
    · rw [Function.update_of_ne hkk]
      have hk' : L k = (u ++ [e]) ++ v := by
        rw [hk]
        simp
      refine (h.ring k').congr (fun l hl => ?_) fun l hl => ?_
      · dsimp only
        rw [Function.update_of_ne (cell_ne (hek k' hkk) hl), Function.update_of_ne (h.outside hk hkk hl).1]
      · dsimp only
        rw [Function.update_of_ne (cell_ne (hek k' hkk) hl), Function.update_of_ne (h.outside hk' hkk hl).2]
  · intro x hx
    have hxk := hx k
    rw [Function.update_self, List.mem_append, not_or] at hxk
    by_cases hxe : x = e
    · subst hxe
      exact ⟨Function.update_self .., Function.update_self ..⟩
    have hne : (LinkPtr.field x : LinkPtr κ ε) ≠ .field e := fun hc => hxe (LinkPtr.field.inj hc)
    have hfree : ∀ d, x ∉ L d := by
      intro d
      by_cases hd : d = k
      · subst hd
        rw [hk]
        simp [hxk.1, hxk.2, hxe]
      · have := hx d
        rwa [Function.update_of_ne hd] at this
    obtain ⟨hn, hp⟩ := h.free x hfree
    constructor
    · dsimp only
      rw [Function.update_of_ne hne, Function.update_of_ne (cursor_ne (by simpa using hxk.1)).symm, hn]
    · dsimp only
      rw [Function.update_of_ne hne, Function.update_of_ne (cursor_ne hxk.2).symm, hp]

end edits

/-! ## The operations -/

section operations

variable [DecidableEq κ] [DecidableEq ε] {f : ε → Int} {n : Nat} {x : Int} {cur : LinkPtr κ ε} {w : List ε}
  {E : LinkFault → Prop}

omit [DecidableEq κ] [DecidableEq ε] in
@[simp] theorem wp_follow {Q : LinkPtr κ ε → Links κ ε → Prop} : wp (follow (some cur)) Q E m ↔ Q cur m := Iff.rfl

omit [DecidableEq κ] [DecidableEq ε] in
@[simp] theorem wp_queueEntry {Q : ε → Links κ ε → Prop} : wp (queueEntry (.field e)) Q E m ↔ Q e m := Iff.rfl

/-- The loop of `queue_add` stops at the first element that is not passed. -/
theorem wp_queueAddLoop {Q : LinkPtr κ ε → Links κ ε → Prop} (hs : Seg m.next (m.next cur) (w.map .field) (some (.head k)))
    (hn : w.length < n) :
    wp (queueAddLoop k f x n cur) Q E m ↔ Q (cursor k (w.dropWhile fun c => f c < x)) m := by
  induction n generalizing cur w with
  | zero => omega
  | succ n ih =>
    cases w with
    | nil =>
      have hnext : m.next cur = some (.head k) := hs
      simp [queueAddLoop, hnext]
    | cons c w =>
      obtain ⟨hnext, hw⟩ := hs
      have hlen : w.length < n := by
        simp at hn
        omega
      simp only [queueAddLoop, wp_bind, wp_get, hnext, wp_follow, ne_eq, reduceCtorEq, not_false_eq_true, if_true, wp_queueEntry,
        List.dropWhile_cons, decide_eq_true_eq]
      by_cases hc : f c < x
      · simpa only [hc, if_true] using ih hw hlen
      · simp [hc]

/-- `queue_add` of an element in no list. -/
theorem wp_queueAdd (h : Spells m L) (he : ∀ k, e ∉ L k) (hn : (L k).length < n) :
    wp (queueAdd n e k f) (fun _ m' => Spells m' (Function.update L k (insertWhile (fun c => f c < f e) e (L k))))
      (fun _ => False) m := by
  have hnull : m.prev (.field e) = none ∧ m.next (.field e) = none := h.null_iff.2 he
  have hk : L k = (L k).takeWhile (fun c => f c < f e) ++ (L k).dropWhile (fun c => f c < f e) :=
    (List.takeWhile_append_dropWhile).symm
  have hins := h.insert he hk
  have hprev := h.prev_cursor hk
  have hne : cursor k ((L k).dropWhile fun c => f c < f e) ≠ .field e :=
    cursor_ne fun hm => he k ((List.dropWhile_sublist _).subset hm)
  rw [queueAdd, wp_bind, wp_get, if_neg (by simpa using hnull), wp_bind, wp_queueAddLoop (h.ring k).forth hn]
  simp only [setNext, setPrev, wp_bind, wp_get, wp_modify, Function.update_of_ne hne, hprev, wp_follow]
  exact hins

/-- `queue_add` of an element in a list fails the assertion. -/
theorem wp_queueAdd_linked {Q : Unit → Links κ ε → Prop} (h : Spells m L) (he : e ∈ L k') :
    wp (queueAdd n e k f) Q E m ↔ E .queueAddAssert := by
  have hnull : ¬ (m.prev (.field e) = none ∧ m.next (.field e) = none) := fun hn => (h.linked he).1 hn.2
  rw [queueAdd, wp_bind, wp_get, if_pos hnull]
  exact Iff.rfl

/-- `queue_del` of an element in a list. -/
theorem wp_queueDel (h : Spells m L) (hk : L k = u ++ e :: v) :
    wp (queueDel e) (fun _ m' => Spells m' (Function.update L k (u ++ v))) (fun _ => False) m := by
  obtain ⟨hn, hp⟩ := h.neighbours hk
  have hnd := h.nodup k
  rw [hk] at hnd
  obtain ⟨hev, -⟩ := List.nodup_cons.1 (List.nodup_middle.1 hnd)
  rw [List.mem_append, not_or] at hev
  have hu : cursor k u.reverse ≠ .field e := cursor_ne (by simpa using hev.1)
  have hv : cursor k v ≠ .field e := cursor_ne hev.2
  rw [queueDel, wp_bind, wp_get, if_neg (by simp [hn, hp])]
  simp only [setNext, setPrev, wp_bind, wp_get, wp_modify, hn, hp, wp_follow, Function.update_of_ne hu.symm]
  exact h.remove hk

/-- `queue_del` of an element in no list fails the assertion. -/
theorem wp_queueDel_unlinked {Q : Unit → Links κ ε → Prop} (h : Spells m L) (he : ∀ k, e ∉ L k) :
    wp (queueDel e) Q E m ↔ E .queueDelAssert := by
  rw [queueDel, wp_bind, wp_get, if_pos (by simp [(h.free e he).2])]
  exact Iff.rfl

theorem wp_queueEmpty {Q : Bool → Links κ ε → Prop} (h : Spells m L) :
    wp (queueEmpty k) Q E m ↔ Q (L k).isEmpty m := by
  have hiff : (m.next (.head k) = some (.head k)) ↔ (L k).isEmpty = true := by
    rw [h.next_head]
    cases L k <;> simp
  simp only [queueEmpty, wp_bind, wp_get, wp_pure, hiff, Bool.decide_eq_true]

/-- `queue_out` takes the element before the head. -/
theorem wp_queueOut (h : Spells m L) :
    wp (queueOut k) (fun o m' => o = (L k).getLast? ∧ Spells m' (Function.update L k (L k).dropLast)) (fun _ => False) m := by
  rw [queueOut, wp_bind, wp_get, wp_bind, wp_queueEmpty h]
  rcases List.eq_nil_or_concat (L k) with hk | ⟨u, e, hk⟩
  · rw [hk]
    refine ⟨rfl, ?_⟩
    rw [List.dropLast_nil, ← hk, Function.update_eq_self]
    exact h
  · rw [List.concat_eq_append] at hk
    obtain ⟨hn, hp⟩ := h.neighbours (v := []) hk
    have hlast : m.prev (.head k) = some (.field e) := by
      rw [h.prev_head, hk]
      simp
    have hne : LinkPtr.field e ≠ (LinkPtr.head k : LinkPtr κ ε) := by simp
    have hdrop : (L k).dropLast = u ++ [] := by
      rw [hk]
      simp
    have hempty : (L k).isEmpty = false := by
      rw [hk]
      simp
    have hget : (L k).getLast? = some e := by
      rw [hk]
      simp
    rw [hempty, hdrop, hget]
    simp only [Bool.false_eq_true, if_false, setNext, setPrev, wp_bind, wp_get, wp_modify, hlast, hp, wp_follow,
      Function.update_self, wp_queueEntry, wp_pure, true_and]
    exact h.remove hk

theorem wp_queueTop {Q : Option ε → Links κ ε → Prop} (h : Spells m L) :
    wp (queueTop k) Q E m ↔ Q (L k).getLast? m := by
  rw [queueTop, wp_bind, wp_get, wp_bind, wp_queueEmpty h, h.prev_head, ← List.head?_reverse, ← List.isEmpty_reverse]
  cases (L k).reverse <;> simp [-bind_pure_comp]

theorem wp_queueBottom {Q : Option ε → Links κ ε → Prop} (h : Spells m L) :
    wp (queueBottom k) Q E m ↔ Q (L k).head? m := by
  rw [queueBottom, wp_bind, wp_get, wp_bind, wp_queueEmpty h, h.next_head]
  cases L k <;> simp [-bind_pure_comp]

/-- A loop over the list visits what is left of it, and the links are as before. -/
theorem wp_queueWalkFrom {dir : Links κ ε → LinkPtr κ ε → Option (LinkPtr κ ε)} {Q : List ε → Links κ ε → Prop}
    (hs : Seg (dir m) (some cur) (w.map .field) (some (.head k))) (hn : w.length < n) :
    wp (queueWalkFrom dir k n cur) Q E m ↔ Q w m := by
  induction n generalizing cur w Q with
  | zero => omega
  | succ n ih =>
    cases w with
    | nil =>
      obtain rfl : cur = .head k := Option.some.inj hs
      simp [queueWalkFrom]
    | cons e w =>
      obtain ⟨hcur, hw⟩ := hs
      obtain rfl : cur = .field e := Option.some.inj hcur
      have hlen : w.length < n := by
        simp at hn
        omega
      obtain ⟨next, hnext⟩ : ∃ l, dir m (.field e) = some l := by
        cases w with
        | nil => exact ⟨_, hw⟩
        | cons c w => exact ⟨_, hw.1⟩
      rw [hnext] at hw
      simp only [queueWalkFrom, reduceCtorEq, if_false, wp_bind, wp_queueEntry, wp_get, hnext, wp_follow, ih hw hlen, wp_pure]

/-- `queue_for_each` visits the list from the head on. -/
theorem wp_queueForEach {Q : List ε → Links κ ε → Prop} (h : Spells m L) (hn : (L k).length < n) :
    wp (queueForEach n k) Q E m ↔ Q (L k) m := by
  have hs := (h.ring k).forth
  rw [Loop, h.next_head] at hs
  rw [queueForEach, wp_bind, wp_get, wp_bind, h.next_head, wp_follow, wp_queueWalkFrom hs hn]

/-- `queue_for_each_prev` visits it from the end on. -/
theorem wp_queueForEachPrev {Q : List ε → Links κ ε → Prop} (h : Spells m L) (hn : (L k).length < n) :
    wp (queueForEachPrev n k) Q E m ↔ Q (L k).reverse m := by
  have hs := (h.ring k).back
  rw [Loop, ← List.map_reverse, h.prev_head] at hs
  rw [queueForEachPrev, wp_bind, wp_get, wp_bind, h.prev_head, wp_follow, wp_queueWalkFrom hs (by simpa using hn)]

end operations

end spells

end QueueH

end Xinul
