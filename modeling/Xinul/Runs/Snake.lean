import Mathlib.Data.List.Chain
import Xinul.Lib.Run
import Xinul.Lib.Seg
import Xinul.Lib.Wp
import Xinul.User.Snake

/-!
# The body of the snake

The nodes in the pool hold the positions of the body, from the head on. A move puts the
next position in front and takes the last one off, unless it is the food's.
-/

namespace Xinul.Snake

open Prog Linked Machine

/-- The pointer in the node at `x`, and the position. -/
def Game.next (g : Game) (x : Nat) : Option Nat := (g.memoryPool x).bind Node.next

def Game.posAt (g : Game) (x : Nat) : Option Position := (g.memoryPool x).map Node.p

/-- The nodes `l` are the list of `head`, and hold the positions `ps`. -/
structure Body (g : Game) (l : List Nat) (ps : List Position) : Prop where
  seg : Seg g.next g.head l none
  cells : l.map g.posAt = ps.map some
  below : ∀ x ∈ l, x < g.offset
  room : l.length ≤ g.offset
  pool : g.offset ≤ memorySize

section

variable {g g' : Game} {l : List Nat} {ps draws : List Position} {hd prev target : Position} {node : Node} {x n : Nat} {a : Option Nat}
  {E : Stop → Prop}

/-! ## The list in the pool -/

theorem next_eq (h : g.memoryPool x = some node) : g.next x = node.next := by rw [Game.next, h, Option.bind_some]

theorem wp_load {Q : Node → Game → Prop} (h : g.memoryPool x = some node) : wp (load (some x)) Q E g ↔ Q node g := by
  rw [load, wp_bind, wp_get, h]
  rfl

theorem wp_store {Q : Unit → Game → Prop} : wp (store (some x) node) Q E g ↔ Q () (g.store x node) := Iff.rfl

/-- `snake_in_case` looks at every node. -/
theorem wp_inCaseFrom (hs : Seg g.next a l none)
    (hc : l.map g.posAt = ps.map some) (hn : l.length ≤ n) :
    wp (inCaseFrom target n a) (fun b t => t = g ∧ (b = true ↔ target ∈ ps)) (fun _ => False) g := by
  induction l generalizing a ps n with
  | nil =>
    obtain rfl : a = none := hs
    obtain rfl : ps = [] := by simpa using hc.symm
    rw [inCaseFrom]
    exact ⟨rfl, by simp⟩
  | cons x l ih =>
    obtain ⟨rfl, hs⟩ := hs
    cases ps with
    | nil => cases hc
    | cons p ps =>
      obtain ⟨hx, htail⟩ := List.cons.inj hc
      obtain ⟨node, hnode, rfl⟩ := Option.map_eq_some_iff.1 hx
      obtain ⟨n, rfl⟩ := Nat.exists_eq_succ_of_ne_zero (show n ≠ 0 by rintro rfl; cases hn)
      rw [inCaseFrom, wp_bind, wp_load hnode, wp_ite]
      constructor
      · rintro ⟨hi, hj⟩
        have htarget : target = node.p := by
          cases target
          cases hp : node.p
          simp_all
        exact ⟨rfl, by simp [htarget]⟩
      · intro hne
        have htarget : target ≠ node.p := by
          rintro rfl
          exact hne ⟨rfl, rfl⟩
        rw [next_eq hnode] at hs
        refine wp_mono (ih hs htail (by simpa using hn)) (fun b t _ ht => ?_) (fun _ _ h => h)
        simpa [htarget] using ht

theorem wp_snakeInCase (h : Body g l ps) :
    wp (snakeInCase target) (fun b t => t = g ∧ (b = true ↔ target ∈ ps)) (fun _ => False) g := by
  rw [snakeInCase, wp_bind, wp_get]
  exact wp_inCaseFrom h.seg h.cells (h.room.trans h.pool)

/-- The two games differ in what the nodes hold. -/
structure Alike (g t : Game) : Prop where
  offset : t.offset = g.offset
  head : t.head = g.head
  direction : t.direction = g.direction
  food : t.food = g.food
  next : ∀ x, t.next x = g.next x

theorem Alike.refl (g : Game) : Alike g g := ⟨rfl, rfl, rfl, rfl, fun _ => rfl⟩

theorem Alike.trans {u : Game} (h : Alike g g') (h' : Alike g' u) : Alike g u :=
  ⟨h'.offset.trans h.offset, h'.head.trans h.head, h'.direction.trans h.direction, h'.food.trans h.food,
    fun x => (h'.next x).trans (h.next x)⟩

/-- Writing a position. -/
theorem Alike.store (h : g.memoryPool x = some node) : Alike g (g.store x { node with p := prev }) := by
  refine ⟨rfl, rfl, rfl, rfl, fun y => ?_⟩
  by_cases hy : y = x
  · subst hy
    simp [Game.next, Game.store, h]
  · simp [Game.next, Game.store, hy]

/-- The loop of `move_snake`: each node gets the position of the one before it. -/
theorem wp_shift (hs : Seg g.next a l none)
    (hc : l.map g.posAt = ps.map some) (hn : l.length ≤ n) :
    wp (shift prev n a) (fun _ t => Alike g t ∧ l.map t.posAt = ((prev :: ps).dropLast).map some ∧
      ∀ x, x ∉ l → t.memoryPool x = g.memoryPool x) (fun _ => False) g := by
  induction l generalizing a ps n prev g with
  | nil =>
    obtain rfl : a = none := hs
    obtain rfl : ps = [] := by simpa using hc.symm
    rw [shift]
    exact ⟨.refl g, rfl, fun _ _ => rfl⟩
  | cons x l ih =>
    have hnd := hs.nodup
    obtain ⟨rfl, hs⟩ := hs
    cases ps with
    | nil => cases hc
    | cons p ps =>
      obtain ⟨hx, htail⟩ := List.cons.inj hc
      obtain ⟨node, hnode, rfl⟩ := Option.map_eq_some_iff.1 hx
      obtain ⟨n, rfl⟩ := Nat.exists_eq_succ_of_ne_zero (show n ≠ 0 by rintro rfl; cases hn)
      have hxl : x ∉ l := (List.nodup_cons.1 hnd).1
      rw [shift, wp_bind, wp_load hnode, wp_bind, wp_store]
      rw [next_eq hnode] at hs
      have hstore : Alike g (g.store x { node with p := prev }) := .store hnode
      have hother : ∀ y, y ≠ x → (g.store x { node with p := prev }).memoryPool y = g.memoryPool y := by
        intro y hy
        simp [Game.store, hy]
      have hrest : l.map (g.store x { node with p := prev }).posAt = ps.map some := by
        rw [← htail]
        apply List.map_congr_left
        intro y hy
        rw [Game.posAt, Game.posAt, hother y (by rintro rfl; exact hxl hy)]
      refine wp_mono (ih (hs.congr fun y _ => hstore.next y) hrest (by simpa using hn)) (fun _ t _ ht => ?_) (fun _ _ h => h)
      obtain ⟨halike, hcells, hsame⟩ := ht
      refine ⟨hstore.trans halike, ?_, fun y hy => ?_⟩
      · rw [List.map_cons, hcells, Game.posAt, hsame x hxl]
        simp [Game.store]
      · rw [List.mem_cons, not_or] at hy
        rw [hsame y hy.2, hother y hy.1]

theorem Body.congr (h : Body g l ps) (memory : g'.memoryPool = g.memoryPool) (head : g'.head = g.head)
    (offset : g'.offset = g.offset) : Body g' l ps := by
  have hnext : g'.next = g.next := by
    funext x
    rw [Game.next, Game.next, memory]
  have hpos : g'.posAt = g.posAt := by
    funext x
    rw [Game.posAt, Game.posAt, memory]
  refine ⟨?_, ?_, ?_, ?_, ?_⟩
  · rw [hnext, head]
    exact h.seg
  · rw [hpos]
    exact h.cells
  · rw [offset]
    exact h.below
  · rw [offset]
    exact h.room
  · rw [offset]
    exact h.pool

/-! ## A move -/

/-- The nodes of a body that is not empty. -/
theorem Body.cons (h : Body g l (hd :: ps)) : ∃ x l' node, l = x :: l' ∧ g.head = some x ∧ g.memoryPool x = some node ∧
    node.p = hd ∧ Seg g.next node.next l' none ∧ l'.map g.posAt = ps.map some := by
  obtain ⟨hseg, hcells, -, -, -⟩ := h
  cases l with
  | nil => cases hcells
  | cons x l =>
    obtain ⟨hhead, hseg⟩ := hseg
    obtain ⟨hx, htail⟩ := List.cons.inj hcells
    obtain ⟨node, hnode, hp⟩ := Option.map_eq_some_iff.1 hx
    rw [next_eq hnode] at hseg
    exact ⟨x, l, node, rfl, hhead, hnode, hp, hseg, htail⟩

theorem wp_malloc {Q : Nat → Game → Prop} (hfull : g.offset + n > memorySize → E .exit)
    (hroom : g.offset + n ≤ memorySize → Q g.offset { g with offset := g.offset + n }) : wp (malloc n) Q E g := by
  rw [malloc, wp_bind, wp_get]
  dsimp only
  rw [wp_ite]
  constructor
  · intro hgt
    rw [wp_bind, wp_throw]
    exact hfull hgt
  · intro hle
    rw [wp_bind, wp_modify, wp_pure]
    exact hroom (not_lt.1 hle)

/-- A position is drawn for the food. -/
theorem wp_placeFood (h : Body g l ps) :
    wp (placeFood draws) (fun _ t => ∃ p ∈ draws, p ∉ ps ∧ t = { g with food := p }) (· = .drawing) g := by
  induction draws generalizing g with
  | nil => rfl
  | cons p draws ih =>
    rw [placeFood, wp_bind, wp_modify, wp_bind]
    have hp : Body { g with food := p } l ps := h.congr rfl rfl rfl
    refine wp_mono (wp_snakeInCase hp) (fun b t _ ht => ?_) (fun _ _ hf => hf.elim)
    obtain ⟨rfl, hb⟩ := ht
    rw [wp_ite]
    constructor
    · intro _
      refine wp_mono (ih hp) (fun _ u _ hu => ?_) (fun _ _ hf => hf)
      obtain ⟨q, hq, hnot, rfl⟩ := hu
      exact ⟨q, by simp [hq], hnot, rfl⟩
    · intro hne
      exact ⟨p, by simp, fun hmem => hne (hb.2 hmem), rfl⟩

/-- A new head. -/
theorem Body.grow (h : Body g l ps) (hpool : g.offset + nodeSize ≤ memorySize) (p : Position) :
    Body { ({ g with offset := g.offset + nodeSize }.store g.offset ⟨p, g.head⟩) with head := some g.offset }
      (g.offset :: l) (p :: ps) := by
  have hnew : g.offset ∉ l := fun hm => lt_irrefl _ (h.below _ hm)
  have hother : ∀ x ∈ l, Function.update g.memoryPool g.offset (some ⟨p, g.head⟩) x = g.memoryPool x := by
    intro x hx
    rw [Function.update_of_ne]
    rintro rfl
    exact hnew hx
  refine ⟨⟨rfl, ?_⟩, ?_, ?_, ?_, hpool⟩
  · have hnext : ({ ({ g with offset := g.offset + nodeSize }.store g.offset ⟨p, g.head⟩) with head := some g.offset } : Game).next
        g.offset = g.head := by simp [Game.next, Game.store]
    rw [hnext]
    refine h.seg.congr fun x hx => ?_
    simp only [Game.next, Game.store]
    rw [hother x hx]
  · rw [List.map_cons, List.map_cons, ← h.cells]
    congr 1
    · simp [Game.posAt, Game.store]
    · apply List.map_congr_left
      intro x hx
      simp only [Game.posAt, Game.store]
      rw [hother x hx]
  · intro x hx
    show x < g.offset + nodeSize
    unfold nodeSize
    rcases List.mem_cons.1 hx with rfl | hx
    · omega
    · have := h.below x hx
      omega
  · show (g.offset :: l).length ≤ g.offset + nodeSize
    have := h.room
    rw [List.length_cons]
    unfold nodeSize
    omega

/-- What a move does to the body and the food. -/
structure Moved (g : Game) (ps : List Position) (next : Position) (draws : List Position) (t : Game) : Prop where
  free : next ∉ ps
  direction : t.direction = g.direction
  eats : g.food = next → t.food ∈ draws ∧ ∃ l, Body t l (next :: ps)
  goes : g.food ≠ next → t.food = g.food ∧ ∃ l, Body t l (next :: ps.dropLast)

theorem wp_moveSnake (draws : List Position) (h : Body g l (hd :: ps)) :
    wp (moveSnake draws) (fun _ t => Moved g (hd :: ps) (hd.toward g.direction) draws t)
      (fun e => e = .gameOver ∨ e = .exit ∨ e = .drawing) g := by
  obtain ⟨x, l', node, rfl, hhead, hnode, rfl, hseg, htail⟩ := h.cons
  rw [moveSnake, wp_bind, getNextCase, wp_bind, wp_get, hhead, wp_bind, wp_load hnode, wp_bind, wp_get, wp_pure, wp_bind]
  generalize hnext : node.p.toward g.direction = next
  refine wp_mono (wp_snakeInCase h) (fun b t _ ht => ?_) (fun _ _ hf => hf.elim)
  obtain ⟨rfl, hb⟩ := ht
  dsimp only
  rw [wp_ite]
  constructor
  · intro _
    rw [wp_bind, wp_throw]
    exact .inl rfl
  · intro hfree
    have hfree : next ∉ node.p :: ps := fun hm => hfree (hb.2 hm)
    rw [wp_bind, wp_get, wp_ite]
    constructor
    · intro hfood
      have hfood : t.food = next := by
        obtain ⟨hi, hj⟩ : t.food.i = next.i ∧ t.food.j = next.j := by simpa [Game.isFoodPosition] using hfood
        cases hf : t.food
        cases next
        simp_all
      rw [wp_bind]
      apply wp_malloc
      · intro _
        exact .inr (.inl rfl)
      · intro hpool
        rw [wp_bind, wp_modify, wp_bind]
        have hgrow := h.grow hpool t.food
        refine wp_mono (wp_placeFood hgrow) (fun _ u _ hu => ?_) (fun _ _ he => .inr (.inr he))
        obtain ⟨p, hp, -, rfl⟩ := hu
        rw [wp_modify]
        refine ⟨hfree, rfl, fun _ => ⟨hp, t.offset :: x :: l', ?_⟩, fun hne => absurd hfood hne⟩
        rw [← hfood]
        exact hgrow.congr rfl rfl rfl
    · intro hfood
      have hfood : t.food ≠ next := by
        rintro rfl
        exact hfood (by simp [Game.isFoodPosition])
      rw [wp_bind, wp_get, hhead, wp_bind, wp_load hnode, wp_bind]
      have hlen : l'.length ≤ memorySize := by
        have hroom := h.room.trans h.pool
        rw [List.length_cons] at hroom
        omega
      refine wp_mono (wp_shift hseg htail hlen) (fun _ u _ hu => ?_) (fun _ _ hf => hf.elim)
      obtain ⟨halike, hcells, hsame⟩ := hu
      have hxl : x ∉ l' := (List.nodup_cons.1 h.seg.nodup).1
      have hnode' : u.memoryPool x = some node := by rw [hsame x hxl, hnode]
      have hhead' : u.head = some x := halike.head.trans hhead
      rw [wp_bind, wp_get, hhead', wp_bind, wp_load hnode', wp_bind, wp_get, hhead', wp_store]
      have hall : Alike t (u.store x { node with p := next }) := halike.trans (.store hnode')
      refine ⟨hfree, hall.direction, fun heq => absurd heq hfood, fun _ => ⟨hall.food, x :: l', ?_⟩⟩
      refine ⟨?_, ?_, ?_, ?_, ?_⟩
      · rw [hall.head]
        exact h.seg.congr fun y _ => hall.next y
      · rw [List.map_cons, List.map_cons, ← hcells]
        congr 1
        · simp [Game.posAt, Game.store]
        · apply List.map_congr_left
          intro y hy
          have hyx : y ≠ x := by
            rintro rfl
            exact hxl hy
          simp [Game.posAt, Game.store, hyx]
      · rw [hall.offset]
        exact h.below
      · rw [hall.offset]
        exact h.room
      · rw [hall.offset]
        exact h.pool

end

/-! ## The torus -/

/-- The position is on the board. -/
def Position.Inside (p : Position) : Prop := (0 ≤ p.i ∧ p.i < lines) ∧ 0 ≤ p.j ∧ p.j < columns

/-- The positions are next to each other on the board, whose opposite sides meet. -/
def Neighbours (p q : Position) : Prop :=
  (p.j = q.j ∧ ((q.i - p.i) % lines = 1 ∨ (p.i - q.i) % lines = 1)) ∨
    (p.i = q.i ∧ ((q.j - p.j) % columns = 1 ∨ (p.j - q.j) % columns = 1))

def Direction.opposite : Direction → Direction
  | .north => .south
  | .south => .north
  | .east => .west
  | .west => .east

section

variable {p q : Position} {d d' : Direction}

/-- `mod` is the remainder that is not negative. -/
theorem mod_eq (a : Int) {b : Int} (hb : 0 < b) : mod a b = a % b := by
  have hnonneg := Int.emod_nonneg a (Int.ne_of_gt hb)
  have hlt := Int.emod_lt_of_pos a hb
  rw [mod, Int.tmod_eq_emod]
  split_ifs with hcase hneg hneg
  · omega
  · omega
  · omega
  · have hdvd : ¬ b ∣ a := fun h => hcase (.inr h)
    have hne : a % b ≠ 0 := fun h => hdvd (Int.dvd_of_emod_eq_zero h)
    omega

theorem mod_lines (a : Int) : mod a lines = a % 20 := mod_eq a (by decide)

theorem mod_columns (a : Int) : mod a columns = a % 20 := mod_eq a (by decide)

theorem inside_iff : p.Inside ↔ (0 ≤ p.i ∧ p.i < 20) ∧ 0 ≤ p.j ∧ p.j < 20 := Iff.rfl

theorem neighbours_iff : Neighbours p q ↔ (p.j = q.j ∧ ((q.i - p.i) % 20 = 1 ∨ (p.i - q.i) % 20 = 1)) ∨
    (p.i = q.i ∧ ((q.j - p.j) % 20 = 1 ∨ (p.j - q.j) % 20 = 1)) := Iff.rfl

theorem toward_inside (h : p.Inside) (d : Direction) : (p.toward d).Inside := by
  obtain ⟨hi, hj⟩ := inside_iff.1 h
  rw [inside_iff]
  cases d <;> simp only [Position.toward, mod_lines, mod_columns] <;> omega

theorem toward_neighbours (h : p.Inside) (d : Direction) : Neighbours (p.toward d) p := by
  obtain ⟨hi, hj⟩ := inside_iff.1 h
  rw [neighbours_iff]
  cases d <;> simp only [Position.toward, mod_lines, mod_columns, true_and]
  · apply Or.inl
    omega
  · apply Or.inr
    omega
  · apply Or.inr
    omega
  · apply Or.inl
    omega

/-- A step that does not go straight back does not lead back. -/
theorem toward_toward_ne (h : p.Inside) (hd : d' ≠ d.opposite) : (p.toward d).toward d' ≠ p := by
  obtain ⟨hi, hj⟩ := inside_iff.1 h
  intro heq
  have hpi := congrArg Position.i heq
  have hpj := congrArg Position.j heq
  cases d <;> cases d' <;>
    first
    | exact absurd rfl hd
    | simp only [Position.toward, mod_lines, mod_columns] at hpi hpj
      omega

/-- `random_case` draws positions on the board. -/
theorem randomCase_inside (clock : BitVec 64) : (randomCase clock).Inside := by
  rw [inside_iff]
  simp only [randomCase, mod_lines, mod_columns]
  omega

end

/-! ## Runs of the game -/

/-- What one turn of the loop of `main` takes in: the command received, if there is one, and
the positions drawn. -/
structure Turn where
  cmd : Option Int
  draws : List Position

/-- `main` has got to its loop. -/
def Begun (g : Game) : Prop := ∃ g₀ food, setUp food g₀ = .ok ((), g)

/-- The turn comes to its end. -/
def Turned (g : Game) (e : Turn) (g' : Game) : Prop := round e.cmd e.draws g = .ok ((), g')

/-- The foods eaten, after a turn in which the head may go onto the food. -/
def noteEaten (g : Game) (e : Turn) (n : Nat) : Nat :=
  match getNextCase (g.steer e.cmd) with
  | .ok (next, _) => if g.isFoodPosition next then n + 1 else n
  | .error _ => n

/-- The game goes on in `g`, after `n` foods. -/
abbrev Played : Game → Nat → Prop := Noted Begun Turned (fun _ _ => True) 0 noteEaten

/-- The body lies on the board as it should after `n` foods; the head has come from the second cell. -/
structure Healthy (g : Game) (n : Nat) (ps : List Position) : Prop where
  body : ∃ l, Body g l ps
  inside : ∀ p ∈ ps, p.Inside
  nodup : ps.Nodup
  chain : ps.IsChain Neighbours
  length : ps.length = 2 + n
  ahead : ∃ second rest, ps = second.toward g.direction :: second :: rest

section

variable {g g' : Game} {l : List Nat} {ps draws : List Position} {hd : Position} {n : Nat} {cmd : Option Int} {e : Turn}

/-- A command does not turn the snake back. -/
theorem Game.steer_eq (g : Game) (cmd : Option Int) :
    ∃ d, g.steer cmd = { g with direction := d } ∧ d ≠ g.direction.opposite := by
  have hkeep : ∃ d, g = { g with direction := d } ∧ d ≠ g.direction.opposite := by
    refine ⟨g.direction, rfl, ?_⟩
    cases g.direction <;> decide
  cases cmd with
  | none => exact hkeep
  | some cmd =>
    rw [Game.steer]
    split_ifs with _ hd _ hd _ hd _ hd
    · refine ⟨.north, rfl, ?_⟩
      revert hd
      cases g.direction <;> decide
    · exact hkeep
    · refine ⟨.south, rfl, ?_⟩
      revert hd
      cases g.direction <;> decide
    · exact hkeep
    · refine ⟨.west, rfl, ?_⟩
      revert hd
      cases g.direction <;> decide
    · exact hkeep
    · refine ⟨.east, rfl, ?_⟩
      revert hd
      cases g.direction <;> decide
    · exact hkeep
    · exact hkeep

/-- The cell the head is about to enter. -/
theorem Body.getNextCase (h : Body g l (hd :: ps)) : getNextCase g = .ok (hd.toward g.direction, g) := by
  obtain ⟨x, l', node, -, hhead, hnode, rfl, -⟩ := h.cons
  have hrun : wp Snake.getNextCase (fun next t => next = node.p.toward g.direction ∧ t = g) (fun _ => False) g := by
    rw [Snake.getNextCase, wp_bind, wp_get, hhead, wp_bind, wp_load hnode, wp_bind, wp_get, wp_pure]
    exact ⟨rfl, rfl⟩
  obtain ⟨next, t, hm, rfl, rfl⟩ := wp_returns hrun
  exact hm

theorem Body.noteEaten (h : Body (g.steer e.cmd) l (hd :: ps)) (n : Nat) :
    noteEaten g e n = if g.food = hd.toward (g.steer e.cmd).direction then n + 1 else n := by
  rw [Snake.noteEaten, h.getNextCase]
  dsimp only
  congr 1
  rw [Game.isFoodPosition, decide_eq_true_eq]
  cases g.food
  cases hd.toward (g.steer e.cmd).direction
  simp

theorem Healthy.steer (h : Healthy g n ps) (cmd : Option Int) : ∃ l, Body (g.steer cmd) l ps := by
  obtain ⟨d, hsteer, -⟩ := g.steer_eq cmd
  obtain ⟨l, hl⟩ := h.body
  refine ⟨l, hl.congr ?_ ?_ ?_⟩
  · rw [hsteer]
  · rw [hsteer]
  · rw [hsteer]

/-- The head does not go back to the second cell, whatever the command. -/
theorem Healthy.forward (h : Healthy g n ps) (cmd : Option Int) :
    ∃ next, getNextCase (g.steer cmd) = .ok (next, g.steer cmd) ∧ ps[1]? ≠ some next := by
  obtain ⟨l, hl⟩ := h.steer cmd
  obtain ⟨second, rest, rfl⟩ := h.ahead
  obtain ⟨d, hsteer, hd⟩ := g.steer_eq cmd
  refine ⟨_, hl.getNextCase, ?_⟩
  intro heq
  have hsecond : second.Inside := h.inside second (by simp)
  have hback : second = (second.toward g.direction).toward (g.steer cmd).direction := Option.some.inj heq
  rw [hsteer] at hback
  exact toward_toward_ne hsecond hd hback.symm

/-- The game when `main` gets to its loop. -/
theorem setUp_eq (g₀ : Game) (food : Position) : setUp food g₀ = .ok ((),
    { memoryPool := Function.update (Function.update g₀.memoryPool 0 (some ⟨⟨5, 5⟩, none⟩)) nodeSize (some ⟨⟨5, 6⟩, some 0⟩)
      offset := nodeSize + nodeSize + snakeSize, head := some nodeSize, direction := .west, food := food, speed := 500 }) := rfl

theorem setUp_healthy (h : Begun g) : Healthy g 0 [⟨5, 6⟩, ⟨5, 5⟩] := by
  obtain ⟨g₀, food, h⟩ := h
  rw [setUp_eq, Except.ok.injEq, Prod.mk.injEq] at h
  obtain ⟨-, rfl⟩ := h
  have hbelow : ∀ x ∈ [nodeSize, 0], x < nodeSize + nodeSize + snakeSize := by decide
  have hroom : [nodeSize, 0].length ≤ nodeSize + nodeSize + snakeSize := by decide
  have hpool : nodeSize + nodeSize + snakeSize ≤ memorySize := by decide
  refine ⟨⟨[nodeSize, 0], ⟨rfl, rfl, rfl⟩, rfl, hbelow, hroom, hpool⟩, ?_, by decide, ?_, rfl, ?_⟩
  · intro p hp
    rw [inside_iff]
    simp only [List.mem_cons, List.not_mem_nil, or_false] at hp
    rcases hp with rfl | rfl <;> decide
  · rw [List.isChain_cons_cons, neighbours_iff]
    exact ⟨by decide, .singleton _⟩
  · exact ⟨⟨5, 5⟩, [], rfl⟩

theorem Healthy.round (h : Healthy g n ps) (ht : Turned g e g') : ∃ ps', Healthy g' (noteEaten g e n) ps' := by
  obtain ⟨l, hl⟩ := h.steer e.cmd
  obtain ⟨d, hsteer, -⟩ := g.steer_eq e.cmd
  obtain ⟨second, rest, rfl⟩ := h.ahead
  have hrun := wp_moveSnake e.draws hl
  have hm := wp_ok hrun ht
  generalize hhd : second.toward g.direction = hd at *
  have hfood : (g.steer e.cmd).food = g.food := by rw [hsteer]
  have hnext : (hd.toward (g.steer e.cmd).direction).Inside := toward_inside (h.inside hd (by simp)) _
  have hchain : Neighbours (hd.toward (g.steer e.cmd).direction) hd := toward_neighbours (h.inside hd (by simp)) _
  rw [hl.noteEaten, ← hfood, ← hm.direction]
  rw [← hm.direction] at hnext hchain
  have hfree := hm.free
  have heats := hm.eats
  have hgoes := hm.goes
  rw [← hm.direction] at hfree heats hgoes
  split_ifs with hcase
  · refine ⟨_, (heats hcase).2, ?_, ?_, ?_, ?_, ⟨hd, second :: rest, rfl⟩⟩
    · simpa using ⟨hnext, by simpa using h.inside⟩
    · exact List.nodup_cons.2 ⟨hfree, h.nodup⟩
    · exact h.chain.cons (by simpa using hchain)
    · rw [List.length_cons, h.length]
      omega
  · refine ⟨_, (hgoes hcase).2, ?_, ?_, ?_, ?_, ⟨hd, (second :: rest).dropLast, rfl⟩⟩
    · intro p hp
      rcases List.mem_cons.1 hp with rfl | hp
      · exact hnext
      · exact h.inside p (List.mem_of_mem_dropLast hp)
    · exact List.nodup_cons.2 ⟨fun hmem => hfree (List.mem_of_mem_dropLast hmem), h.nodup.sublist (List.dropLast_sublist _)⟩
    · exact h.chain.dropLast.cons (by simpa using hchain)
    · rw [List.length_cons, List.length_dropLast, h.length]
      omega

/-- Only the end of the game, the memory of `malloc` and the drawing of a position keep a turn
from coming to its end. -/
theorem Healthy.stops (h : Healthy g n ps) {stop : Stop} (hr : Snake.round cmd draws g = .error stop) :
    stop = .gameOver ∨ stop = .exit ∨ stop = .drawing := by
  obtain ⟨l, hl⟩ := h.steer cmd
  obtain ⟨second, rest, rfl⟩ := h.ahead
  exact wp_error (wp_moveSnake draws hl) hr

theorem Noted.healthy (h : Played g n) : ∃ ps, Healthy g n ps := by
  induction h with
  | init h => exact ⟨_, setUp_healthy h⟩
  | step _ _ ht ih =>
    obtain ⟨ps, hps⟩ := ih
    exact hps.round ht

/-- As long as the game goes on, the body of the snake lies on the board, no two of its cells
are the same and each is next to the one before it on the torus, it has two cells and one for
each food eaten, and no command makes the head enter the second cell. -/
theorem snake_body (h : Played g n) : ∃ l ps, Body g l ps ∧ (∀ p ∈ ps, p.Inside) ∧ ps.Nodup ∧ ps.IsChain Neighbours ∧
    ps.length = 2 + n ∧ ∀ cmd, ∃ next, getNextCase (g.steer cmd) = .ok (next, g.steer cmd) ∧ ps[1]? ≠ some next := by
  obtain ⟨ps, hps⟩ := Noted.healthy h
  obtain ⟨l, hl⟩ := hps.body
  exact ⟨l, ps, hl, hps.inside, hps.nodup, hps.chain, hps.length, hps.forward⟩

theorem turned_of_ok (h : (Snake.round e.cmd e.draws g).toBool = true) : ∃ g', Turned g e g' := by
  cases hr : Snake.round e.cmd e.draws g with
  | ok v => exact ⟨v.2, hr⟩
  | error stop =>
    rw [hr] at h
    cases h

/-- The head eats the food in front of it. -/
theorem snake_body_eats : ∃ g l ps, Played g 1 ∧ Body g l ps ∧ ps.length = 3 ∧
    ∀ cmd, ∃ next, getNextCase (g.steer cmd) = .ok (next, g.steer cmd) ∧ ps[1]? ≠ some next := by
  have hbegun : ∃ g, Played g 0 ∧ (Snake.round none [⟨5, 6⟩, ⟨0, 0⟩] g).toBool = true ∧
      noteEaten g ⟨none, [⟨5, 6⟩, ⟨0, 0⟩]⟩ 0 = 1 :=
    ⟨_, .init ⟨⟨fun _ => none, 0, none, .north, ⟨0, 0⟩, 0⟩, ⟨5, 7⟩, setUp_eq _ _⟩, by decide, by decide⟩
  obtain ⟨g, hplayed, hok, heats⟩ := hbegun
  obtain ⟨g', hturned⟩ := turned_of_ok (e := ⟨none, [⟨5, 6⟩, ⟨0, 0⟩]⟩) hok
  have heaten := hplayed.step trivial hturned
  rw [heats] at heaten
  obtain ⟨l, ps, hl, -, -, -, hlen, hforward⟩ := snake_body heaten
  exact ⟨_, l, ps, heaten, hl, hlen, hforward⟩

/-- The positions drawn are those of `random_case`. -/
def Drawn (_ : Game) (e : Turn) : Prop := ∀ p ∈ e.draws, ∃ clock, p = randomCase clock

/-- The food lies on the board. -/
theorem food_inside (h : Reach (fun g => ∃ g₀ clock, setUp (randomCase clock) g₀ = .ok ((), g)) Turned Drawn g) :
    g.food.Inside := by
  refine (h.invariant (I := fun g => (∃ n ps, Healthy g n ps) ∧ g.food.Inside) (fun g hg => ?_) (fun g e g' hg he ht => ?_)).2
  · obtain ⟨g₀, clock, hg⟩ := hg
    refine ⟨⟨0, _, setUp_healthy ⟨g₀, _, hg⟩⟩, ?_⟩
    rw [setUp_eq, Except.ok.injEq, Prod.mk.injEq] at hg
    obtain ⟨-, rfl⟩ := hg
    exact randomCase_inside clock
  · obtain ⟨⟨n, ps, hps⟩, hfood⟩ := hg
    obtain ⟨ps', hps'⟩ := hps.round ht
    refine ⟨⟨_, ps', hps'⟩, ?_⟩
    obtain ⟨l, hl⟩ := hps.steer e.cmd
    obtain ⟨d, hsteer, -⟩ := g.steer_eq e.cmd
    obtain ⟨second, rest, rfl⟩ := hps.ahead
    have hm := wp_ok (wp_moveSnake e.draws hl) ht
    by_cases hcase : (g.steer e.cmd).food = (second.toward g.direction).toward (g.steer e.cmd).direction
    · obtain ⟨clock, hclock⟩ := he _ (hm.eats hcase).1
      rw [hclock]
      exact randomCase_inside clock
    · rw [(hm.goes hcase).1, hsteer]
      exact hfood

end

end Xinul.Snake
