import Mathlib.Logic.Function.Basic

/-!
# The snake: `main.c`, `snake.c` and `helper_functions.c`

The body is a list of nodes in the pool of `malloc`, where an offset stands for a pointer.
The food is taken from the positions drawn by `random_case`, in the order they are drawn.
-/

namespace Xinul.Snake

def lines : Int := 20
def columns : Int := 20
/-- `MEMORY_SIZE`. -/
def memorySize : Nat := 1000

inductive Direction where
  | north
  | east
  | west
  | south
  deriving DecidableEq, Repr

structure Position where
  i : Int
  j : Int
  deriving DecidableEq, Repr

/-- `node_t`. -/
structure Node where
  p : Position
  next : Option Nat
  deriving DecidableEq, Repr

/-- `sizeof(node_t)` and `sizeof(snake_t)`. -/
def nodeSize : Nat := 16
def snakeSize : Nat := 16

/-- `game_t`, with the `snake_t` it points to and the memory of `malloc`. -/
structure Game where
  memoryPool : Nat → Option Node
  offset : Nat
  head : Option Nat
  direction : Direction
  food : Position
  speed : Int

/-- What ends a move, or keeps it from ending. -/
inductive Stop where
  /-- `GAME OVER`. -/
  | gameOver
  /-- The `exit(-1)` of `malloc`. -/
  | exit
  /-- Every position drawn so far is on the snake. -/
  | drawing
  /-- A read or write where there is no node. -/
  | badPointer
  /-- A walk along the body that does not end. -/
  | hang
  deriving DecidableEq, Repr

/-- `mod`. -/
def mod (a b : Int) : Int :=
  let r := Int.tmod a b
  if r < 0 then r + b else r

/-- The value of an `unsigned long` passed as an `int`. -/
def toInt (x : BitVec 64) : Int := (x.setWidth 32).toInt

/-- `random_case`, `clock` being what `current_clock` returns. -/
def randomCase (clock : BitVec 64) : Position :=
  let j := mod (toInt (clock ^^^ 0x8172f162019a89ff#64)) columns
  ⟨mod (toInt (BitVec.ofInt 64 j ^^^ 0xf22af2f8849e1b15#64)) lines, j⟩

abbrev GameM := StateT Game (Except Stop)

/-- `malloc`. -/
def malloc (size : Nat) : GameM Nat := do
  let g ← get
  if g.offset + size > memorySize then throw .exit
  modify fun g => { g with offset := g.offset + size }
  pure g.offset

/-- The node at a pointer. -/
def load : Option Nat → GameM Node
  | none => throw .badPointer
  | some p => do
    match (← get).memoryPool p with
    | none => throw .badPointer
    | some node => pure node

/-- The game with the node at `p` written. -/
def Game.store (g : Game) (p : Nat) (node : Node) : Game :=
  { g with memoryPool := Function.update g.memoryPool p (some node) }

/-- Writing to the node at a pointer. -/
def store : Option Nat → Node → GameM Unit
  | none, _ => throw .badPointer
  | some p, node => modify (·.store p node)

/-- The loop of `snake_in_case`, for at most so many nodes. -/
def inCaseFrom (target : Position) : Nat → Option Nat → GameM Bool
  | _, none => pure false
  | 0, some _ => throw .hang
  | n + 1, some curr => do
    let node ← load (some curr)
    if node.p.i = target.i ∧ node.p.j = target.j then pure true
    else inCaseFrom target n node.next

/-- `snake_in_case`; the pool has no more nodes than bytes. -/
def snakeInCase (target : Position) : GameM Bool := do
  inCaseFrom target memorySize (← get).head

/-- The position next to `p` in a direction. -/
def Position.toward (p : Position) : Direction → Position
  | .north => ⟨mod (p.i - 1) lines, p.j⟩
  | .south => ⟨mod (p.i + 1) lines, p.j⟩
  | .east => ⟨p.i, mod (p.j - 1) columns⟩
  | .west => ⟨p.i, mod (p.j + 1) columns⟩

/-- `get_next_case`. -/
def getNextCase : GameM Position := do
  let head ← load (← get).head
  pure (head.p.toward (← get).direction)

/-- `is_food_position`. -/
def Game.isFoodPosition (g : Game) (p : Position) : Bool := g.food.i = p.i ∧ g.food.j = p.j

/-- The loop that draws positions until one is not on the snake. -/
def placeFood : List Position → GameM Unit
  | [] => throw .drawing
  | p :: draws => do
    modify fun g => { g with food := p }
    if ← snakeInCase p then placeFood draws else pure ()

/-- The loop of `move_snake` that hands each node the position of the one before it, for at
most so many nodes. -/
def shift (prev : Position) : Nat → Option Nat → GameM Unit
  | _, none => pure ()
  | 0, some _ => throw .hang
  | n + 1, some curr => do
    let node ← load (some curr)
    store (some curr) { node with p := prev }
    shift node.p n node.next

/-- `move_snake`; `draws` are the positions `random_case` would give. -/
def moveSnake (draws : List Position) : GameM Unit := do
  let nextPos ← getNextCase
  if ← snakeInCase nextPos then throw .gameOver
  if (← get).isFoodPosition nextPos then
    let newHead ← malloc nodeSize
    modify fun g => { g.store newHead ⟨g.food, g.head⟩ with head := some newHead }
    placeFood draws
    modify fun g => { g with speed := g.speed - Int.tdiv (g.speed * 5) 100 }
  else
    let head ← load (← get).head
    shift head.p memorySize head.next
    let head ← load (← get).head
    store (← get).head { head with p := nextPos }

/-- The command is one of two letters. -/
def isKey (cmd : Int) (a b : Char) : Bool := cmd = a.toNat ∨ cmd = b.toNat

/-- The `switch` of `main` on the command received, if there is one. -/
def Game.steer (g : Game) : Option Int → Game
  | none => g
  | some cmd =>
    if isKey cmd 'k' 'w' then
      if g.direction ≠ .south then { g with direction := .north } else g
    else if isKey cmd 'j' 's' then
      if g.direction ≠ .north then { g with direction := .south } else g
    else if isKey cmd 'l' 'd' then
      if g.direction ≠ .east then { g with direction := .west } else g
    else if isKey cmd 'h' 'a' then
      if g.direction ≠ .west then { g with direction := .east } else g
    else g

/-- `create_snake`: the nodes of the tail and of the head and the `snake_t` are the first
three blocks of the pool. -/
def createSnake : GameM Unit := do
  let queue ← malloc nodeSize
  let head ← malloc nodeSize
  store (some queue) ⟨⟨5, 5⟩, none⟩
  store (some head) ⟨⟨5, 6⟩, some queue⟩
  let _ ← malloc snakeSize
  modify fun g => { g with head := some head, direction := .west }

/-- `main` up to its loop, `food` being the first position drawn. -/
def setUp (food : Position) : GameM Unit := do
  modify fun g => { g with offset := 0 }
  createSnake
  modify fun g => { g with food := food, speed := 500 }

/-- One turn of the loop of `main`: at most one command, and a move. -/
def round (cmd : Option Int) (draws : List Position) : GameM Unit := do
  modify (·.steer cmd)
  moveSnake draws

end Xinul.Snake
