import LockFreeCore.ToMathlib.FiniteMap
import LockFreeCore.ToMathlib.RedBlackTree
import Mathlib.Data.Int.Notation
import Mathlib.Logic.Function.Basic

/-! # The session table

The tree of `Map.h` as nodes in a heap. `m_nil` is the first allocation and the pointer 0; a freed
node is gone from the heap, and following a pointer to no node is `none`. Code that the source
writes twice, once for each side, is written once for a side. Loops are given fuel and are `none`
without it. The `int` `m_count` is far from overflow: there is a node for each key it counts.
-/

namespace LockFreeCore

open RedBlack (Color Side)

abbrev Addr := ℕ

structure Map.Node (K V : Type) where
  key : K
  value : V
  color : Color
  left : Addr
  right : Addr
  parent : Addr

structure Map (K V : Type) where
  heap : Addr → Option (Map.Node K V)
  /-- The address of the next allocation. -/
  next : Addr
  m_root : Addr
  m_count : ℤ

namespace Map

variable {K V : Type}

def m_nil : Addr := 0

def Node.child (side : Side) (node : Node K V) : Addr :=
  match side with
  | .left => node.left
  | .right => node.right

def Node.setChild (side : Side) (target : Addr) (node : Node K V) : Node K V :=
  match side with
  | .left => { node with left := target }
  | .right => { node with right := target }

/-- `Map()`. -/
def empty [Inhabited K] [Inhabited V] : Map K V where
  heap := Function.update (fun _ => none) m_nil (some ⟨default, default, .black, m_nil, m_nil, m_nil⟩)
  next := 1
  m_root := m_nil
  m_count := 0

variable (m : Map K V)

def child (side : Side) (x : Addr) : Option Addr := (m.heap x).map (Node.child side)
def parent (x : Addr) : Option Addr := (m.heap x).map Node.parent
def color (x : Addr) : Option Color := (m.heap x).map Node.color

def write (x : Addr) (node : Option (Node K V)) : Map K V := { m with heap := Function.update m.heap x node }

def modify (x : Addr) (change : Node K V → Node K V) : Option (Map K V) :=
  (m.heap x).map fun node => m.write x (some (change node))

def setChild (side : Side) (x target : Addr) : Option (Map K V) := m.modify x (Node.setChild side target)
def setParent (x target : Addr) : Option (Map K V) := m.modify x fun node => { node with parent := target }
def setColor (x : Addr) (color : Color) : Option (Map K V) := m.modify x fun node => { node with color }
def setValue (x : Addr) (value : V) : Option (Map K V) := m.modify x fun node => { node with value }

/-- The node that has `u` as a child, `p`, gets `v` in its place; without one `v` is the root. The
child on `side` is compared first. -/
def relink (side : Side) (p u v : Addr) : Option (Map K V) :=
  if p = m_nil then some { m with m_root := v }
  else do
    if u = (← m.child side p) then m.setChild side p v
    else m.setChild side.other p v

/-- `rotateLeft` and `rotateRight`: the child of `x` on the other side comes above it. -/
def rotate (side : Side) (x : Addr) : Option (Map K V) := do
  let y ← m.child side.other x
  let inner ← m.child side y
  let m ← m.setChild side.other x inner
  let m ← (if inner ≠ m_nil then m.setParent inner x else some m)
  let m ← m.setParent y (← m.parent x)
  let m ← m.relink side (← m.parent x) x y
  let m ← m.setChild side y x
  m.setParent x y

def rotateLeft (x : Addr) : Option (Map K V) := m.rotate .left x
def rotateRight (x : Addr) : Option (Map K V) := m.rotate .right x

/-- The body of the loop of `insertFixup`, for a parent that is the child of its own on `side`: the
map, and the next `z`. -/
def insertFixupBody (side : Side) (z : Addr) : Option (Map K V × Addr) := do
  let p ← m.parent z
  let g ← m.parent p
  let y ← m.child side.other g
  if (← m.color y) = .red then
    let m ← m.setColor p .black
    let m ← m.setColor y .black
    let m ← m.setColor g .red
    some (m, g)
  else
    let (m, z) ←
      (if z = (← m.child side.other p) then (m.rotate side p).map fun m => (m, p) else some (m, z))
    let p ← m.parent z
    let m ← m.setColor p .black
    let g ← m.parent p
    let m ← m.setColor g .red
    let m ← m.rotate side.other g
    some (m, z)

def insertFixup : ℕ → Map K V → Addr → Option (Map K V)
  | 0, _, _ => none
  | fuel + 1, m, z => do
    let p ← m.parent z
    if (← m.color p) = .red then
      let side := if p = (← m.child .left (← m.parent p)) then Side.left else Side.right
      let (m, z) ← m.insertFixupBody side z
      insertFixup fuel m z
    else m.setColor m.m_root .black

section Search

variable [DecidableEq K] [LT K] [DecidableLT K]

/-- The loop of `findNode`, at `cur`. -/
def findNode (m : Map K V) (key : K) : ℕ → Addr → Option Addr
  | 0, _ => none
  | fuel + 1, cur =>
    if cur ≠ m_nil then do
      let node ← m.heap cur
      if key = node.key then some cur
      else findNode m key fuel (if key < node.key then node.left else node.right)
    else some m_nil

/-- The nodes that the loop of `findNode` visits. -/
def visited (m : Map K V) (key : K) : ℕ → Addr → List Addr
  | 0, _ => []
  | fuel + 1, cur =>
    if cur ≠ m_nil then
      (m.heap cur).elim [] fun node =>
        cur :: (if key = node.key then []
          else visited m key fuel (if key < node.key then node.left else node.right))
    else []

/-- The descent of `insert`: the node that gets the new one as a child. -/
def descend (m : Map K V) (key : K) : ℕ → Addr → Addr → Option Addr
  | 0, _, _ => none
  | fuel + 1, y, x =>
    if x ≠ m_nil then do
      let node ← m.heap x
      descend m key fuel x (if key < node.key then node.left else node.right)
    else some y

def insert (m : Map K V) (key : K) (value : V) : Option (Map K V) := do
  let existing ← m.findNode key m.next m.m_root
  if existing ≠ m_nil then m.setValue existing value
  else
    let z := m.next
    let m := { m.write z (some ⟨key, value, .red, m_nil, m_nil, m_nil⟩) with next := m.next + 1 }
    let y ← m.descend key m.next m_nil m.m_root
    let m ← m.setParent z y
    let m ←
      (if y = m_nil then some { m with m_root := z }
      else do
        if key < (← m.heap y).key then m.setChild .left y z else m.setChild .right y z)
    insertFixup m.next { m with m_count := m.m_count + 1 } z

/-- `find`: the value that `outValue` is set to, when it is. -/
def find (m : Map K V) (key : K) : Option (Option V) := do
  let node ← m.findNode key m.next m.m_root
  if node = m_nil then some none else (m.heap node).map fun node => some node.value

end Search

def transplant (u v : Addr) : Option (Map K V) := do
  let p ← m.parent u
  let m ← m.relink .left p u v
  m.setParent v (← m.parent u)

def minimum (m : Map K V) : ℕ → Addr → Option Addr
  | 0, _ => none
  | fuel + 1, x => do
    let left ← m.child .left x
    if left ≠ m_nil then minimum m fuel left else some x

/-- The part of the loop body of `eraseFixup` after the test for a red sibling, with sibling `w`. -/
def eraseFixupBlack (side : Side) (x w : Addr) : Option (Map K V × Addr) := do
  if (← m.color (← m.child side w)) = .black ∧ (← m.color (← m.child side.other w)) = .black then
    let m ← m.setColor w .red
    let x ← m.parent x
    some (m, x)
  else
    let (m, w) ←
      (if (← m.color (← m.child side.other w)) = .black then do
        let m ← m.setColor (← m.child side w) .black
        let m ← m.setColor w .red
        let m ← m.rotate side.other w
        let w ← m.child side.other (← m.parent x)
        some (m, w)
      else some (m, w))
    let p ← m.parent x
    let m ← m.setColor w (← m.color p)
    let m ← m.setColor p .black
    let m ← m.setColor (← m.child side.other w) .black
    let m ← m.rotate side p
    some (m, m.m_root)

/-- The body of the loop of `eraseFixup`, for an `x` that is the child of its parent on `side`: the
map, and the next `x`. -/
def eraseFixupBody (side : Side) (x : Addr) : Option (Map K V × Addr) := do
  let p ← m.parent x
  let w ← m.child side.other p
  let (m, w) ←
    (if (← m.color w) = .red then do
      let m ← m.setColor w .black
      let m ← m.setColor p .red
      let m ← m.rotate side p
      let w ← m.child side.other (← m.parent x)
      some (m, w)
    else some (m, w))
  m.eraseFixupBlack side x w

def eraseFixup : ℕ → Map K V → Addr → Option (Map K V)
  | 0, _, _ => none
  | fuel + 1, m, x => do
    if x ≠ m.m_root ∧ (← m.color x) = .black then
      let side := if x = (← m.child .left (← m.parent x)) then Side.left else Side.right
      let (m, x) ← m.eraseFixupBody side x
      eraseFixup fuel m x
    else m.setColor x .black

/-- `delete` of a node. -/
def delete (x : Addr) : Option (Map K V) := (m.heap x).map fun _ => m.write x none

def clear : ℕ → Map K V → Addr → Option (Map K V)
  | 0, _, _ => none
  | fuel + 1, m, node =>
    if node = m_nil then some m
    else do
      let m ← clear fuel m (← m.child .left node)
      let m ← clear fuel m (← m.child .right node)
      m.delete node

/-- `~Map()`. -/
def destroy : Option (Map K V) := do
  let m ← clear m.next m m.m_root
  m.delete m_nil

section Checked

def IsReal (x : Addr) : Prop := x ≠ m_nil ∧ (m.heap x).isSome

instance (x : Addr) : Decidable (m.IsReal x) := inferInstanceAs (Decidable (_ ∧ _))

/-- `rotate`, if `x` and the child that comes above it are real nodes and `m_nil` keeps its parent. -/
def rotateChecked (side : Side) (x : Addr) : Option (Map K V) := do
  let y ← m.child side.other x
  guard (m.IsReal x ∧ m.IsReal y)
  let turned ← m.rotate side x
  guard (turned.parent m_nil = m.parent m_nil)
  some turned

def setColorChecked (x : Addr) (color : Color) : Option (Map K V) := do
  guard (color = .red → x ≠ m_nil)
  m.setColor x color

/-- `eraseFixupBlack` with checked steps, if every sibling it takes is a real node. -/
def eraseFixupBlackChecked (side : Side) (x w : Addr) : Option (Map K V × Addr) := do
  guard (m.IsReal w)
  if (← m.color (← m.child side w)) = .black ∧ (← m.color (← m.child side.other w)) = .black then
    let m ← m.setColorChecked w .red
    let x ← m.parent x
    some (m, x)
  else
    let (m, w) ←
      (if (← m.color (← m.child side.other w)) = .black then do
        let m ← m.setColorChecked (← m.child side w) .black
        let m ← m.setColorChecked w .red
        let m ← m.rotateChecked side.other w
        let w ← m.child side.other (← m.parent x)
        guard (m.IsReal w)
        some (m, w)
      else some (m, w))
    let p ← m.parent x
    let m ← m.setColorChecked w (← m.color p)
    let m ← m.setColorChecked p .black
    let m ← m.setColorChecked (← m.child side.other w) .black
    let m ← m.rotateChecked side p
    some (m, m.m_root)

/-- `eraseFixupBody` with checked steps. -/
def eraseFixupBodyChecked (side : Side) (x : Addr) : Option (Map K V × Addr) := do
  let p ← m.parent x
  let w ← m.child side.other p
  guard (m.IsReal w)
  let (m, w) ←
    (if (← m.color w) = .red then do
      let m ← m.setColorChecked w .black
      let m ← m.setColorChecked p .red
      let m ← m.rotateChecked side p
      let w ← m.child side.other (← m.parent x)
      some (m, w)
    else some (m, w))
  m.eraseFixupBlackChecked side x w

/-- `eraseFixup` with checked passes: `x` hangs under a real node, on the side that the test picks and
on no other. -/
def eraseFixupChecked : ℕ → Map K V → Addr → Option (Map K V)
  | 0, _, _ => none
  | fuel + 1, m, x => do
    if x ≠ m.m_root ∧ (← m.color x) = .black then
      let p ← m.parent x
      let side := if x = (← m.child .left p) then Side.left else Side.right
      guard (m.IsReal p ∧ m.child side p = some x ∧ m.child side.other p ≠ some x)
      let (m, x) ← m.eraseFixupBodyChecked side x
      eraseFixupChecked fuel m x
    else m.setColorChecked x .black

end Checked

/-- Taking the node `z` out of the tree: the map, the `x` that moved up, and `yOriginalColor`. -/
def unlink (z : Addr) : Option (Map K V × Addr × Color) := do
  let left ← m.child .left z
  let right ← m.child .right z
  let yOriginalColor ← m.color z
  if left = m_nil then
    let m ← m.transplant z right
    some (m, right, yOriginalColor)
  else if right = m_nil then
    let m ← m.transplant z left
    some (m, left, yOriginalColor)
  else
    let y ← m.minimum m.next right
    let yOriginalColor ← m.color y
    let x ← m.child .right y
    let m ←
      (if (← m.parent y) = z then m.setParent x y
      else do
        let m ← m.transplant y x
        let m ← m.setChild .right y (← m.child .right z)
        m.setParent (← m.child .right y) y)
    let m ← m.transplant z y
    let m ← m.setChild .left y (← m.child .left z)
    let m ← m.setParent (← m.child .left y) y
    let m ← m.setColor y (← m.color z)
    some (m, x, yOriginalColor)

variable [DecidableEq K] [LT K] [DecidableLT K]

/-- `erase`, with the value it returns. -/
def erase (key : K) : Option (Map K V × Bool) := do
  let z ← m.findNode key m.next m.m_root
  if z = m_nil then some (m, false)
  else
    let (m, x, yOriginalColor) ← m.unlink z
    let m ← (if yOriginalColor = .black then eraseFixup m.next m x else some m)
    let m := m.write z none
    some ({ m with m_count := m.m_count - 1 }, true)

/-- `erase` with a checked `eraseFixup`. -/
def eraseChecked (key : K) : Option (Map K V × Bool) := do
  let z ← m.findNode key m.next m.m_root
  if z = m_nil then some (m, false)
  else
    let (m, x, yOriginalColor) ← m.unlink z
    let m ← (if yOriginalColor = .black then eraseFixupChecked m.next m x else some m)
    let m := m.write z none
    some ({ m with m_count := m.m_count - 1 }, true)

def getCount : ℤ := m.m_count

def call (m : Map K V) : FiniteMap.Call K V → Option (Map K V × FiniteMap.Reply V)
  | .insert key value => (m.insert key value).map fun m => (m, .inserted)
  | .erase key => (m.erase key).map fun (m, present) => (m, .erased present)
  | .find key => (m.find key).map fun value => (m, .found value)

end Map

end LockFreeCore
