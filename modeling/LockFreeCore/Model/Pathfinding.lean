import LockFreeCore.ToMathlib.BestFirst
import Mathlib.NumberTheory.Zsqrtd.Basic

/-! # A* and jump point search on a grid

Coordinates, sizes and indexes are the C `int`s of the source, far from overflow, and `/` and `%` are
C's. Costs are the exact numbers `a + b√2` where the source has `float`s. A recursion or a loop runs on
fuel, and a result is `none` when that runs out.

The two `findPath`s share their loop, which is a best-first search on the indexes of cells; they differ
in the successors of a cell and in how the path is put together at the end.
-/

namespace LockFreeCore

structure Point where
  x : ℤ
  y : ℤ
deriving DecidableEq, Repr

structure PathResult where
  found : Bool
  path : List Point
  nodesExpanded : ℕ
deriving DecidableEq, Repr

/-- `true` in `m_walls` is a wall. -/
structure Grid where
  m_width : ℤ
  m_height : ℤ
  m_walls : ℤ → Bool

namespace Grid

variable (grid : Grid)

def toIndex (x y : ℤ) : ℤ := y * grid.m_width + x

/-- The cell with an index. -/
def cell (index : ℤ) : Point := ⟨index.tmod grid.m_width, index.tdiv grid.m_width⟩

def isInBounds (x y : ℤ) : Bool := 0 ≤ x ∧ 0 ≤ y ∧ x < grid.m_width ∧ y < grid.m_height

def isWalkable (x y : ℤ) : Bool :=
  if grid.isInBounds x y = false then false else !grid.m_walls (grid.toIndex x y)

/-- `Grid(width, height)`. -/
def create (width height : ℤ) : Grid := ⟨width, height, fun _ => false⟩

def write (x y : ℤ) (wall : Bool) : Grid :=
  { grid with m_walls := Function.update grid.m_walls (grid.toIndex x y) wall }

def setWall (x y : ℤ) : Grid := if grid.isInBounds x y then grid.write x y true else grid

def clearWall (x y : ℤ) : Grid := if grid.isInBounds x y then grid.write x y false else grid

/-- `randomizeWalls`, by what `dist(rng) < wallRatio` is at each draw. -/
def randomizeWalls (drawn : ℕ → Bool) : Grid :=
  ((List.range grid.m_height.toNat).foldl (fun row y =>
    (List.range grid.m_width.toNat).foldl (fun (grid, draws) x => (grid.write x y (drawn draws), draws + 1)) row)
      (grid, 0)).1

/-- The calls that change a grid. -/
inductive Edit where
  | setWall (p : Point)
  | clearWall (p : Point)
  | randomizeWalls (drawn : ℕ → Bool)

end Grid

namespace Pathfinding

/-- `a + b√2`. -/
abbrev Cost := Zsqrtd ((2 : ℕ) : ℤ)

instance nonsquare_two : Zsqrtd.Nonsquare 2 where
  ns n square := by
    rcases Nat.lt_or_ge n 2 with small | large
    · have : n = 0 ∨ n = 1 := by omega
      rcases this with rfl | rfl <;> omega
    · have := Nat.mul_le_mul large large
      omega

def octileDistance (a b : Point) : Cost :=
  let dx : ℤ := (a.x - b.x).natAbs
  let dy : ℤ := (a.y - b.y).natAbs
  let minD := if dy < dx then dy else dx
  let maxD := if dx < dy then dy else dx
  ⟨maxD - minD, minD⟩

def canMoveDiagonally (grid : Grid) (x y dx dy : ℤ) : Bool :=
  grid.isWalkable (x + dx) y || grid.isWalkable x (y + dy)

/-- `DX` and `DY`. -/
def directions : List (ℤ × ℤ) :=
  [(1, 0), (-1, 0), (0, 1), (0, -1), (1, 1), (1, -1), (-1, 1), (-1, -1)]

/-- After the loop: the path from the cells on the way back from the goal, if that was reached. -/
def conclude (grid : Grid) (fuel : ℕ) (connect : List Point → Option (List Point))
    (ended : Option ℤ × BestFirst.Search ℤ Cost) : Option PathResult :=
  match ended.1 with
  | none => some { found := false, path := [], nodesExpanded := ended.2.nodesExpanded }
  | some index =>
    (BestFirst.parents ended.2.cameFrom fuel index).bind fun back =>
      (connect (back.reverse.map grid.cell)).map fun path =>
        { found := true, path, nodesExpanded := ended.2.nodesExpanded }

/-- What the two `findPath`s have in common. -/
def findPath (grid : Grid) (start goal : Point) (fuel : ℕ)
    (successors : ℤ → Option ℤ → Option (List (ℤ × Cost))) (connect : List Point → Option (List Point)) :
    Option PathResult :=
  if grid.isWalkable start.x start.y = false ∨ grid.isWalkable goal.x goal.y = false then
    some { found := false, path := [], nodesExpanded := 0 }
  else
    let estimate index := octileDistance (grid.cell index) goal
    (BestFirst.search successors (fun index => grid.cell index = goal) estimate fuel
      (BestFirst.init estimate (grid.toIndex start.x start.y))).bind (conclude grid fuel connect)

end Pathfinding

open Pathfinding

namespace AStar

/-- The neighbours of the current cell and the costs of stepping there. -/
def successors (grid : Grid) (currentIdx : ℤ) : List (ℤ × Cost) :=
  let c := grid.cell currentIdx
  directions.filterMap fun dir =>
    let nx := c.x + dir.1
    let ny := c.y + dir.2
    let isDiagonal := dir.1 ≠ 0 ∧ dir.2 ≠ 0
    if grid.isWalkable nx ny = false then none
    else if isDiagonal ∧ canMoveDiagonally grid c.x c.y dir.1 dir.2 = false then none
    else some (grid.toIndex nx ny, if isDiagonal then ⟨0, 1⟩ else ⟨1, 0⟩)

def findPath (grid : Grid) (start goal : Point) (fuel : ℕ) : Option PathResult :=
  Pathfinding.findPath grid start goal fuel (fun currentIdx _ => some (successors grid currentIdx)) some

end AStar

namespace JPS

/-- `(v > 0) - (v < 0)`. -/
def sign (v : ℤ) : ℤ := (if 0 < v then 1 else 0) - (if v < 0 then 1 else 0)

/-- The jump point ahead of `(x, y)` in the direction, if there is one. -/
def jump (grid : Grid) (goal : Point) : ℕ → ℤ → ℤ → ℤ → ℤ → Option (Option Point)
  | 0, _, _, _, _ => none
  | fuel + 1, x, y, dx, dy =>
    let nx := x + dx
    let ny := y + dy
    if grid.isWalkable nx ny = false then some none
    else if dx ≠ 0 ∧ dy ≠ 0 ∧ canMoveDiagonally grid x y dx dy = false then some none
    else if nx = goal.x ∧ ny = goal.y then some (some ⟨nx, ny⟩)
    else if dx ≠ 0 ∧ dy ≠ 0 then
      if (!grid.isWalkable (nx - dx) ny && grid.isWalkable (nx - dx) (ny + dy)) ||
          (!grid.isWalkable nx (ny - dy) && grid.isWalkable (nx + dx) (ny - dy)) then some (some ⟨nx, ny⟩)
      else
        (jump grid goal fuel nx ny dx 0).bind fun horizontal =>
          if horizontal.isSome then some (some ⟨nx, ny⟩)
          else (jump grid goal fuel nx ny 0 dy).bind fun vertical =>
            if vertical.isSome then some (some ⟨nx, ny⟩) else jump grid goal fuel nx ny dx dy
    else if dx ≠ 0 then
      if (!grid.isWalkable nx (ny + 1) && grid.isWalkable (nx + dx) (ny + 1)) ||
          (!grid.isWalkable nx (ny - 1) && grid.isWalkable (nx + dx) (ny - 1)) then some (some ⟨nx, ny⟩)
      else jump grid goal fuel nx ny dx dy
    else
      if (!grid.isWalkable (nx + 1) ny && grid.isWalkable (nx + 1) (ny + dy)) ||
          (!grid.isWalkable (nx - 1) ny && grid.isWalkable (nx - 1) (ny + dy)) then some (some ⟨nx, ny⟩)
      else jump grid goal fuel nx ny dx dy

def prunedDirections (grid : Grid) (x y : ℤ) (parent : Option Point) : List (ℤ × ℤ) :=
  match parent with
  | none => directions
  | some p =>
    let dx := sign (x - p.x)
    let dy := sign (y - p.y)
    if dx ≠ 0 ∧ dy ≠ 0 then
      (if grid.isWalkable x (y + dy) then [(0, dy)] else []) ++
      (if grid.isWalkable (x + dx) y then [(dx, 0)] else []) ++
      (if canMoveDiagonally grid x y dx dy then [(dx, dy)] else []) ++
      (if !grid.isWalkable (x - dx) y && grid.isWalkable x (y + dy) then [(-dx, dy)] else []) ++
      (if !grid.isWalkable x (y - dy) && grid.isWalkable (x + dx) y then [(dx, -dy)] else [])
    else if dx ≠ 0 then
      (if grid.isWalkable (x + dx) y then [(dx, 0)] else []) ++
      (if !grid.isWalkable x (y + 1) && grid.isWalkable (x + dx) (y + 1) then [(dx, 1)] else []) ++
      (if !grid.isWalkable x (y - 1) && grid.isWalkable (x + dx) (y - 1) then [(dx, -1)] else [])
    else if dy ≠ 0 then
      (if grid.isWalkable x (y + dy) then [(0, dy)] else []) ++
      (if !grid.isWalkable (x + 1) y && grid.isWalkable (x + 1) (y + dy) then [(1, dy)] else []) ++
      (if !grid.isWalkable (x - 1) y && grid.isWalkable (x - 1) (y + dy) then [(-1, dy)] else [])
    else []

/-- The jump points of the current cell and the costs of the rays to them. -/
def successors (grid : Grid) (goal : Point) (fuel : ℕ) (currentIdx : ℤ) (cameFrom : Option ℤ) :
    Option (List (ℤ × Cost)) :=
  let c := grid.cell currentIdx
  let dirs := prunedDirections grid c.x c.y (cameFrom.map grid.cell)
  (dirs.mapM fun dir => jump grid goal fuel c.x c.y dir.1 dir.2).map fun jumpPoints =>
    jumpPoints.reduceOption.map fun jumpPoint =>
      (grid.toIndex jumpPoint.x jumpPoint.y, octileDistance c jumpPoint)

/-- The cells from one waypoint on to the next. -/
def fill (target : Point) (stepX stepY : ℤ) : ℕ → Point → Option (List Point)
  | 0, _ => none
  | fuel + 1, cur =>
    if cur.x = target.x ∧ cur.y = target.y then some []
    else
      let cur : Point := ⟨cur.x + stepX, cur.y + stepY⟩
      (fill target stepX stepY fuel cur).map fun rest => cur :: rest

/-- The cells after the first waypoint. -/
def segments (fuel : ℕ) : List Point → Option (List Point)
  | source :: target :: rest =>
    (fill target (sign (target.x - source.x)) (sign (target.y - source.y)) fuel source).bind fun segment =>
      (segments fuel (target :: rest)).map fun path => segment ++ path
  | _ => some []

def connect (fuel : ℕ) (waypoints : List Point) : Option (List Point) :=
  waypoints.head?.bind fun first => (segments fuel waypoints).map fun path => first :: path

def findPath (grid : Grid) (start goal : Point) (fuel : ℕ) : Option PathResult :=
  Pathfinding.findPath grid start goal fuel (successors grid goal fuel) (connect fuel)

end JPS

end LockFreeCore
