import LockFreeCore.Model.Pathfinding
import Mathlib.Algebra.Group.InjSurj
import Mathlib.Algebra.Group.Prod
import Mathlib.Data.Finset.Prod
import Mathlib.Data.Finset.Range
import Mathlib.Tactic.Linarith

/-! # Legal paths and what they cost

A path is legal when its cells are open and each step goes to one of the eight neighbours, a diagonal
step only when one of the two cells beside it is open. It costs as many straight and as many diagonal
steps as it takes, and since `√2` is irrational the cost determines both numbers.
-/

namespace LockFreeCore

namespace Point

instance : Zero Point := ⟨⟨0, 0⟩⟩

instance : Add Point := ⟨fun p q => ⟨p.x + q.x, p.y + q.y⟩⟩

instance : Neg Point := ⟨fun p => ⟨-p.x, -p.y⟩⟩

instance : Sub Point := ⟨fun p q => ⟨p.x - q.x, p.y - q.y⟩⟩

instance : SMul ℕ Point := ⟨fun k p => ⟨k • p.x, k • p.y⟩⟩

instance : SMul ℤ Point := ⟨fun k p => ⟨k • p.x, k • p.y⟩⟩

@[ext] theorem ext {p q : Point} (x : p.x = q.x) (y : p.y = q.y) : p = q := by
  cases p
  cases q
  exact congrArg₂ mk x y

instance : AddCommGroup Point :=
  Function.Injective.addCommGroup (fun p : Point => (p.x, p.y))
    (fun _ _ same => ext (congrArg Prod.fst same) (congrArg Prod.snd same)) rfl (fun _ _ => rfl)
    (fun _ => rfl) (fun _ _ => rfl) (fun _ _ => rfl) (fun _ _ => rfl)

@[simp] theorem zero_x : (0 : Point).x = 0 := rfl
@[simp] theorem zero_y : (0 : Point).y = 0 := rfl
@[simp] theorem add_x (p q : Point) : (p + q).x = p.x + q.x := rfl
@[simp] theorem add_y (p q : Point) : (p + q).y = p.y + q.y := rfl
@[simp] theorem neg_x (p : Point) : (-p).x = -p.x := rfl
@[simp] theorem neg_y (p : Point) : (-p).y = -p.y := rfl
@[simp] theorem sub_x (p q : Point) : (p - q).x = p.x - q.x := rfl
@[simp] theorem sub_y (p q : Point) : (p - q).y = p.y - q.y := rfl
@[simp] theorem smul_x (k : ℕ) (p : Point) : (k • p).x = k * p.x := nsmul_eq_mul k p.x
@[simp] theorem smul_y (k : ℕ) (p : Point) : (k • p).y = k * p.y := nsmul_eq_mul k p.y

/-- One step along a row or a column. -/
def Axis (u : Point) : Prop := (u.y = 0 ∧ (u.x = 1 ∨ u.x = -1)) ∨ (u.x = 0 ∧ (u.y = 1 ∨ u.y = -1))

/-- A step along a row and one along a column, in either order. -/
structure Perp (u v : Point) : Prop where
  left : u.Axis
  right : v.Axis
  cross : u.x = 0 ↔ v.y = 0

theorem Perp.symm {u v : Point} (perp : Perp u v) : Perp v u := by
  obtain ⟨left, right, cross⟩ := perp
  refine ⟨right, left, ?_⟩
  unfold Axis at left right
  omega

/-- One of the two lies along the row, the other along the column. -/
theorem Perp.axes {u v : Point} (perp : Perp u v) : (u.y = 0 ∧ v.x = 0) ∨ (u.x = 0 ∧ v.y = 0) := by
  obtain ⟨left, right, cross⟩ := perp
  unfold Axis at left right
  omega

theorem Axis.neg {u : Point} (axis : u.Axis) : (-u).Axis := by
  unfold Axis at axis ⊢
  simp only [neg_x, neg_y]
  omega

theorem Perp.neg_right {u v : Point} (perp : Perp u v) : Perp u (-v) :=
  ⟨perp.left, perp.right.neg, by rw [neg_y, neg_eq_zero]; exact perp.cross⟩

theorem Perp.neg_left {u v : Point} (perp : Perp u v) : Perp (-u) v := perp.symm.neg_right.symm

end Point

/-- The cell can be walked on. -/
def Grid.Open (grid : Grid) (p : Point) : Prop := grid.isWalkable p.x p.y = true

namespace Grid

variable {grid : Grid} {p : Point}

theorem Open.bounds (isOpen : grid.Open p) :
    0 ≤ p.x ∧ 0 ≤ p.y ∧ p.x < grid.m_width ∧ p.y < grid.m_height := by
  unfold Open isWalkable at isOpen
  split_ifs at isOpen with outside
  rw [Bool.not_eq_false] at outside
  exact of_decide_eq_true outside

/-- An open cell is the cell with its index. -/
theorem Open.cell_toIndex (isOpen : grid.Open p) : grid.cell (grid.toIndex p.x p.y) = p := by
  obtain ⟨left, top, right, _⟩ := isOpen.bounds
  have low : 0 ≤ p.y * grid.m_width + p.x := add_nonneg (mul_nonneg top (by omega)) left
  ext
  · change (p.y * grid.m_width + p.x).tmod grid.m_width = p.x
    rw [Int.tmod_eq_emod_of_nonneg low, add_comm, Int.add_mul_emod_self_right, Int.emod_eq_of_lt left right]
  · change (p.y * grid.m_width + p.x).tdiv grid.m_width = p.y
    rw [Int.tdiv_eq_ediv_of_nonneg low, add_comm, Int.add_mul_ediv_right _ _ (by omega),
      Int.ediv_eq_zero_of_lt left right, zero_add]

variable (grid)

/-- The indexes of the open cells. -/
def cells : Finset ℤ :=
  ((Finset.range grid.m_width.toNat ×ˢ Finset.range grid.m_height.toNat).filter fun p =>
    grid.isWalkable p.1 p.2 = true).image fun p => grid.toIndex p.1 p.2

variable {grid}

theorem mem_cells {index : ℤ} : index ∈ grid.cells ↔ ∃ p, grid.Open p ∧ index = grid.toIndex p.x p.y := by
  simp only [cells, Finset.mem_image, Finset.mem_filter, Finset.mem_product, Finset.mem_range, Prod.exists]
  constructor
  · rintro ⟨x, y, ⟨_, isOpen⟩, rfl⟩
    exact ⟨⟨x, y⟩, isOpen, rfl⟩
  · rintro ⟨⟨x, y⟩, isOpen, rfl⟩
    obtain ⟨left, top, right, bottom⟩ := isOpen.bounds
    lift x to ℕ using left
    lift y to ℕ using top
    exact ⟨x, y, ⟨⟨Int.lt_toNat.mpr right, Int.lt_toNat.mpr bottom⟩, isOpen⟩, rfl⟩

end Grid

namespace Pathfinding

open Point

/-! ## Costs -/

/-- Costs compare by two integers: `1 < √2 < 2`. -/
theorem cost_nonneg {a b : ℤ} (one : 0 ≤ a + b) (two : 0 ≤ a + 2 * b) : (0 : Cost) ≤ ⟨a, b⟩ := by
  have low : (0 : Cost) ≤ ⟨-1, 1⟩ := by decide
  have high : (0 : Cost) ≤ ⟨2, -1⟩ := by decide
  have split : (⟨a, b⟩ : Cost) = ((a + 2 * b : ℤ) : Cost) * ⟨-1, 1⟩ + ((a + b : ℤ) : Cost) * ⟨2, -1⟩ := by
    ext <;> simp <;> ring
  rw [split]
  exact add_nonneg (mul_nonneg (Int.cast_nonneg two) low) (mul_nonneg (Int.cast_nonneg one) high)

theorem cost_le {a b c d : ℤ} (one : a + b ≤ c + d) (two : a + 2 * b ≤ c + 2 * d) :
    (⟨a, b⟩ : Cost) ≤ ⟨c, d⟩ := by
  rw [← sub_nonneg]
  have := @cost_nonneg (c - a) (d - b) (by omega) (by omega)
  exact this

/-- The two parts of an octile distance are determined by the longer side and the sum of both. -/
theorem octileDistance_parts (p q : Point) :
    ((octileDistance p q).re + (octileDistance p q).im = (p.x - q.x).natAbs ∨
      (octileDistance p q).re + (octileDistance p q).im = (p.y - q.y).natAbs) ∧
    (p.x - q.x).natAbs ≤ (octileDistance p q).re + (octileDistance p q).im ∧
    (p.y - q.y).natAbs ≤ (octileDistance p q).re + (octileDistance p q).im ∧
    (octileDistance p q).re + 2 * (octileDistance p q).im = (p.x - q.x).natAbs + (p.y - q.y).natAbs := by
  simp only [octileDistance]
  generalize (p.x - q.x).natAbs = dx
  generalize (p.y - q.y).natAbs = dy
  split_ifs <;> omega

theorem octileDistance_self (p : Point) : octileDistance p p = 0 := by
  simp [octileDistance]
  rfl

theorem octileDistance_pos {p q : Point} (other : ¬ (p.x = q.x ∧ p.y = q.y)) : 0 < octileDistance p q := by
  obtain ⟨sides, x, y, sum⟩ := octileDistance_parts p q
  have nonneg : 0 ≤ octileDistance p q := cost_nonneg (by omega) (by omega)
  refine lt_of_le_of_ne nonneg fun zero => other ?_
  have straight : (octileDistance p q).re = 0 := congrArg Zsqrtd.re zero.symm
  have diagonal : (octileDistance p q).im = 0 := congrArg Zsqrtd.im zero.symm
  omega

theorem octileDistance_triangle (p q r : Point) :
    octileDistance p r ≤ octileDistance p q + octileDistance q r := by
  have parts := octileDistance_parts p r
  have parts' := octileDistance_parts p q
  have parts'' := octileDistance_parts q r
  have x : (p.x - r.x).natAbs ≤ (p.x - q.x).natAbs + (q.x - r.x).natAbs := by omega
  have y : (p.y - r.y).natAbs ≤ (p.y - q.y).natAbs + (q.y - r.y).natAbs := by omega
  exact @cost_le _ _ ((octileDistance p q).re + (octileDistance q r).re)
    ((octileDistance p q).im + (octileDistance q r).im) (by omega -splitNatAbs) (by omega -splitNatAbs)

/-- A straight ray costs its length. -/
theorem octileDistance_axis (p : Point) {u : Point} (axis : u.Axis) (k : ℕ) :
    octileDistance p (p + k • u) = ⟨k, 0⟩ := by
  unfold Axis at axis
  have x : (p.x - (p + k • u).x).natAbs = k * u.x.natAbs := by
    rw [add_x, smul_x, sub_add_cancel_left, Int.natAbs_neg, Int.natAbs_mul, Int.natAbs_natCast]
  have y : (p.y - (p + k • u).y).natAbs = k * u.y.natAbs := by
    rw [add_y, smul_y, sub_add_cancel_left, Int.natAbs_neg, Int.natAbs_mul, Int.natAbs_natCast]
  have parts := octileDistance_parts p (p + k • u)
  have sides : u.x.natAbs = 1 ∧ u.y.natAbs = 0 ∨ u.x.natAbs = 0 ∧ u.y.natAbs = 1 := by omega
  rw [x, y] at parts
  rcases sides with ⟨one, zero⟩ | ⟨zero, one⟩
  · rw [one, zero, mul_one, mul_zero] at parts
    ext <;> dsimp only <;> omega
  · rw [one, zero, mul_one, mul_zero] at parts
    ext <;> dsimp only <;> omega

/-- A diagonal ray costs `√2` for each step. -/
theorem octileDistance_perp (p : Point) {u v : Point} (perp : Perp u v) (k : ℕ) :
    octileDistance p (p + k • (u + v)) = ⟨0, k⟩ := by
  obtain ⟨left, right, cross⟩ := perp
  unfold Axis at left right
  have x : (p.x - (p + k • (u + v)).x).natAbs = k * (u.x + v.x).natAbs := by
    rw [add_x, smul_x, sub_add_cancel_left, Int.natAbs_neg, Int.natAbs_mul, Int.natAbs_natCast, add_x]
  have y : (p.y - (p + k • (u + v)).y).natAbs = k * (u.y + v.y).natAbs := by
    rw [add_y, smul_y, sub_add_cancel_left, Int.natAbs_neg, Int.natAbs_mul, Int.natAbs_natCast, add_y]
  have one : (u.x + v.x).natAbs = 1 := by omega
  have one' : (u.y + v.y).natAbs = 1 := by omega
  have parts := octileDistance_parts p (p + k • (u + v))
  rw [x, y, one, one', mul_one] at parts
  ext <;> dsimp only <;> omega

/-! ## Walks -/

variable {grid : Grid} {p q r : Point}

/-- From `p` one can walk to the cell, with so many straight and so many diagonal steps. -/
inductive Walk (grid : Grid) (p : Point) : Point → ℕ → ℕ → Prop
  | stay (isOpen : grid.Open p) : Walk grid p p 0 0
  | straight {q u : Point} {a b : ℕ} (walk : Walk grid p q a b) (axis : u.Axis)
      (isOpen : grid.Open (q + u)) : Walk grid p (q + u) (a + 1) b
  | diagonal {q u v : Point} {a b : ℕ} (walk : Walk grid p q a b) (perp : Perp u v)
      (beside : grid.Open (q + u) ∨ grid.Open (q + v)) (isOpen : grid.Open (q + u + v)) :
      Walk grid p (q + u + v) a (b + 1)

namespace Walk

variable {a b c d : ℕ}

theorem open_right (walk : Walk grid p q a b) : grid.Open q := by
  cases walk with
  | stay isOpen => exact isOpen
  | straight _ _ isOpen => exact isOpen
  | diagonal _ _ _ isOpen => exact isOpen

theorem open_left (walk : Walk grid p q a b) : grid.Open p := by
  induction walk with
  | stay isOpen => exact isOpen
  | straight _ _ _ ih => exact ih
  | diagonal _ _ _ _ ih => exact ih

theorem trans (first : Walk grid p q a b) (second : Walk grid q r c d) :
    Walk grid p r (a + c) (b + d) := by
  induction second with
  | stay _ => exact first
  | straight _ axis isOpen ih => exact ih.straight axis isOpen
  | diagonal _ perp beside isOpen ih => exact ih.diagonal perp beside isOpen

/-- A walk to another cell begins with a straight or a diagonal step. -/
theorem head (walk : Walk grid p q a b) :
    (p = q ∧ a = 0 ∧ b = 0) ∨
    (∃ u a', u.Axis ∧ a = a' + 1 ∧ Walk grid (p + u) q a' b) ∨
    ∃ u v b', Perp u v ∧ (grid.Open (p + u) ∨ grid.Open (p + v)) ∧ b = b' + 1 ∧
      Walk grid (p + u + v) q a b' := by
  induction walk with
  | stay _ => exact .inl ⟨rfl, rfl, rfl⟩
  | straight walk axis isOpen ih =>
    rcases ih with ⟨rfl, rfl, rfl⟩ | ⟨u, a', axis', rfl, rest⟩ | ⟨u, v, b', perp, beside, rfl, rest⟩
    · exact .inr (.inl ⟨_, 0, axis, rfl, .stay isOpen⟩)
    · exact .inr (.inl ⟨u, a' + 1, axis', rfl, rest.straight axis isOpen⟩)
    · exact .inr (.inr ⟨u, v, b', perp, beside, rfl, rest.straight axis isOpen⟩)
  | diagonal walk perp beside isOpen ih =>
    rcases ih with ⟨rfl, rfl, rfl⟩ | ⟨u, a', axis', rfl, rest⟩ | ⟨u, v, b', perp', beside', rfl, rest⟩
    · exact .inr (.inr ⟨_, _, 0, perp, beside, rfl, .stay isOpen⟩)
    · exact .inr (.inl ⟨u, a', axis', rfl, rest.diagonal perp beside isOpen⟩)
    · exact .inr (.inr ⟨u, v, b' + 1, perp', beside', rfl, rest.diagonal perp beside isOpen⟩)

end Walk

/-! ## Paths -/

/-- A legal move: to another of the eight neighbours, both cells open, and diagonally only when one of
the cells beside the move is open. -/
structure Move (grid : Grid) (p q : Point) : Prop where
  source : grid.Open p
  target : grid.Open q
  moves : p ≠ q
  near : (q.x - p.x).natAbs ≤ 1 ∧ (q.y - p.y).natAbs ≤ 1
  beside : q.x ≠ p.x → q.y ≠ p.y → grid.Open ⟨q.x, p.y⟩ ∨ grid.Open ⟨p.x, q.y⟩

/-- The path leads from the start to the goal by legal moves. -/
structure LegalPath (grid : Grid) (start goal : Point) (path : List Point) : Prop where
  starts : path.head? = some start
  ends : path.getLast? = some goal
  walkable : ∀ p ∈ path, grid.Open p
  moves : path.IsChain (Move grid)

def stepCost (p q : Point) : Cost := if q.x ≠ p.x ∧ q.y ≠ p.y then ⟨0, 1⟩ else ⟨1, 0⟩

def pathCost : List Point → Cost
  | p :: q :: rest => stepCost p q + pathCost (q :: rest)
  | _ => 0

/-- A legal move is a straight or a diagonal step, at its cost. -/
theorem Move.step (move : Move grid p q) :
    (∃ u, Axis u ∧ q = p + u ∧ stepCost p q = ⟨1, 0⟩) ∨
    ∃ u v, Perp u v ∧ q = p + u + v ∧ (grid.Open (p + u) ∨ grid.Open (p + v)) ∧
      stepCost p q = ⟨0, 1⟩ := by
  obtain ⟨_, _, moves, ⟨x, y⟩, beside⟩ := move
  by_cases diagonal : q.x ≠ p.x ∧ q.y ≠ p.y
  · right
    refine ⟨⟨q.x - p.x, 0⟩, ⟨0, q.y - p.y⟩, ⟨?_, ?_, ?_⟩, ?_, ?_, if_pos diagonal⟩
    · exact .inl ⟨rfl, by dsimp only; omega⟩
    · exact .inr ⟨rfl, by dsimp only; omega⟩
    · dsimp only
      omega
    · ext <;> simp
    · have first : p + ⟨q.x - p.x, 0⟩ = ⟨q.x, p.y⟩ := by ext <;> simp
      have second : p + ⟨0, q.y - p.y⟩ = ⟨p.x, q.y⟩ := by ext <;> simp
      rw [first, second]
      exact beside diagonal.1 diagonal.2
  · left
    have other : q.x ≠ p.x ∨ q.y ≠ p.y := by
      by_contra same
      push Not at same
      exact moves (Point.ext same.1.symm same.2.symm)
    refine ⟨q - p, ?_, by ext <;> simp, if_neg diagonal⟩
    unfold Axis
    simp only [sub_x, sub_y]
    omega

theorem Move.axis {u : Point} (axis : u.Axis) (source : grid.Open p) (target : grid.Open (p + u)) :
    Move grid p (p + u) ∧ stepCost p (p + u) = ⟨1, 0⟩ := by
  unfold Axis at axis
  refine ⟨⟨source, target, fun same => ?_, ⟨?_, ?_⟩, fun x y => ?_⟩, if_neg ?_⟩
  · have x := congrArg Point.x same
    have y := congrArg Point.y same
    rw [add_x] at x
    rw [add_y] at y
    omega
  · rw [add_x]
    omega
  · rw [add_y]
    omega
  · rw [add_x] at x
    rw [add_y] at y
    omega
  · rw [add_x, add_y]
    omega

theorem Move.perp {u v : Point} (perp : Perp u v) (source : grid.Open p)
    (beside : grid.Open (p + u) ∨ grid.Open (p + v)) (target : grid.Open (p + u + v)) :
    Move grid p (p + u + v) ∧ stepCost p (p + u + v) = ⟨0, 1⟩ := by
  obtain ⟨left, right, cross⟩ := perp
  unfold Axis at left right
  refine ⟨⟨source, target, fun same => ?_, ⟨?_, ?_⟩, fun _ _ => ?_⟩, if_pos ?_⟩
  · have x := congrArg Point.x same
    rw [add_x, add_x] at x
    omega
  · rw [add_x, add_x]
    omega
  · rw [add_y, add_y]
    omega
  · by_cases zero : u.x = 0
    · have first : (⟨(p + u + v).x, p.y⟩ : Point) = p + v := by
        ext <;> simp <;> omega
      have second : (⟨p.x, (p + u + v).y⟩ : Point) = p + u := by
        ext <;> simp <;> omega
      rw [first, second]
      exact beside.symm
    · have first : (⟨(p + u + v).x, p.y⟩ : Point) = p + u := by
        ext <;> simp <;> omega
      have second : (⟨p.x, (p + u + v).y⟩ : Point) = p + v := by
        ext <;> simp <;> omega
      rw [first, second]
      exact beside
  · rw [add_x, add_x, add_y, add_y]
    omega

theorem pathCost_concat {path : List Point} (ends : path.getLast? = some p) (q : Point) :
    pathCost (path ++ [q]) = pathCost path + stepCost p q := by
  induction path with
  | nil => contradiction
  | cons first rest ih =>
    cases rest with
    | nil =>
      rw [List.getLast?_singleton] at ends
      obtain rfl := Option.some.inj ends
      change stepCost _ q + 0 = 0 + stepCost _ q
      rw [add_zero, zero_add]
    | cons second rest =>
      have tail := ih (by rwa [List.getLast?_cons_cons] at ends)
      change stepCost first second + pathCost (second :: rest ++ [q]) = _ + pathCost (second :: rest) + _
      rw [tail, add_assoc]

namespace LegalPath

variable {start goal : Point} {path : List Point}

theorem single (isOpen : grid.Open p) : LegalPath grid p p [p] :=
  ⟨rfl, rfl, fun _ member => List.mem_singleton.mp member ▸ isOpen, .singleton p⟩

/-- A legal path goes on with a legal move. -/
theorem concat (legal : LegalPath grid start p path) (move : Move grid p q) :
    LegalPath grid start q (path ++ [q]) := by
  refine ⟨?_, List.getLast?_concat, fun r member => ?_, ?_⟩
  · rw [List.head?_append, legal.starts]
    rfl
  · rcases List.mem_append.mp member with old | new
    · exact legal.walkable r old
    · exact List.mem_singleton.mp new ▸ move.target
  · refine List.isChain_append.mpr ⟨legal.moves, .singleton q, fun last ends first starts => ?_⟩
    obtain rfl := Option.some.inj (legal.ends.symm.trans ends)
    obtain rfl := Option.some.inj starts
    exact move

/-- A legal path is a walk of as many steps, at the cost of the path. -/
theorem walk (legal : LegalPath grid start goal path) :
    ∃ a b : ℕ, Walk grid start goal a b ∧ pathCost path = ⟨a, b⟩ ∧ path.length = a + b + 1 := by
  induction path using List.reverseRecOn generalizing goal with
  | nil => exact absurd legal.starts (by simp)
  | append_singleton path last ih =>
    obtain rfl := Option.some.inj (List.getLast?_concat.symm.trans legal.ends)
    cases ends : path.getLast? with
    | none =>
      obtain rfl := List.getLast?_eq_none_iff.mp ends
      obtain rfl := Option.some.inj legal.starts
      exact ⟨0, 0, .stay (legal.walkable _ (List.mem_singleton_self _)), rfl, rfl⟩
    | some before =>
      obtain ⟨chain, _, joins⟩ := List.isChain_append.mp legal.moves
      have move := joins before ends last rfl
      have starts : path.head? = some start := by
        have := legal.starts
        rwa [List.head?_append_of_ne_nil _ (by rintro rfl; contradiction)] at this
      obtain ⟨a, b, walk, cost, length⟩ := ih ⟨starts, ends,
        fun p member => legal.walkable p (List.mem_append_left _ member), chain⟩
      rw [pathCost_concat ends, cost, List.length_append, length]
      rcases move.step with ⟨u, axis, rfl, step⟩ | ⟨u, v, perp, rfl, beside, step⟩
      · exact ⟨a + 1, b, walk.straight axis move.target, by rw [step]; ext <;> simp, by simp; omega⟩
      · exact ⟨a, b + 1, walk.diagonal perp beside move.target, by rw [step]; ext <;> simp, by simp; omega⟩

end LegalPath

/-- A walk is taken by a legal path. -/
theorem Walk.path {a b : ℕ} (walk : Walk grid p q a b) :
    ∃ path, LegalPath grid p q path ∧ pathCost path = ⟨a, b⟩ := by
  induction walk with
  | stay isOpen => exact ⟨[p], .single isOpen, rfl⟩
  | straight walk axis isOpen ih =>
    obtain ⟨path, legal, cost⟩ := ih
    obtain ⟨move, step⟩ := Move.axis axis walk.open_right isOpen
    refine ⟨_, legal.concat move, ?_⟩
    rw [pathCost_concat legal.ends, cost, step]
    ext <;> simp
  | diagonal walk perp beside isOpen ih =>
    obtain ⟨path, legal, cost⟩ := ih
    obtain ⟨move, step⟩ := Move.perp perp walk.open_right beside isOpen
    refine ⟨_, legal.concat move, ?_⟩
    rw [pathCost_concat legal.ends, cost, step]
    ext <;> simp

end Pathfinding

end LockFreeCore
