import LockFreeCore.Proofs.Pathfinding.AStar
import Mathlib.Data.List.ReduceOption

/-! # What a jump finds

A jump goes ahead in its direction while the way is clear, past all cells that are not stops, to the
first stop. The recursion always comes to an end: each step gets nearer to the edge of the grid.
-/

namespace LockFreeCore.JPS

open Pathfinding Point BestFirst

/-- So many steps ahead is the first stop, and the way there is clear. -/
inductive Ray (clear stop : Point → Prop) (d : Point) : Point → ℕ → Point → Prop
  | stop {p : Point} (ahead : clear p) (stops : stop (p + d)) : Ray clear stop d p 1 (p + d)
  | pass {p q : Point} {k : ℕ} (ahead : clear p) (passes : ¬ stop (p + d))
      (rest : Ray clear stop d (p + d) k q) : Ray clear stop d p (k + 1) q

namespace Ray

variable {clear stop : Point → Prop} {d p q : Point} {k : ℕ}

theorem pos (ray : Ray clear stop d p k q) : 0 < k := by
  cases ray with
  | stop _ _ => exact Nat.one_pos
  | pass _ _ _ => exact Nat.succ_pos _

theorem target (ray : Ray clear stop d p k q) : q = p + k • d := by
  induction ray with
  | stop _ _ => rw [one_smul]
  | pass _ _ _ ih => rw [ih, succ_nsmul', add_assoc]

/-- A ray begins with a clear step, and goes on unless that ends at a stop. -/
theorem iff : (∃ k, Ray clear stop d p k q) ↔
    clear p ∧ ((stop (p + d) ∧ q = p + d) ∨ (¬ stop (p + d) ∧ ∃ k, Ray clear stop d (p + d) k q)) := by
  constructor
  · rintro ⟨k, ray⟩
    cases ray with
    | stop ahead stops => exact ⟨ahead, .inl ⟨stops, rfl⟩⟩
    | pass ahead passes rest => exact ⟨ahead, .inr ⟨passes, _, rest⟩⟩
  · rintro ⟨ahead, ⟨stops, rfl⟩ | ⟨passes, k, rest⟩⟩
    · exact ⟨1, .stop ahead stops⟩
    · exact ⟨k + 1, .pass ahead passes rest⟩

end Ray

variable {grid : Grid} {goal p q u v : Point} {k : ℕ}

/-- A cell that a straight ray cannot pass: the goal, or one with a forced neighbour. -/
def StraightStop (grid : Grid) (goal u q : Point) : Prop :=
  q = goal ∨ ∃ v, Perp u v ∧ ¬ grid.Open (q + v) ∧ grid.Open (q + u + v)

abbrev Straight (grid : Grid) (goal u : Point) : Point → ℕ → Point → Prop :=
  Ray (fun p => grid.Open (p + u)) (StraightStop grid goal u) u

/-- A cell that a diagonal ray cannot pass: the goal, or one with a forced neighbour or a straight ray
to a stop. -/
def DiagonalStop (grid : Grid) (goal u v q : Point) : Prop :=
  q = goal ∨ (¬ grid.Open (q - u) ∧ grid.Open (q - u + v)) ∨ (¬ grid.Open (q - v) ∧ grid.Open (q + u - v)) ∨
    (∃ r k, Straight grid goal u q k r) ∨ ∃ r k, Straight grid goal v q k r

abbrev Diagonal (grid : Grid) (goal u v : Point) : Point → ℕ → Point → Prop :=
  Ray (fun p => (grid.Open (p + u) ∨ grid.Open (p + v)) ∧ grid.Open (p + u + v)) (DiagonalStop grid goal u v)
    (u + v)

theorem DiagonalStop.symm (stops : DiagonalStop grid goal u v q) : DiagonalStop grid goal v u q := by
  rcases stops with here | ⟨shut, free⟩ | ⟨shut, free⟩ | ahead | ahead
  · exact .inl here
  · rw [sub_add_eq_add_sub] at free
    exact .inr (.inr (.inl ⟨shut, free⟩))
  · rw [add_sub_right_comm] at free
    exact .inr (.inl ⟨shut, free⟩)
  · exact .inr (.inr (.inr (.inr ahead)))
  · exact .inr (.inr (.inr (.inl ahead)))

theorem Diagonal.symm (ray : Diagonal grid goal u v p k q) : Diagonal grid goal v u p k q := by
  induction ray with
  | @stop p ahead stops =>
    rw [add_comm u v] at stops ⊢
    exact .stop ⟨ahead.1.symm, add_right_comm p u v ▸ ahead.2⟩ stops.symm
  | @pass p q k ahead passes rest ih =>
    rw [add_comm u v] at passes ih
    exact .pass ⟨ahead.1.symm, add_right_comm p u v ▸ ahead.2⟩ (fun stops => passes stops.symm) ih

/-- What a jump in this direction finds. -/
def Jumps (grid : Grid) (goal p d : Point) (k : ℕ) (q : Point) : Prop :=
  (d.Axis ∧ Straight grid goal d p k q) ∨ ∃ u v, Perp u v ∧ d = u + v ∧ Diagonal grid goal u v p k q

/-! ## The recursion -/

/-- How far it is at most, in this direction, to the edge of the grid. -/
def ahead (grid : Grid) (d q : Point) : ℤ := grid.m_width + grid.m_height - (d.x * q.x + d.y * q.y)

theorem ahead_open {d : Point} (x : d.x.natAbs ≤ 1) (y : d.y.natAbs ≤ 1) (isOpen : grid.Open q) :
    0 < ahead grid d q ∧ ahead grid d q ≤ 2 * (grid.m_width + grid.m_height) := by
  obtain ⟨left, top, right, bottom⟩ := isOpen.bounds
  have x' : (d.x * q.x).natAbs ≤ q.x.natAbs := by
    rw [Int.natAbs_mul]
    exact mul_le_of_le_one_left (Nat.zero_le _) x
  have y' : (d.y * q.y).natAbs ≤ q.y.natAbs := by
    rw [Int.natAbs_mul]
    exact mul_le_of_le_one_left (Nat.zero_le _) y
  unfold ahead
  omega

theorem ahead_step {d : Point} (moves : ¬ (d.x = 0 ∧ d.y = 0)) : ahead grid d (q + d) < ahead grid d q := by
  have more : 0 < d.x ^ 2 + d.y ^ 2 := by
    by_cases zero : d.x = 0
    · exact add_pos_of_nonneg_of_pos (sq_nonneg _) (sq_pos_of_ne_zero fun zero' => moves ⟨zero, zero'⟩)
    · exact add_pos_of_pos_of_nonneg (sq_pos_of_ne_zero zero) (sq_nonneg _)
  unfold ahead
  simp only [add_x, add_y]
  linarith

/-- A recursion that goes ahead in this way finds the end of the ray, or that there is none. -/
theorem Ray.total {clear stop : Point → Prop} {d : Point} (f : ℕ → Point → Option (Option Point)) (base : ℕ)
    (x : d.x.natAbs ≤ 1) (y : d.y.natAbs ≤ 1) (moves : ¬ (d.x = 0 ∧ d.y = 0)) (opens : ∀ p, clear p → grid.Open (p + d))
    (step : ∀ fuel p, base ≤ fuel → (¬ clear p → f (fuel + 1) p = some none) ∧
      (clear p → stop (p + d) → f (fuel + 1) p = some (some (p + d))) ∧
      (clear p → ¬ stop (p + d) → f (fuel + 1) p = f fuel (p + d)))
    {fuel m : ℕ} (near : clear p → ahead grid d (p + d) ≤ m) (enough : base + m < fuel) :
    ∃ found, f fuel p = some found ∧ ∀ q, found = some q ↔ ∃ k, Ray clear stop d p k q := by
  induction fuel generalizing p m with
  | zero => exact absurd enough (Nat.not_lt_zero _)
  | succ fuel ih =>
    obtain ⟨blocked, stopped, passed⟩ := step fuel p (by omega)
    by_cases free : clear p
    · by_cases stops : stop (p + d)
      · refine ⟨_, stopped free stops, fun q => ?_⟩
        rw [Ray.iff]
        constructor
        · intro found
          exact ⟨free, .inl ⟨stops, (Option.some.inj found).symm⟩⟩
        · rintro ⟨_, ⟨_, rfl⟩ | ⟨passes, _⟩⟩
          · rfl
          · exact absurd stops passes
      · have inside := ahead_open x y (opens p free)
        have nearer : ahead grid d (p + d + d) < ahead grid d (p + d) := ahead_step moves
        have := near free
        obtain ⟨found, ran, iff⟩ := @ih (p + d) (m - 1) (fun _ => by omega) (by omega)
        refine ⟨found, (passed free stops).trans ran, fun q => ?_⟩
        rw [iff, Ray.iff (p := p)]
        constructor
        · exact fun rest => ⟨free, .inr ⟨stops, rest⟩⟩
        · rintro ⟨_, ⟨stops', _⟩ | ⟨_, rest⟩⟩
          · exact absurd stops' stops
          · exact rest
    · refine ⟨none, blocked free, fun q => ⟨fun found => (Option.some_ne_none q found.symm).elim, fun ray => ?_⟩⟩
      exact absurd (Ray.iff.mp ray).1 free

/-- A direction beside an axis is one of two. -/
theorem perp_iff (perp : Perp u v) {w : Point} : Perp u w ↔ w = v ∨ w = -v := by
  constructor
  · rintro ⟨_, right, cross⟩
    obtain ⟨left, right', cross'⟩ := perp
    unfold Axis at left right right'
    simp only [Point.ext_iff, neg_x, neg_y]
    omega
  · rintro (rfl | rfl)
    · exact perp
    · exact perp.neg_right

theorem straight_forced (perp : Perp u v) :
    (∃ w, Perp u w ∧ ¬ grid.Open (q + w) ∧ grid.Open (q + u + w)) ↔
      (¬ grid.Open (q + v) ∧ grid.Open (q + u + v)) ∨ (¬ grid.Open (q - v) ∧ grid.Open (q + u - v)) := by
  simp only [perp_iff perp, or_and_right, exists_or, exists_eq_left, sub_eq_add_neg]

theorem ite_iff {α : Type} {stop c : Prop} [Decidable c] (same : stop ↔ c) (a b : α) :
    (stop → (if c then a else b) = a) ∧ (¬ stop → (if c then a else b) = b) :=
  ⟨fun stops => if_pos (same.mp stops), fun passes => if_neg (mt same.mpr passes)⟩

/-- One step of a straight jump. -/
theorem jump_straight (axis : u.Axis) (fuel : ℕ) :
    (¬ grid.Open (p + u) → jump grid goal (fuel + 1) p.x p.y u.x u.y = some none) ∧
    (grid.Open (p + u) → StraightStop grid goal u (p + u) →
      jump grid goal (fuel + 1) p.x p.y u.x u.y = some (some (p + u))) ∧
    (grid.Open (p + u) → ¬ StraightStop grid goal u (p + u) →
      jump grid goal (fuel + 1) p.x p.y u.x u.y = jump grid goal fuel (p + u).x (p + u).y u.x u.y) := by
  obtain ⟨dx, dy⟩ := u
  rw [jump]
  refine ⟨fun shut => if_pos (Bool.eq_false_iff.mpr shut), forall_and.mp fun free => ?_⟩
  have walkable : ¬ grid.isWalkable (p.x + dx) (p.y + dy) = false := Bool.eq_false_iff.not_left.mpr free
  dsimp only
  unfold Axis at axis
  rcases axis with ⟨zero, one⟩ | ⟨zero, one⟩
  · dsimp only at zero one
    subst zero
    have perp : Perp ⟨dx, 0⟩ ⟨0, 1⟩ := ⟨.inl ⟨rfl, one⟩, .inr ⟨rfl, .inl rfl⟩, by dsimp only; omega⟩
    have moves : dx ≠ 0 := by omega
    have along : ¬ (dx ≠ 0 ∧ (0 : ℤ) ≠ 0) := fun diagonal => diagonal.2 rfl
    rw [if_neg walkable, if_neg fun blocked => along ⟨blocked.1, blocked.2.1⟩, if_neg along, if_pos moves]
    rw [← ite_or]
    refine ite_iff ?_ _ _
    rw [StraightStop, straight_forced perp, Point.ext_iff]
    simp [Grid.Open]
  · dsimp only at zero one
    subst zero
    have perp : Perp ⟨0, dy⟩ ⟨1, 0⟩ := ⟨.inr ⟨rfl, one⟩, .inl ⟨rfl, .inl rfl⟩, by dsimp only; omega⟩
    have moves : ¬ (0 : ℤ) ≠ 0 := fun moves => moves rfl
    have along : ¬ ((0 : ℤ) ≠ 0 ∧ dy ≠ 0) := fun diagonal => diagonal.1 rfl
    rw [if_neg walkable, if_neg fun blocked => along ⟨blocked.1, blocked.2.1⟩, if_neg along, if_neg moves]
    rw [← ite_or]
    refine ite_iff ?_ _ _
    rw [StraightStop, straight_forced perp, Point.ext_iff]
    simp [Grid.Open]

theorem axis_near (axis : u.Axis) : u.x.natAbs ≤ 1 ∧ u.y.natAbs ≤ 1 ∧ ¬ (u.x = 0 ∧ u.y = 0) := by
  unfold Axis at axis
  omega

theorem perp_near (perp : Perp u v) :
    (u + v).x.natAbs ≤ 1 ∧ (u + v).y.natAbs ≤ 1 ∧ ¬ ((u + v).x = 0 ∧ (u + v).y = 0) := by
  obtain ⟨left, right, cross⟩ := perp
  unfold Axis at left right
  rw [add_x, add_y]
  omega

/-- No ray is longer. -/
def span (grid : Grid) : ℕ := (2 * (grid.m_width + grid.m_height)).toNat

theorem ahead_span {d : Point} (x : d.x.natAbs ≤ 1) (y : d.y.natAbs ≤ 1) (isOpen : grid.Open q) :
    ahead grid d q ≤ span grid := by
  have := ahead_open x y isOpen
  unfold span
  omega

theorem straight_total (goal p : Point) (axis : u.Axis) {fuel : ℕ} (enough : span grid < fuel) :
    ∃ found, jump grid goal fuel p.x p.y u.x u.y = some found ∧
      ∀ q, found = some q ↔ ∃ k, Straight grid goal u p k q := by
  obtain ⟨x, y, moves⟩ := axis_near axis
  refine Ray.total (fun fuel p => jump grid goal fuel p.x p.y u.x u.y) 0 x y moves
    (fun p free => free) (fun fuel p _ => jump_straight axis fuel) (ahead_span x y) ?_
  omega

/-- One step of a diagonal jump. -/
theorem jump_diagonal (perp : Perp u v) (flat : u.y = 0) {fuel : ℕ} (enough : span grid < fuel) :
    (¬ ((grid.Open (p + u) ∨ grid.Open (p + v)) ∧ grid.Open (p + u + v)) →
      jump grid goal (fuel + 1) p.x p.y (u + v).x (u + v).y = some none) ∧
    ((grid.Open (p + u) ∨ grid.Open (p + v)) ∧ grid.Open (p + u + v) → DiagonalStop grid goal u v (p + (u + v)) →
      jump grid goal (fuel + 1) p.x p.y (u + v).x (u + v).y = some (some (p + (u + v)))) ∧
    ((grid.Open (p + u) ∨ grid.Open (p + v)) ∧ grid.Open (p + u + v) → ¬ DiagonalStop grid goal u v (p + (u + v)) →
      jump grid goal (fuel + 1) p.x p.y (u + v).x (u + v).y =
        jump grid goal fuel (p + (u + v)).x (p + (u + v)).y (u + v).x (u + v).y) := by
  obtain ⟨left, right, cross⟩ := id perp
  obtain ⟨dx, zero⟩ := u
  obtain ⟨zero', dy⟩ := v
  unfold Axis at left right
  dsimp only at left right cross flat
  subst flat
  have steep : zero' = 0 := by omega
  subst steep
  have diagonal : dx ≠ 0 ∧ dy ≠ 0 := by omega
  have next : p + (⟨dx, 0⟩ + ⟨0, dy⟩) = ⟨p.x + dx, p.y + dy⟩ := by ext <;> simp
  rw [next]
  obtain ⟨horizontal, ran, across⟩ := straight_total goal ⟨p.x + dx, p.y + dy⟩ perp.left enough
  obtain ⟨vertical, ran', along⟩ := straight_total goal ⟨p.x + dx, p.y + dy⟩ perp.right enough
  simp only [add_x, add_y, add_zero, zero_add] at ran ran' ⊢
  have beside : canMoveDiagonally grid p.x p.y dx dy = true ↔ grid.Open (p + ⟨dx, 0⟩) ∨ grid.Open (p + ⟨0, dy⟩) := by
    simp [canMoveDiagonally, Grid.Open]
  rw [jump]
  refine ⟨fun blocked => ?_, forall_and.mp fun free => ?_⟩
  · by_cases shut : grid.isWalkable (p.x + dx) (p.y + dy) = false
    · exact if_pos shut
    · rw [if_neg shut]
      refine if_pos ⟨diagonal.1, diagonal.2, Bool.eq_false_iff.mpr fun passes => blocked ⟨beside.mp passes, ?_⟩⟩
      simpa [Grid.Open] using shut
  · have walkable : ¬ grid.isWalkable (p.x + dx) (p.y + dy) = false := by simpa [Grid.Open] using free.2
    have passes : ¬ (dx ≠ 0 ∧ dy ≠ 0 ∧ canMoveDiagonally grid p.x p.y dx dy = false) :=
      fun blocked => Bool.eq_false_iff.mp blocked.2.2 (beside.mpr free.1)
    rw [if_neg walkable, if_neg passes, if_pos diagonal, ran, ran', Option.bind_some, Option.bind_some,
      ← ite_or, ← ite_or, ← ite_or]
    refine ite_iff ?_ _ _
    rw [DiagonalStop, Point.ext_iff]
    simp only [← across, ← along, Option.isSome_iff_exists]
    simp [Grid.Open, or_assoc]

/-- With so much fuel every jump comes to an end. -/
def reach (grid : Grid) : ℕ := 2 * span grid + 2

theorem diagonal_total (goal p : Point) (perp : Perp u v) {fuel : ℕ} (enough : reach grid ≤ fuel) :
    ∃ found, jump grid goal fuel p.x p.y (u + v).x (u + v).y = some found ∧
      ∀ q, found = some q ↔ ∃ k, Diagonal grid goal u v p k q := by
  unfold reach at enough
  have flat {u v : Point} (perp : Perp u v) (flat : u.y = 0) :
      ∃ found, jump grid goal fuel p.x p.y (u + v).x (u + v).y = some found ∧
        ∀ q, found = some q ↔ ∃ k, Diagonal grid goal u v p k q := by
    obtain ⟨x, y, moves⟩ := perp_near perp
    have opens {p : Point} (free : (grid.Open (p + u) ∨ grid.Open (p + v)) ∧ grid.Open (p + u + v)) :
        grid.Open (p + (u + v)) := add_assoc p u v ▸ free.2
    refine Ray.total (fun fuel p => jump grid goal fuel p.x p.y (u + v).x (u + v).y) (span grid + 1)
      x y moves (fun p => opens) (fun fuel p large => jump_diagonal perp flat (by omega))
      (fun free => ahead_span x y (opens free)) ?_
    omega
  rcases perp.axes with ⟨row, -⟩ | ⟨-, row⟩
  · exact flat perp row
  · obtain ⟨found, ran, iff⟩ := flat perp.symm row
    rw [add_comm u v]
    refine ⟨found, ran, fun q => (iff q).trans ?_⟩
    constructor
    · rintro ⟨k, ray⟩
      exact ⟨k, ray.symm⟩
    · rintro ⟨k, ray⟩
      exact ⟨k, ray.symm⟩

theorem perp_not_axis (perp : Perp u v) : ¬ (u + v).Axis := by
  obtain ⟨left, right, cross⟩ := perp
  unfold Axis at left right ⊢
  rw [add_x, add_y]
  omega

/-- A diagonal has its two axes, in either order. -/
theorem perp_unique {u' v' : Point} (perp : Perp u v) (perp' : Perp u' v') (same : u + v = u' + v') :
    (u = u' ∧ v = v') ∨ (u = v' ∧ v = u') := by
  have axes := perp.axes
  have axes' := perp'.axes
  simp only [Point.ext_iff, add_x, add_y] at same ⊢
  omega

/-- A direction is along an axis or diagonal. -/
theorem direction_cases {d : Point} (x : d.x.natAbs ≤ 1) (y : d.y.natAbs ≤ 1) (moves : ¬ (d.x = 0 ∧ d.y = 0)) :
    d.Axis ∨ ∃ u v, Perp u v ∧ d = u + v := by
  by_cases diagonal : d.x ≠ 0 ∧ d.y ≠ 0
  · refine .inr ⟨⟨d.x, 0⟩, ⟨0, d.y⟩, ⟨?_, ?_, ?_⟩, ?_⟩
    · exact .inl ⟨rfl, by dsimp only; omega⟩
    · exact .inr ⟨rfl, by dsimp only; omega⟩
    · dsimp only
      omega
    · ext <;> simp
  · left
    unfold Axis
    omega

theorem jumps_axis (axis : u.Axis) : Jumps grid goal p u k q ↔ Straight grid goal u p k q := by
  constructor
  · rintro (⟨-, ray⟩ | ⟨w, v, perp, rfl, -⟩)
    · exact ray
    · exact absurd axis (perp_not_axis perp)
  · exact fun ray => .inl ⟨axis, ray⟩

theorem jumps_perp (perp : Perp u v) : Jumps grid goal p (u + v) k q ↔ Diagonal grid goal u v p k q := by
  constructor
  · rintro (⟨axis, -⟩ | ⟨u', v', perp', same, ray⟩)
    · exact absurd axis (perp_not_axis perp)
    · rcases perp_unique perp' perp same.symm with ⟨rfl, rfl⟩ | ⟨rfl, rfl⟩
      · exact ray
      · exact ray.symm
  · exact fun ray => .inr ⟨u, v, perp, rfl, ray⟩

theorem jump_total (grid : Grid) (goal p : Point) {d : Point} (x : d.x.natAbs ≤ 1) (y : d.y.natAbs ≤ 1)
    (moves : ¬ (d.x = 0 ∧ d.y = 0)) {fuel : ℕ} (enough : reach grid ≤ fuel) :
    ∃ found, jump grid goal fuel p.x p.y d.x d.y = some found ∧
      ∀ q, found = some q ↔ ∃ k, Jumps grid goal p d k q := by
  rcases direction_cases x y moves with axis | ⟨u, v, perp, rfl⟩
  · have enough' : span grid < fuel := by
      unfold reach at enough
      omega
    obtain ⟨found, ran, iff⟩ := straight_total goal p axis enough'
    exact ⟨found, ran, fun q => (iff q).trans (exists_congr fun k => (jumps_axis axis).symm)⟩
  · obtain ⟨found, ran, iff⟩ := diagonal_total goal p perp enough
    exact ⟨found, ran, fun q => (iff q).trans (exists_congr fun k => (jumps_perp perp).symm)⟩

/-! ## Successors -/

theorem sign_cases (n : ℤ) : (0 < n ∧ sign n = 1) ∨ (n = 0 ∧ sign n = 0) ∨ (n < 0 ∧ sign n = -1) := by
  rcases lt_trichotomy 0 n with pos | rfl | neg
  · exact .inl ⟨pos, by rw [sign, if_pos pos, if_neg (by omega)]; rfl⟩
  · exact .inr (.inl ⟨rfl, rfl⟩)
  · exact .inr (.inr ⟨neg, by rw [sign, if_neg (by omega), if_pos neg]; rfl⟩)

/-- Each direction is one of the eight. -/
theorem prunedDirections_near {x y : ℤ} {parent : Option Point} {dir : ℤ × ℤ}
    (member : dir ∈ prunedDirections grid x y parent) :
    dir.1.natAbs ≤ 1 ∧ dir.2.natAbs ≤ 1 ∧ ¬ (dir.1 = 0 ∧ dir.2 = 0) := by
  cases parent with
  | none => exact AStar.mem_directions.mp member
  | some p =>
    have horizontal := sign_cases (x - p.x)
    have vertical := sign_cases (y - p.y)
    simp only [prunedDirections] at member
    generalize sign (x - p.x) = dx at horizontal member
    generalize sign (y - p.y) = dy at vertical member
    split at member
    · rw [List.mem_append, List.mem_append, List.mem_append, List.mem_append] at member
      simp only [List.mem_ite_nil_right, List.mem_singleton] at member
      rcases member with (((⟨_, rfl⟩ | ⟨_, rfl⟩) | ⟨_, rfl⟩) | ⟨_, rfl⟩) | ⟨_, rfl⟩ <;> dsimp only <;> omega
    · split at member
      · rw [List.mem_append, List.mem_append] at member
        simp only [List.mem_ite_nil_right, List.mem_singleton] at member
        rcases member with (⟨_, rfl⟩ | ⟨_, rfl⟩) | ⟨_, rfl⟩ <;> dsimp only <;> omega
      · split at member
        · rw [List.mem_append, List.mem_append] at member
          simp only [List.mem_ite_nil_right, List.mem_singleton] at member
          rcases member with (⟨_, rfl⟩ | ⟨_, rfl⟩) | ⟨_, rfl⟩ <;> dsimp only <;> omega
        · exact absurd member List.not_mem_nil

theorem jump_found (goal p : Point) {d : Point} (x : d.x.natAbs ≤ 1) (y : d.y.natAbs ≤ 1)
    (moves : ¬ (d.x = 0 ∧ d.y = 0)) :
    ∃ found, (∀ fuel, reach grid ≤ fuel → jump grid goal fuel p.x p.y d.x d.y = some found) ∧
      ∀ q, found = some q ↔ ∃ k, Jumps grid goal p d k q := by
  obtain ⟨found, ran, iff⟩ := jump_total grid goal p x y moves le_rfl
  refine ⟨found, fun fuel enough => ?_, iff⟩
  obtain ⟨found', ran', iff'⟩ := jump_total grid goal p x y moves enough
  rw [ran']
  exact congrArg some (Option.ext fun q => (iff' q).trans (iff q).symm)

theorem mapM_found {α β : Type} (f : ℕ → α → Option β) (bound : ℕ) (good : α → β → Prop) {as : List α}
    (found : ∀ a ∈ as, ∃ b, (∀ fuel, bound ≤ fuel → f fuel a = some b) ∧ good a b) :
    ∃ bs, (∀ fuel, bound ≤ fuel → as.mapM (f fuel) = some bs) ∧
      (∀ b ∈ bs, ∃ a ∈ as, good a b) ∧ ∀ a ∈ as, ∃ b ∈ bs, good a b := by
  induction as with
  | nil => exact ⟨[], fun fuel _ => rfl, fun b member => absurd member List.not_mem_nil,
      fun a member => absurd member List.not_mem_nil⟩
  | cons a as ih =>
    obtain ⟨⟨b, ran, fits⟩, rest⟩ := List.forall_mem_cons.mp found
    obtain ⟨bs, ran', back, forth⟩ := ih rest
    refine ⟨b :: bs, fun fuel enough => ?_, List.forall_mem_cons.mpr ⟨⟨a, List.mem_cons_self, fits⟩, ?_⟩,
      List.forall_mem_cons.mpr ⟨⟨b, List.mem_cons_self, fits⟩, ?_⟩⟩
    · rw [List.mapM_cons, ran fuel enough, ran' fuel enough]
      rfl
    · intro b' member
      obtain ⟨a', member', fits'⟩ := back b' member
      exact ⟨a', List.mem_cons_of_mem a member', fits'⟩
    · intro a' member
      obtain ⟨b', member', fits'⟩ := forth a' member
      exact ⟨b', List.mem_cons_of_mem b member', fits'⟩

/-- The successors of a cell are the ends of the rays in its pruned directions. -/
theorem successors_total (grid : Grid) (goal : Point) (v : ℤ) (parent : Option ℤ) :
    ∃ nexts, (∀ fuel, reach grid ≤ fuel → successors grid goal fuel v parent = some nexts) ∧
      ∀ next, next ∈ nexts ↔
        ∃ dir ∈ prunedDirections grid (grid.cell v).x (grid.cell v).y (parent.map grid.cell),
          ∃ k q, Jumps grid goal (grid.cell v) ⟨dir.1, dir.2⟩ k q ∧
            next = (grid.toIndex q.x q.y, octileDistance (grid.cell v) q) := by
  obtain ⟨founds, ran, back, forth⟩ := mapM_found
    (fun fuel (dir : ℤ × ℤ) => jump grid goal fuel (grid.cell v).x (grid.cell v).y dir.1 dir.2) (reach grid)
    (fun dir found => ∀ q, found = some q ↔ ∃ k, Jumps grid goal (grid.cell v) ⟨dir.1, dir.2⟩ k q)
    fun dir member => by
      obtain ⟨x, y, moves⟩ := prunedDirections_near member
      exact @jump_found grid goal (grid.cell v) ⟨dir.1, dir.2⟩ x y moves
  refine ⟨_, fun fuel enough => by rw [successors, ran fuel enough]; rfl, fun next => ?_⟩
  rw [List.mem_map]
  constructor
  · rintro ⟨q, member, rfl⟩
    obtain ⟨dir, member', iff⟩ := back _ (List.reduceOption_mem_iff.mp member)
    obtain ⟨k, jumps⟩ := (iff q).mp rfl
    exact ⟨dir, member', k, q, jumps, rfl⟩
  · rintro ⟨dir, member, k, q, jumps, rfl⟩
    obtain ⟨found, member', iff⟩ := forth dir member
    obtain rfl := (iff q).mpr ⟨k, jumps⟩
    exact ⟨q, List.reduceOption_mem_iff.mpr member', rfl⟩

/-- The successors of a cell. -/
def jumpPoints (grid : Grid) (goal : Point) (v : ℤ) (parent : Option ℤ) : List (ℤ × Cost) :=
  (successors grid goal (reach grid) v parent).getD []

theorem successors_eq {fuel : ℕ} (enough : reach grid ≤ fuel) (goal : Point) :
    successors grid goal fuel = fun v parent => some (jumpPoints grid goal v parent) := by
  funext v parent
  obtain ⟨nexts, ran, _⟩ := successors_total grid goal v parent
  rw [jumpPoints, ran fuel enough, ran (reach grid) le_rfl]
  rfl

theorem mem_jumpPoints (source : grid.Open p) {parent : Option ℤ} {next : ℤ × Cost} :
    next ∈ jumpPoints grid goal (grid.toIndex p.x p.y) parent ↔
      ∃ dir ∈ prunedDirections grid p.x p.y (parent.map grid.cell), ∃ k q,
        Jumps grid goal p ⟨dir.1, dir.2⟩ k q ∧ next = (grid.toIndex q.x q.y, octileDistance p q) := by
  obtain ⟨nexts, ran, iff⟩ := successors_total grid goal (grid.toIndex p.x p.y) parent
  rw [jumpPoints, ran (reach grid) le_rfl]
  rw [source.cell_toIndex] at iff
  exact iff next

end LockFreeCore.JPS
