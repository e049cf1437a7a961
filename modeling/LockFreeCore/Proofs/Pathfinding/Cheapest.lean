import LockFreeCore.Proofs.Pathfinding.JPS

/-! # Jumps along cheapest walks

A cheapest walk never turns by more than half a right angle, except round a wall: any sharper turn has
a short cut. So when no cheapest walk turns off earlier, a jump along it stops where the walk turns.
-/

namespace LockFreeCore.JPS

open Pathfinding Point

variable {grid : Grid} {goal p q u v w z : Point} {a b c d k : ℕ}

/-- A walk to the goal, by its straight and diagonal steps, and none is cheaper. -/
structure Cheapest (grid : Grid) (goal p : Point) (a b : ℕ) : Prop where
  walk : Walk grid p goal a b
  least : ∀ c d, Walk grid p goal c d → c + d ≤ a + b → c + 2 * d ≤ a + 2 * b → c = a ∧ d = b

/-- The rest of a cheapest walk is cheapest. -/
theorem Cheapest.rest (cheapest : Cheapest grid goal p (a + c) (b + d)) (walk : Walk grid p q a b)
    (rest : Walk grid q goal c d) : Cheapest grid goal q c d := by
  refine ⟨rest, fun c' d' other one two => ?_⟩
  have := cheapest.least _ _ (walk.trans other) (by omega) (by omega)
  omega

/-- A walk to the goal with these steps can begin along the axis. -/
def Along (grid : Grid) (goal p u : Point) (a b : ℕ) : Prop := ∃ c, a = c + 1 ∧ Walk grid (p + u) goal c b

/-- A walk to the goal with these steps can begin diagonally. -/
def Across (grid : Grid) (goal p u v : Point) (a b : ℕ) : Prop :=
  ∃ d, b = d + 1 ∧ (grid.Open (p + u) ∨ grid.Open (p + v)) ∧ Walk grid (p + u + v) goal a d

theorem Across.symm (across : Across grid goal p u v a b) : Across grid goal p v u a b := by
  obtain ⟨d, rfl, beside, walk⟩ := across
  exact ⟨d, rfl, beside.symm, add_right_comm p u v ▸ walk⟩

theorem Along.walk (source : grid.Open p) (axis : u.Axis) (along : Along grid goal p u a b) : Walk grid p goal a b := by
  obtain ⟨c, rfl, walk⟩ := along
  have := ((Walk.stay source).straight axis walk.open_left).trans walk
  rwa [zero_add, zero_add, add_comm] at this

theorem Across.walk (source : grid.Open p) (perp : Perp u v) (across : Across grid goal p u v a b) :
    Walk grid p goal a b := by
  obtain ⟨d, rfl, beside, walk⟩ := across
  have := ((Walk.stay source).diagonal perp beside walk.open_left).trans walk
  rwa [zero_add, zero_add, add_comm] at this

/-- A cheapest walk from another cell begins with a step. -/
theorem Cheapest.first (cheapest : Cheapest grid goal p a b) (other : p ≠ goal) :
    (∃ u, u.Axis ∧ Along grid goal p u a b) ∨ ∃ u v, Perp u v ∧ Across grid goal p u v a b := by
  rcases cheapest.walk.head with ⟨here, _, _⟩ | ⟨u, c, axis, rfl, walk⟩ | ⟨u, v, d, perp, beside, rfl, walk⟩
  · exact absurd here other
  · exact .inl ⟨u, axis, c, rfl, walk⟩
  · exact .inr ⟨u, v, perp, d, rfl, beside, walk⟩

/-- Seen from an axis, another axis is the same, the opposite one, or beside it. -/
theorem axis_cases (axis : u.Axis) (axis' : w.Axis) : w = u ∨ w = -u ∨ Perp u w := by
  by_cases cross : u.x = 0 ↔ w.y = 0
  · exact .inr (.inr ⟨axis, axis', cross⟩)
  · unfold Axis at axis axis'
    simp only [Point.ext_iff, neg_x, neg_y]
    omega

/-- Seen from an axis, a diagonal goes on or back, on one side. -/
theorem perp_cases (axis : u.Axis) (perp : Perp w z) :
    (w = u ∨ w = -u) ∧ Perp u z ∨ (z = u ∨ z = -u) ∧ Perp u w := by
  rcases axis_cases axis perp.left with rfl | rfl | beside
  · exact .inl ⟨.inl rfl, perp⟩
  · exact .inl ⟨.inr rfl, neg_neg u ▸ perp.neg_left⟩
  · rcases axis_cases axis perp.right with rfl | rfl | beside'
    · exact .inr ⟨.inl rfl, beside⟩
    · exact .inr ⟨.inr rfl, beside⟩
    · obtain ⟨left, right, cross⟩ := perp
      obtain ⟨_, _, cross'⟩ := beside
      obtain ⟨_, _, cross''⟩ := beside'
      unfold Axis at left right
      omega

/-! ## Turns -/

/-- After a straight step, a straight step goes on. -/
theorem straight_straight (cheapest : Cheapest grid goal p (a + 1) b) (source : grid.Open p) (axis : u.Axis)
    (isOpen : grid.Open (p + u)) (axis' : w.Axis) (along : Along grid goal (p + u) w a b) : w = u := by
  obtain ⟨c, rfl, walk⟩ := along
  rcases axis_cases axis axis' with rfl | rfl | perp
  · rfl
  · rw [add_neg_cancel_right] at walk
    have := cheapest.least c b walk (by omega) (by omega)
    omega
  · have across : Across grid goal p u w c (b + 1) := ⟨b, rfl, .inl isOpen, walk⟩
    have := cheapest.least c (b + 1) (across.walk source perp) (by omega) (by omega)
    omega

/-- After a straight step, a diagonal one has the same axis. -/
theorem straight_diagonal (cheapest : Cheapest grid goal p (a + 1) b) (source : grid.Open p) (axis : u.Axis)
    (perp : Perp w z) (across : Across grid goal (p + u) w z a b) :
    w = u ∧ Perp u z ∨ z = u ∧ Perp u w := by
  have forward {w z : Point} (perp : Perp u z) (back : w = -u) (across : Across grid goal (p + u) w z a b) : False := by
    subst back
    obtain ⟨d, rfl, _, walk⟩ := across
    rw [add_neg_cancel_right] at walk
    have along : Along grid goal p z (a + 1) d := ⟨a, rfl, walk⟩
    have := cheapest.least (a + 1) d (along.walk source perp.right) (by omega) (by omega)
    omega
  rcases perp_cases axis perp with ⟨same | back, beside⟩ | ⟨same | back, beside⟩
  · exact .inl ⟨same, beside⟩
  · exact (forward beside back across).elim
  · exact .inr ⟨same, beside⟩
  · exact (forward beside back across.symm).elim

/-- After a diagonal step, a straight one keeps one of its axes. -/
theorem diagonal_straight (cheapest : Cheapest grid goal p a (b + 1)) (source : grid.Open p) (perp : Perp u v)
    (axis : w.Axis) (along : Along grid goal (p + u + v) w a b) : w = u ∨ w = v := by
  obtain ⟨c, rfl, walk⟩ := along
  have shortcut {w : Point} (axis : w.Axis) (walk : Walk grid (p + w) goal c b) : False := by
    have along : Along grid goal p w (c + 1) b := ⟨c, rfl, walk⟩
    have := cheapest.least (c + 1) b (along.walk source axis) (by omega) (by omega)
    omega
  rcases axis_cases perp.left axis with rfl | rfl | beside
  · exact .inl rfl
  · rw [add_right_comm, add_neg_cancel_right] at walk
    exact (shortcut perp.right walk).elim
  · rcases (perp_iff perp).mp beside with rfl | rfl
    · exact .inr rfl
    · rw [add_neg_cancel_right] at walk
      exact (shortcut perp.left walk).elim

/-- After a diagonal step, a diagonal one goes on, or it turns round a wall. -/
theorem diagonal_diagonal (cheapest : Cheapest grid goal p a (b + 1)) (source : grid.Open p) (perp : Perp u v)
    (perp' : Perp w z) (across : Across grid goal (p + u + v) w z a b) :
    Across grid goal (p + u + v) u v a b ∨
    (¬ grid.Open (p + u + v - u) ∧ Across grid goal (p + u + v) (-u) v a b) ∨
    (¬ grid.Open (p + u + v - v) ∧ Across grid goal (p + u + v) u (-v) a b) := by
  -- with the corner open, the walk could go along the axis past it
  have round {u v : Point} (perp : Perp u v) (free : grid.Open (p + v))
      (across : Across grid goal (p + u + v) (-u) v a b) : False := by
    obtain ⟨d, rfl, _, walk⟩ := across
    rw [add_right_comm p, add_neg_cancel_right] at walk
    have second : Along grid goal (p + v) v (a + 1) d := ⟨a, rfl, walk⟩
    have first : Along grid goal p v (a + 2) d := ⟨a + 1, rfl, second.walk free perp.right⟩
    have := cheapest.least (a + 2) d (first.walk source perp.right) (by omega) (by omega)
    omega
  have back (across : Across grid goal (p + u + v) (-u) (-v) a b) : False := by
    obtain ⟨d, rfl, _, walk⟩ := across
    rw [add_right_comm _ v, add_neg_cancel_right, add_neg_cancel_right] at walk
    have := cheapest.least a d walk (by omega) (by omega)
    omega
  have turned {w z : Point} (same : w = u ∨ w = -u) (beside : Perp u z)
      (across : Across grid goal (p + u + v) w z a b) :
      Across grid goal (p + u + v) u v a b ∨
      (¬ grid.Open (p + u + v - u) ∧ Across grid goal (p + u + v) (-u) v a b) ∨
      (¬ grid.Open (p + u + v - v) ∧ Across grid goal (p + u + v) u (-v) a b) := by
    rcases (perp_iff perp).mp beside with rfl | rfl
    · rcases same with rfl | rfl
      · exact .inl across
      · refine .inr (.inl ⟨fun free => ?_, across⟩)
        rw [add_right_comm, add_sub_cancel_right] at free
        exact round perp free across
    · rcases same with rfl | rfl
      · refine .inr (.inr ⟨fun free => ?_, across⟩)
        rw [add_sub_cancel_right] at free
        rw [add_right_comm] at across
        exact round perp.symm free across.symm
      · exact (back across).elim
  rcases perp_cases perp.left perp' with ⟨same, beside⟩ | ⟨same, beside⟩
  · exact turned same beside across
  · exact turned same beside across.symm

/-! ## Rays -/

/-- A straight ray along a cheapest walk that cannot turn off diagonally. -/
theorem straight_ray (cheapest : Cheapest grid goal p a b) (source : grid.Open p) (axis : u.Axis)
    (along : Along grid goal p u a b) (plain : ∀ w, Perp u w → ¬ Across grid goal p u w a b) :
    ∃ k q c, Straight grid goal u p k q ∧ Walk grid q goal c b ∧ a = c + k := by
  obtain ⟨c, rfl, walk⟩ := along
  induction c using Nat.strong_induction_on generalizing p with
  | _ c ih =>
    have isOpen := walk.open_left
    by_cases stops : StraightStop grid goal u (p + u)
    · exact ⟨1, p + u, c, .stop isOpen stops, walk, rfl⟩
    have step : Walk grid p (p + u) (0 + 1) 0 := (Walk.stay source).straight axis isOpen
    have next : Cheapest grid goal (p + u) c b := by
      refine Cheapest.rest (a := 0 + 1) (b := 0) ?_ step walk
      rwa [zero_add, zero_add, add_comm]
    -- a cell beside the ray is open, or it forces a stop
    have plain' {w : Point} (perp : Perp u w) : ¬ Across grid goal (p + u) u w c b := by
      rintro ⟨d, rfl, _, walk'⟩
      have free : grid.Open (p + u + w) := by
        by_contra shut
        exact stops (.inr ⟨w, perp, shut, walk'.open_left⟩)
      rw [add_right_comm] at walk'
      have along : Along grid goal (p + u + w) u (c + 1) d := ⟨c, rfl, walk'⟩
      exact plain w perp ⟨d, rfl, .inl isOpen, along.walk free axis⟩
    rcases next.first fun here => stops (.inl here) with ⟨w, axis', along⟩ | ⟨w, z, perp, across⟩
    · obtain rfl := straight_straight cheapest source axis isOpen axis' along
      obtain ⟨c', rfl, walk'⟩ := along
      obtain ⟨k, q, c'', ray, rest, total⟩ := ih c' (by omega) isOpen walk' next fun w perp => plain' perp
      exact ⟨k + 1, q, c'', .pass isOpen stops ray, rest, by omega⟩
    · rcases straight_diagonal cheapest source axis perp across with ⟨rfl, beside⟩ | ⟨rfl, beside⟩
      · exact absurd across (plain' beside)
      · exact absurd across.symm (plain' beside)

/-- A diagonal ray along a cheapest walk. -/
theorem diagonal_ray (cheapest : Cheapest grid goal p a b) (source : grid.Open p) (perp : Perp u v)
    (across : Across grid goal p u v a b) :
    ∃ k q d, Diagonal grid goal u v p k q ∧ Walk grid q goal a d ∧ b = d + k := by
  obtain ⟨d, rfl, beside, walk⟩ := across
  induction d using Nat.strong_induction_on generalizing p with
  | _ d ih =>
    have isOpen := walk.open_left
    have here : p + (u + v) = p + u + v := (add_assoc p u v).symm
    by_cases stops : DiagonalStop grid goal u v (p + (u + v))
    · exact ⟨1, p + (u + v), d, .stop ⟨beside, isOpen⟩ stops, here ▸ walk, rfl⟩
    have step : Walk grid p (p + u + v) 0 (0 + 1) := (Walk.stay source).diagonal perp beside isOpen
    have next : Cheapest grid goal (p + u + v) a d := by
      refine Cheapest.rest (a := 0) (b := 0 + 1) ?_ step walk
      rwa [zero_add, zero_add, add_comm 1]
    rw [here] at stops
    -- a straight ray from here would be a stop, so the walk can go on diagonally
    have turns {w : Point} (axis : w.Axis) (along : Along grid goal (p + u + v) w a d)
        (never : ∀ r k, ¬ Straight grid goal w (p + u + v) k r) :
        ∃ w z, Perp w z ∧ Across grid goal (p + u + v) w z a d := by
      by_contra plain
      obtain ⟨k, q, _, ray, _⟩ :=
        straight_ray next isOpen axis along fun z perp across => plain ⟨w, z, perp, across⟩
      exact never q k ray
    have diagonal : ∃ w z, Perp w z ∧ Across grid goal (p + u + v) w z a d := by
      rcases next.first fun here => stops (.inl here) with ⟨w, axis, along⟩ | diagonal
      · rcases diagonal_straight cheapest source perp axis along with rfl | rfl
        · exact turns axis along fun r k ray => stops (.inr (.inr (.inr (.inl ⟨r, k, ray⟩))))
        · exact turns axis along fun r k ray => stops (.inr (.inr (.inr (.inr ⟨r, k, ray⟩))))
      · exact diagonal
    obtain ⟨w, z, perp', across⟩ := diagonal
    rcases diagonal_diagonal cheapest source perp perp' across with on | ⟨shut, round⟩ | ⟨shut, round⟩
    · obtain ⟨d', rfl, beside', walk'⟩ := on
      obtain ⟨k, q, d'', ray, rest, total⟩ := ih d' (by omega) isOpen next beside' walk'
      rw [← here] at stops ray
      exact ⟨k + 1, q, d'', .pass ⟨beside, isOpen⟩ stops ray, rest, by omega⟩
    · obtain ⟨_, _, _, walk'⟩ := round
      exact absurd (.inr (.inl ⟨shut, sub_eq_add_neg (p + u + v) u ▸ walk'.open_left⟩)) stops
    · obtain ⟨_, _, _, walk'⟩ := round
      exact absurd (.inr (.inr (.inl ⟨shut, sub_eq_add_neg (p + u + v + u) v ▸ walk'.open_left⟩))) stops

/-- A walk that turns off diagonally at the end of a straight ray, past an open cell, can turn off at its
beginning. -/
theorem straight_shift (axis : u.Axis) (perp : Perp u w) (ray : Straight grid goal u p k q)
    (free : grid.Open (q + w)) (walk : Walk grid (q + u + w) goal a b) :
    Walk grid (p + u + w) goal (a + k) b := by
  have ahead {p : Point} {c : ℕ} (free : grid.Open (p + w)) (walk : Walk grid (p + u + w) goal c b) :
      Walk grid (p + w) goal (c + 1) b := by
    rw [add_right_comm] at walk
    exact Along.walk free axis ⟨c, rfl, walk⟩
  induction ray with
  | stop isOpen stops => exact ahead free walk
  | @pass p q k isOpen passes rest ih =>
    have walk' := ih free walk
    refine ahead ?_ walk'
    by_contra shut
    exact passes (.inr ⟨w, perp, shut, walk'.open_left⟩)

end LockFreeCore.JPS
