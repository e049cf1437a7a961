import LockFreeCore.Proofs.Pathfinding.Jump

/-! # Jump points

A jump point of a direction is the goal, a cell with a forced neighbour, or, of a diagonal, a cell from which a
straight ray along one of its axes comes to the goal or to a cell with a forced neighbour. A jump takes legal moves to
the first jump point ahead, or the ray is cut before there is any.
-/

namespace LockFreeCore.JPS

open Pathfinding Point

variable {grid : Grid} {goal p q d u v : Point} {k : ℕ}

theorem add_succ_smul (p d : Point) (i : ℕ) : p + (i + 1) • d = p + d + i • d := by
  rw [succ_nsmul', add_assoc]

namespace Ray

variable {clear stop : Point → Prop}

/-- The way to the end of a ray is clear, and the end is the first stop on it. -/
theorem first (ray : Ray clear stop d p k q) :
    (∀ i < k, clear (p + i • d)) ∧ stop q ∧ ∀ i, 0 < i → i < k → ¬ stop (p + i • d) := by
  induction ray with
  | @stop p ahead stops =>
    refine ⟨fun i below => ?_, stops, fun i pos below => absurd below (Nat.not_lt.mpr pos)⟩
    obtain rfl := Nat.lt_one_iff.mp below
    rwa [zero_nsmul, add_zero]
  | @pass p q k ahead passes rest ih =>
    obtain ⟨way, stops, before⟩ := ih
    refine ⟨fun i below => ?_, stops, fun i pos below => ?_⟩
    · cases i with
      | zero => rwa [zero_nsmul, add_zero]
      | succ i =>
        rw [add_succ_smul]
        exact way i (Nat.lt_of_succ_lt_succ below)
    · obtain ⟨i, rfl⟩ := Nat.exists_eq_add_of_le' pos
      rw [add_succ_smul]
      cases i with
      | zero => rwa [zero_nsmul, add_zero]
      | succ i => exact before (i + 1) (Nat.succ_pos i) (Nat.lt_of_succ_lt_succ below)

/-- On a clear way to a stop there is a first stop. -/
theorem exists_of_stop (way : ∀ i ≤ k, clear (p + i • d)) (stops : stop (p + (k + 1) • d)) :
    ∃ q k, Ray clear stop d p k q := by
  induction k generalizing p with
  | zero =>
    have ahead := way 0 (Nat.le_refl 0)
    rw [zero_nsmul, add_zero] at ahead
    rw [add_succ_smul, zero_nsmul, add_zero] at stops
    exact ⟨p + d, 1, .stop ahead stops⟩
  | succ k ih =>
    have ahead := way 0 (Nat.zero_le _)
    rw [zero_nsmul, add_zero] at ahead
    rcases Classical.em (stop (p + d)) with here | passes
    · exact ⟨p + d, 1, .stop ahead here⟩
    · rw [add_succ_smul] at stops
      obtain ⟨q, steps, rest⟩ := ih (fun i below => add_succ_smul p d i ▸ way (i + 1) (Nat.succ_le_succ below)) stops
      exact ⟨q, steps + 1, .pass ahead passes rest⟩

/-- No way is clear for ever. -/
theorem exists_blocked (x : d.x.natAbs ≤ 1) (y : d.y.natAbs ≤ 1) (moves : ¬ (d.x = 0 ∧ d.y = 0))
    (opens : ∀ p, clear p → grid.Open (p + d)) (p : Point) : ∃ k : ℕ, ¬ clear (p + k • d) := by
  by_contra always
  push Not at always
  have isOpen (i : ℕ) : grid.Open (p + d + i • d) := by
    have next := opens _ (always i)
    rwa [add_right_comm] at next
  have nearer (i : ℕ) : ahead grid d (p + d + i • d) ≤ ahead grid d (p + d) - i := by
    induction i with
    | zero => simp
    | succ i ih =>
      have step : ahead grid d (p + d + i • d + d) < ahead grid d (p + d + i • d) := ahead_step moves
      rw [succ_nsmul, ← add_assoc]
      omega
  have inside := (ahead_open x y (isOpen (ahead grid d (p + d)).toNat)).1
  have far := nearer (ahead grid d (p + d)).toNat
  omega

/-- Where there is no ray, the way is blocked before any stop. -/
theorem blocked (x : d.x.natAbs ≤ 1) (y : d.y.natAbs ≤ 1) (moves : ¬ (d.x = 0 ∧ d.y = 0))
    (opens : ∀ p, clear p → grid.Open (p + d)) (none : ¬ ∃ q k, Ray clear stop d p k q) :
    ∃ k : ℕ, (∀ i < k, clear (p + i • d)) ∧ ¬ clear (p + k • d) ∧ ∀ i, 0 < i → i ≤ k → ¬ stop (p + i • d) := by
  classical
  have ends := exists_blocked x y moves opens p
  have way (i : ℕ) (below : i < Nat.find ends) : clear (p + i • d) := not_not.mp (Nat.find_min ends below)
  refine ⟨Nat.find ends, way, Nat.find_spec ends, fun i pos within stops => none ?_⟩
  obtain ⟨i, rfl⟩ := Nat.exists_eq_add_of_le' pos
  exact exists_of_stop (fun j below => way j (Nat.lt_of_le_of_lt below within)) stops

end Ray

/-! ## Jump points -/

end LockFreeCore.JPS
