import LockFreeCore.Proofs.Pathfinding.Agreement

/-! # Paths as distances

Walks can be walked back, and walked one after another. So what a search answers on one grid is a distance
between its cells, whichever of the two searches it is.
-/

namespace LockFreeCore.Pathfinding

variable {grid : Grid} {p q : Point} {a b : ℕ}

/-- A walk is walked back over the same cells. -/
theorem Walk.reverse (walk : Walk grid p q a b) : Walk grid q p a b := by
  induction walk with
  | stay isOpen => exact .stay isOpen
  | @straight q u a b walk axis isOpen ih =>
    have back : q + u + -u = q := add_neg_cancel_right q u
    have step : Walk grid (q + u) (q + u + -u) (0 + 1) 0 :=
      (Walk.stay isOpen).straight axis.neg (by rw [back]; exact walk.open_right)
    rw [back] at step
    have whole := step.trans ih
    rwa [Nat.zero_add, Nat.zero_add, Nat.add_comm 1] at whole
  | @diagonal q u v a b walk perp beside isOpen ih =>
    have second : q + u + v + -v = q + u := add_neg_cancel_right _ v
    have first : q + u + v + -u = q + v := by abel
    have back : q + u + v + -u + -v = q := by abel
    have step : Walk grid (q + u + v) (q + u + v + -u + -v) 0 (0 + 1) :=
      (Walk.stay isOpen).diagonal perp.neg_left.neg_right (by rw [first, second]; exact beside.symm)
        (by rw [back]; exact walk.open_right)
    rw [back] at step
    have whole := step.trans ih
    rwa [Nat.zero_add, Nat.zero_add, Nat.add_comm 1] at whole

end LockFreeCore.Pathfinding
