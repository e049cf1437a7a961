import LockFreeCore.Proofs.Pathfinding.Cheapest

/-! # Jump point search finds what A* finds

Some scored cell on a cheapest walk is open, or the goal, all the time: when one is closed, a jump
scores a later one. The direction of that jump may have been pruned only when the walk could have
turned off before, and then the cell it was reached from has a jump along a walk that does.
-/

namespace LockFreeCore.JPS

open Pathfinding Point BestFirst

variable {grid : Grid} {start goal p q u v w z : Point} {a b c d k : ℕ}

/-! ## Pruned directions -/

theorem pruned_straight (axis : u.Axis) (x : sign (q.x - p.x) = u.x) (y : sign (q.y - p.y) = u.y) :
    (grid.Open (q + u) → (u.x, u.y) ∈ prunedDirections grid q.x q.y (some p)) ∧
    ∀ w, Perp u w → ¬ grid.Open (q + w) → grid.Open (q + u + w) →
      ((u + w).x, (u + w).y) ∈ prunedDirections grid q.x q.y (some p) := by
  obtain ⟨dx, dy⟩ := u
  unfold Axis at axis
  simp only [prunedDirections, x, y]
  rcases axis with ⟨zero, one⟩ | ⟨zero, one⟩
  · dsimp only at zero one
    subst zero
    have perp : Perp ⟨dx, 0⟩ ⟨0, 1⟩ := ⟨.inl ⟨rfl, one⟩, .inr ⟨rfl, .inl rfl⟩, by dsimp only; omega⟩
    have moves : dx ≠ 0 := by omega
    rw [if_neg fun diagonal => diagonal.2 rfl, if_pos moves]
    refine ⟨fun free => ?_, fun w beside shut free => ?_⟩
    · simp_all [Grid.Open]
    · rcases (perp_iff perp).mp beside with rfl | rfl
      · simp_all [Grid.Open]
      · simp_all [Grid.Open, sub_eq_add_neg]
  · dsimp only at zero one
    subst zero
    have perp : Perp ⟨0, dy⟩ ⟨1, 0⟩ := ⟨.inr ⟨rfl, one⟩, .inl ⟨rfl, .inl rfl⟩, by dsimp only; omega⟩
    have moves : dy ≠ 0 := by omega
    rw [if_neg fun diagonal => diagonal.1 rfl, if_neg fun moves => moves rfl, if_pos moves]
    refine ⟨fun free => ?_, fun w beside shut free => ?_⟩
    · simp_all [Grid.Open]
    · rcases (perp_iff perp).mp beside with rfl | rfl
      · simp_all [Grid.Open]
      · simp_all [Grid.Open, sub_eq_add_neg]

/-- The directions after a diagonal step, by its two axes. -/
theorem pruned_flat (perp : Perp u v) (flat : u.y = 0) (x : sign (q.x - p.x) = (u + v).x)
    (y : sign (q.y - p.y) = (u + v).y) :
    (grid.Open (q + u) → (u.x, u.y) ∈ prunedDirections grid q.x q.y (some p)) ∧
    (grid.Open (q + v) → (v.x, v.y) ∈ prunedDirections grid q.x q.y (some p)) ∧
    (grid.Open (q + u) ∨ grid.Open (q + v) → ((u + v).x, (u + v).y) ∈ prunedDirections grid q.x q.y (some p)) ∧
    (¬ grid.Open (q - u) → grid.Open (q + v) → ((-u + v).x, (-u + v).y) ∈ prunedDirections grid q.x q.y (some p)) ∧
    (¬ grid.Open (q - v) → grid.Open (q + u) → ((u + -v).x, (u + -v).y) ∈ prunedDirections grid q.x q.y (some p)) := by
  obtain ⟨left, right, cross⟩ := id perp
  obtain ⟨dx, zero⟩ := u
  obtain ⟨zero', dy⟩ := v
  unfold Axis at left right
  dsimp only at left right cross flat
  subst flat
  have steep : zero' = 0 := by omega
  subst steep
  have diagonal : dx ≠ 0 ∧ dy ≠ 0 := by omega
  simp only [add_x, add_y, neg_x, neg_y, add_zero, zero_add, neg_zero] at x y ⊢
  simp only [prunedDirections, x, y]
  rw [if_pos diagonal]
  simp only [List.mem_append, List.mem_ite_nil_right, List.mem_singleton, Prod.mk.injEq]
  refine ⟨fun free => ?_, fun free => ?_, fun free => ?_, fun shut free => ?_, fun shut free => ?_⟩
  · simp_all [Grid.Open]
  · simp_all [Grid.Open]
  · simp_all [Grid.Open, canMoveDiagonally]
  · simp_all [Grid.Open]
  · simp_all [Grid.Open]

theorem pruned_diagonal (perp : Perp u v) (x : sign (q.x - p.x) = (u + v).x) (y : sign (q.y - p.y) = (u + v).y) :
    (grid.Open (q + u) → (u.x, u.y) ∈ prunedDirections grid q.x q.y (some p)) ∧
    (grid.Open (q + v) → (v.x, v.y) ∈ prunedDirections grid q.x q.y (some p)) ∧
    (grid.Open (q + u) ∨ grid.Open (q + v) → ((u + v).x, (u + v).y) ∈ prunedDirections grid q.x q.y (some p)) ∧
    (¬ grid.Open (q - u) → grid.Open (q + v) → ((-u + v).x, (-u + v).y) ∈ prunedDirections grid q.x q.y (some p)) ∧
    (¬ grid.Open (q - v) → grid.Open (q + u) → ((u + -v).x, (u + -v).y) ∈ prunedDirections grid q.x q.y (some p)) := by
  rcases perp.axes with ⟨row, -⟩ | ⟨-, row⟩
  · exact pruned_flat perp row x y
  · rw [add_comm u v] at x y ⊢
    rw [add_comm (-u), add_comm u]
    obtain ⟨first, second, both, round, round'⟩ := @pruned_flat grid _ _ _ _ perp.symm row x y
    exact ⟨second, first, fun beside => both beside.symm, round', round⟩

/-! ## Cells on a cheapest walk -/

theorem Straight.walk (source : grid.Open p) (axis : u.Axis) (ray : Straight grid goal u p k q) :
    Walk grid p q k 0 := by
  induction ray with
  | stop isOpen _ => exact (Walk.stay source).straight axis isOpen
  | @pass p q k isOpen _ _ ih =>
    have := ((Walk.stay source).straight axis isOpen).trans (ih isOpen)
    rwa [zero_add, zero_add, add_comm 1] at this

theorem Diagonal.walk (source : grid.Open p) (perp : Perp u v) (ray : Diagonal grid goal u v p k q) :
    Walk grid p q 0 k := by
  induction ray with
  | @stop p ahead _ =>
    rw [← add_assoc]
    exact (Walk.stay source).diagonal perp ahead.1 ahead.2
  | @pass p q k ahead _ _ ih =>
    rw [← add_assoc] at ih
    have := ((Walk.stay source).diagonal perp ahead.1 ahead.2).trans (ih ahead.2)
    rwa [zero_add, zero_add, add_comm 1] at this

/-- The last step of a straight ray. -/
theorem Straight.last (source : grid.Open p) (axis : u.Axis) (ray : Straight grid goal u p k q) :
    ∃ m j, Walk grid p m j 0 ∧ q = m + u ∧ k = j + 1 := by
  induction ray with
  | stop _ _ => exact ⟨_, 0, .stay source, rfl, rfl⟩
  | @pass p q k isOpen _ _ ih =>
    obtain ⟨m, j, walk, rfl, rfl⟩ := ih isOpen
    refine ⟨m, j + 1, ?_, rfl, rfl⟩
    have := ((Walk.stay source).straight axis isOpen).trans walk
    rwa [zero_add, zero_add, add_comm 1] at this

/-- The last step of a diagonal ray. -/
theorem Diagonal.last (source : grid.Open p) (perp : Perp u v) (ray : Diagonal grid goal u v p k q) :
    ∃ m j, Walk grid p m 0 j ∧ (grid.Open (m + u) ∨ grid.Open (m + v)) ∧ q = m + u + v ∧ k = j + 1 := by
  induction ray with
  | stop ahead _ => exact ⟨_, 0, .stay source, ahead.1, (add_assoc _ u v).symm, rfl⟩
  | @pass p q k ahead _ _ ih =>
    rw [← add_assoc] at ih
    obtain ⟨m, j, walk, beside, rfl, rfl⟩ := ih ahead.2
    refine ⟨m, j + 1, ?_, beside, rfl, rfl⟩
    have := ((Walk.stay source).diagonal perp ahead.1 ahead.2).trans walk
    rwa [zero_add, zero_add, add_comm 1] at this

section Search

variable {s : Search ℤ Cost} {A B : ℕ}

/-- A walk from the start to the goal with these steps, as cheap as any. -/
structure Best (grid : Grid) (start goal : Point) (A B : ℕ) : Prop where
  walk : Walk grid start goal A B
  least : ∀ a b : ℕ, Walk grid start goal a b → (⟨A, B⟩ : Cost) ≤ ⟨a, b⟩

theorem cost_inj {a b c d : ℕ} (same : (⟨a, b⟩ : Cost) = ⟨c, d⟩) : a = c ∧ b = d :=
  ⟨Int.ofNat.inj (congrArg Zsqrtd.re same), Int.ofNat.inj (congrArg Zsqrtd.im same)⟩

theorem Best.cheapest (best : Best grid start goal A B) : Cheapest grid goal start A B := by
  refine ⟨best.walk, fun c d walk one two => ?_⟩
  have le : (⟨c, d⟩ : Cost) ≤ ⟨A, B⟩ := cost_le (by omega) (by omega)
  exact cost_inj (le_antisymm le (best.least c d walk))

/-- A scored cell on a cheapest walk, with its score and the steps that remain. -/
structure Tracked (grid : Grid) (goal : Point) (A B : ℕ) (s : Search ℤ Cost) (p : Point) (a b c d : ℕ) : Prop where
  scored : s.gScore (grid.toIndex p.x p.y) = some ⟨a, b⟩
  walk : Walk grid p goal c d
  straight : a + c = A
  diagonal : b + d = B

/-- A score is the cost of a walk. -/
theorem score_walk (source : grid.Open start) (inv : Inv (jps grid start goal) grid.cells s) (isOpen : grid.Open p)
    {g : Cost} (scored : s.gScore (grid.toIndex p.x p.y) = some g) : ∃ a b : ℕ, Walk grid start p a b ∧ g = ⟨a, b⟩ := by
  obtain ⟨_, _, path, _, _, legal, rfl⟩ := rebuilds source inv scored
  rw [isOpen.cell_toIndex] at legal
  obtain ⟨a, b, walk, cost, _⟩ := legal.walk
  exact ⟨a, b, walk, cost⟩

theorem Tracked.cheapest (source : grid.Open start) (inv : Inv (jps grid start goal) grid.cells s)
    (best : Best grid start goal A B) (tracked : Tracked grid goal A B s p a b c d) : Cheapest grid goal p c d := by
  obtain ⟨a', b', walk, same⟩ := score_walk source inv tracked.walk.open_left tracked.scored
  obtain ⟨rfl, rfl⟩ := cost_inj same
  obtain ⟨_, rest, rfl, rfl⟩ := tracked
  exact best.cheapest.rest walk rest

theorem Cheapest.arrived (cheapest : Cheapest grid goal goal c d) : c = 0 ∧ d = 0 := by
  have := cheapest.least 0 0 (.stay cheapest.walk.open_left) (by omega) (by omega)
  omega

/-- The directions in which the cell is expanded. -/
def expanded (grid : Grid) (s : Search ℤ Cost) (p : Point) : List (ℤ × ℤ) :=
  prunedDirections grid p.x p.y ((s.cameFrom (grid.toIndex p.x p.y)).map grid.cell)

theorem expanded_parent (source : grid.Open p)
    (parent : s.cameFrom (grid.toIndex q.x q.y) = some (grid.toIndex p.x p.y)) :
    expanded grid s q = prunedDirections grid q.x q.y (some p) := by
  rw [expanded, parent, Option.map_some, source.cell_toIndex]

/-- A jump along a cheapest walk gets its score. -/
theorem Tracked.jump (source : grid.Open start) (settled : Settled (jps grid start goal) grid.cells s)
    (best : Best grid start goal A B) (tracked : Tracked grid goal A B s p a b c d)
    (closed : s.closed (grid.toIndex p.x p.y) = true) (other : p ≠ goal) {dir : Point}
    (member : (dir.x, dir.y) ∈ expanded grid s p) (jumps : Jumps grid goal p dir k q) {a' b' c' d' : ℕ}
    (cost : octileDistance p q = ⟨a', b'⟩) (walk : Walk grid q goal c' d') (straight : c = c' + a')
    (diagonal : d = d' + b') : Tracked grid goal A B s q (a + a') (b + b') c' d' := by
  have isOpen := tracked.walk.open_left
  have ordinary : (jps grid start goal).isGoal (grid.toIndex p.x p.y) = false := by
    refine decide_eq_false fun here => other ?_
    rwa [isOpen.cell_toIndex] at here
  have next : (grid.toIndex q.x q.y, octileDistance p q) ∈
      jumpPoints grid goal (grid.toIndex p.x p.y) (s.cameFrom (grid.toIndex p.x p.y)) :=
    (mem_jumpPoints isOpen).mpr ⟨_, member, k, q, jumps, rfl⟩
  obtain ⟨g, scored, le⟩ := settled.relaxed _ closed ordinary _ tracked.scored _ next
  obtain ⟨a'', b'', walk', rfl⟩ := score_walk source settled.inv walk.open_left scored
  refine ⟨?_, walk, ?_, ?_⟩
  · have least := best.least _ _ (walk'.trans walk)
    have total : (⟨A, B⟩ : Cost) = ⟨a, b⟩ + ⟨a', b'⟩ + ⟨c', d'⟩ := by
      rw [← tracked.straight, ← tracked.diagonal, straight, diagonal]
      ext <;> simp <;> ring
    have split : (⟨(a'' + c' : ℕ), (b'' + d' : ℕ)⟩ : Cost) = ⟨a'', b''⟩ + ⟨c', d'⟩ := by
      ext <;> simp
    rw [cost] at le
    rw [total, split, add_le_add_iff_right] at least
    rw [scored, le_antisymm le least]
    congr 1
  · have := tracked.straight
    omega
  · have := tracked.diagonal
    omega

/-- How a tracked cell was reached: its last step on a cheapest walk. -/
inductive Arrived (grid : Grid) (goal : Point) (A B : ℕ) (s : Search ℤ Cost) (q : Point) (a b c d : ℕ) : Prop
  | source (first : s.cameFrom (grid.toIndex q.x q.y) = none)
  | straight {p u m : Point} {k a' : ℕ} (closed : s.closed (grid.toIndex p.x p.y) = true)
      (tracked : Tracked grid goal A B s p a' b (c + k) d) (earlier : a' < a) (axis : u.Axis)
      (ray : Straight grid goal u p k q) (parent : s.cameFrom (grid.toIndex q.x q.y) = some (grid.toIndex p.x p.y))
      (last : q = m + u) (isOpen : grid.Open m) (cheapest : Cheapest grid goal m (c + 1) d)
  | diagonal {p u v m : Point} (source : grid.Open p) (perp : Perp u v) (x : sign (q.x - p.x) = (u + v).x)
      (y : sign (q.y - p.y) = (u + v).y)
      (parent : s.cameFrom (grid.toIndex q.x q.y) = some (grid.toIndex p.x p.y)) (last : q = m + u + v)
      (isOpen : grid.Open m) (cheapest : Cheapest grid goal m c (d + 1))

theorem Tracked.arrived (source : grid.Open start) (inv : Inv (jps grid start goal) grid.cells s)
    (best : Best grid start goal A B) (tracked : Tracked grid goal A B s q a b c d) :
    Arrived grid goal A B s q a b c d := by
  cases reached : s.cameFrom (grid.toIndex q.x q.y) with
  | none => exact .source reached
  | some parent =>
    obtain ⟨closed, g, w, known, member, total⟩ := inv.parents _ parent reached
    obtain ⟨p, isOpen, rfl⟩ := Grid.mem_cells.mp (inv.known parent g known)
    obtain ⟨dir, _, k, q', jumps, same⟩ := (mem_jumpPoints isOpen).mp member
    have target : grid.Open q' := by
      obtain ⟨_, _, walk, _⟩ := jumps.walk isOpen
      exact walk.open_right
    obtain ⟨index, rfl⟩ := Prod.mk.inj same
    have here : q = q' := by
      rw [← tracked.walk.open_left.cell_toIndex, index, target.cell_toIndex]
    subst here
    obtain ⟨a', b', walk, rfl⟩ := score_walk source inv isOpen known
    have score := Option.some.inj (tracked.scored.symm.trans total)
    have signs := jumps.sign
    generalize (⟨dir.1, dir.2⟩ : Point) = way at jumps signs
    rcases jumps with ⟨axis, ray⟩ | ⟨u, v, perp, rfl, ray⟩
    · have distance : octileDistance p q = ⟨k, 0⟩ := ray.target ▸ octileDistance_axis p axis k
      rw [distance] at score
      obtain ⟨rfl, rfl⟩ : a = a' + k ∧ b = b' := cost_inj (score.trans (by ext <;> simp))
      have before : Tracked grid goal A B s p a' b (c + k) d := by
        refine ⟨known, ?_, ?_, tracked.diagonal⟩
        · have := (ray.walk isOpen axis).trans tracked.walk
          rwa [zero_add, add_comm] at this
        · have := tracked.straight
          omega
      obtain ⟨m, j, walk', rfl, rfl⟩ := ray.last isOpen axis
      have along : Along grid goal m way (c + 1) d := ⟨c, rfl, tracked.walk⟩
      have cheapest : Cheapest grid goal m (c + 1) d := by
        refine Cheapest.rest (a := j) (b := 0) ?_ walk' (along.walk walk'.open_right axis)
        have := before.cheapest source inv best
        rwa [zero_add, add_left_comm]
      exact .straight closed before (by omega) axis ray reached rfl walk'.open_right cheapest
    · have distance : octileDistance p q = ⟨0, k⟩ := ray.target ▸ octileDistance_perp p perp k
      rw [distance] at score
      obtain ⟨rfl, rfl⟩ : a = a' ∧ b = b' + k := cost_inj (score.trans (by ext <;> simp))
      have before : Tracked grid goal A B s p a b' c (d + k) := by
        refine ⟨known, ?_, tracked.straight, ?_⟩
        · have := (ray.walk isOpen perp).trans tracked.walk
          rwa [zero_add, add_comm] at this
        · have := tracked.diagonal
          omega
      obtain ⟨m, j, walk', beside, rfl, rfl⟩ := ray.last isOpen perp
      have across : Across grid goal m u v c (d + 1) := ⟨d, rfl, beside, tracked.walk⟩
      have cheapest : Cheapest grid goal m c (d + 1) := by
        refine Cheapest.rest (a := 0) (b := j) ?_ walk' (across.walk walk'.open_right perp)
        have := before.cheapest source inv best
        rwa [zero_add, add_left_comm]
      exact .diagonal isOpen perp signs.1 signs.2 reached rfl walk'.open_right cheapest

/-- A tracked cell from where a cheapest walk can go on diagonally leads to one with more diagonal steps
done. -/
theorem Tracked.across (source : grid.Open start) (settled : Settled (jps grid start goal) grid.cells s)
    (best : Best grid start goal A B) (tracked : Tracked grid goal A B s p a b c d)
    (closed : s.closed (grid.toIndex p.x p.y) = true) (perp : Perp u v) (across : Across grid goal p u v c d) :
    ∃ q a' b' c' d', Tracked grid goal A B s q a' b' c' d' ∧ b < b' := by
  induction a using Nat.strong_induction_on generalizing p u v c d with
  | _ a ih =>
    have isOpen := tracked.walk.open_left
    have cheapest := tracked.cheapest source settled.inv best
    have other : p ≠ goal := by
      rintro rfl
      obtain ⟨_, rfl, _⟩ := across
      exact absurd cheapest.arrived.2 (Nat.succ_ne_zero _)
    -- an expanded direction
    have finish {u v : Point} (perp : Perp u v) (across : Across grid goal p u v c d)
        (member : ((u + v).x, (u + v).y) ∈ expanded grid s p) :
        ∃ q a' b' c' d', Tracked grid goal A B s q a' b' c' d' ∧ b < b' := by
      obtain ⟨k, q, d', ray, walk, total⟩ := diagonal_ray cheapest isOpen perp across
      have distance : octileDistance p q = ⟨(0 : ℕ), k⟩ := ray.target ▸ octileDistance_perp p perp k
      have next := tracked.jump source settled best closed other member (.inr ⟨u, v, perp, rfl, ray⟩) distance walk
        rfl total
      exact ⟨q, _, _, _, _, next, Nat.lt_add_of_pos_right ray.pos⟩
    cases tracked.arrived source settled.inv best with
    | source first =>
      refine finish perp across ?_
      rw [expanded, first]
      exact AStar.mem_directions.mpr (perp_near perp)
    | @straight p' w m k a' closed' tracked' earlier axis ray parent last isOpen' cheapest' =>
      subst last
      have turned : ∃ z, Perp w z ∧ Across grid goal (m + w) w z c d := by
        rcases straight_diagonal cheapest' isOpen' axis perp across with ⟨rfl, beside⟩ | ⟨rfl, beside⟩
        · exact ⟨v, beside, across⟩
        · exact ⟨u, beside, across.symm⟩
      obtain ⟨z, beside, across⟩ := turned
      obtain ⟨x, y⟩ := Jumps.sign (.inl ⟨axis, ray⟩)
      have straight := tracked'.walk.open_left
      by_cases free : grid.Open (m + w + z)
      · -- the direction is pruned: the walk can turn off at the cell before already
        obtain ⟨d, rfl, _, walk⟩ := across
        have shifted := straight_shift axis beside ray free walk
        have next : grid.Open (p' + w) := (Ray.iff.mp ⟨k, ray⟩).1
        exact ih a' earlier tracked' closed' beside ⟨d, rfl, .inl next, shifted⟩
      · refine finish beside across ?_
        rw [expanded_parent straight parent]
        obtain ⟨_, _, _, walk⟩ := across
        exact (pruned_straight axis x y).2 z beside free walk.open_left
    | @diagonal p' w z m source' perp' x y parent last isOpen' cheapest' =>
      subst last
      have directions := @pruned_diagonal grid _ _ _ _ perp' x y
      rw [← expanded_parent source' parent] at directions
      obtain ⟨_, _, on, left, right⟩ := directions
      rcases diagonal_diagonal cheapest' isOpen' perp' perp across with across | ⟨shut, across⟩ | ⟨shut, across⟩
      · refine finish perp' across (on ?_)
        obtain ⟨_, _, beside, _⟩ := across
        exact beside
      · refine finish perp'.neg_left across (left shut ?_)
        obtain ⟨_, _, beside, _⟩ := across
        exact beside.resolve_left (sub_eq_add_neg (m + w + z) w ▸ shut)
      · refine finish perp'.neg_right across (right shut ?_)
        obtain ⟨_, _, beside, _⟩ := across
        exact beside.resolve_right (sub_eq_add_neg (m + w + z) z ▸ shut)

/-- A tracked cell from where cheapest walks go on straight only leads to one with more straight steps done. -/
theorem Tracked.along (source : grid.Open start) (settled : Settled (jps grid start goal) grid.cells s)
    (best : Best grid start goal A B) (tracked : Tracked grid goal A B s p a b c d)
    (closed : s.closed (grid.toIndex p.x p.y) = true) (axis : u.Axis) (along : Along grid goal p u c d)
    (plain : ∀ v, Perp u v → ¬ Across grid goal p u v c d) :
    ∃ q a' c', Tracked grid goal A B s q a' b c' d ∧ a < a' := by
  have isOpen := tracked.walk.open_left
  have cheapest := tracked.cheapest source settled.inv best
  have other : p ≠ goal := by
    rintro rfl
    obtain ⟨_, rfl, _⟩ := along
    exact absurd cheapest.arrived.1 (Nat.succ_ne_zero _)
  have free : grid.Open (p + u) := by
    obtain ⟨_, _, walk⟩ := along
    exact walk.open_left
  have member : (u.x, u.y) ∈ expanded grid s p := by
    cases tracked.arrived source settled.inv best with
    | source first =>
      rw [expanded, first]
      exact AStar.mem_directions.mpr (axis_near axis)
    | straight closed' tracked' _ axis' ray parent last isOpen' cheapest' =>
      subst last
      obtain rfl := straight_straight cheapest' isOpen' axis' isOpen axis along
      obtain ⟨x, y⟩ := Jumps.sign (.inl ⟨axis, ray⟩)
      rw [expanded_parent tracked'.walk.open_left parent]
      exact (pruned_straight axis x y).1 free
    | diagonal source' perp x y parent last isOpen' cheapest' =>
      subst last
      rw [expanded_parent source' parent]
      obtain ⟨first, second, _⟩ := pruned_diagonal perp x y
      rcases diagonal_straight cheapest' isOpen' perp axis along with rfl | rfl
      · exact first free
      · exact second free
  obtain ⟨k, q, c', ray, walk, total⟩ := straight_ray cheapest isOpen axis along plain
  have distance : octileDistance p q = ⟨k, (0 : ℕ)⟩ := ray.target ▸ octileDistance_axis p axis k
  have next := tracked.jump source settled best closed other member (.inl ⟨axis, ray⟩) distance walk total rfl
  exact ⟨q, _, _, next, Nat.lt_add_of_pos_right ray.pos⟩

/-- Some tracked cell is open or the goal. -/
theorem exists_tracked (source : grid.Open start) (settled : Settled (jps grid start goal) grid.cells s)
    (best : Best grid start goal A B) : ∃ p a b c d, Tracked grid goal A B s p a b c d ∧
      (s.closed (grid.toIndex p.x p.y) = false ∨ p = goal) := by
  have go (size : ℕ) : ∀ p a b c d, Tracked grid goal A B s p a b c d → d * (A + 1) + c = size →
      ∃ p a b c d, Tracked grid goal A B s p a b c d ∧ (s.closed (grid.toIndex p.x p.y) = false ∨ p = goal) := by
    induction size using Nat.strong_induction_on with
    | _ size ih =>
      intro p a b c d tracked same
      by_cases ends : s.closed (grid.toIndex p.x p.y) = false ∨ p = goal
      · exact ⟨p, a, b, c, d, tracked, ends⟩
      rw [not_or, Bool.not_eq_false] at ends
      obtain ⟨closed, other⟩ := ends
      have total := tracked.straight
      have total' := tracked.diagonal
      by_cases diagonal : ∃ u v, Perp u v ∧ Across grid goal p u v c d
      · obtain ⟨u, v, perp, across⟩ := diagonal
        obtain ⟨q, a', b', c', d', next, more⟩ := tracked.across source settled best closed perp across
        refine ih _ ?_ q a' b' c' d' next rfl
        have straight := next.straight
        have diagonal := next.diagonal
        have less : (d' + 1) * (A + 1) ≤ d * (A + 1) := Nat.mul_le_mul_right _ (by omega)
        rw [Nat.succ_mul] at less
        omega
      · rcases (tracked.cheapest source settled.inv best).first other with ⟨u, axis, along⟩ | across
        · obtain ⟨q, a', c', next, more⟩ := tracked.along source settled best closed axis along
            fun v perp across => diagonal ⟨u, v, perp, across⟩
          refine ih _ ?_ q a' b c' d next rfl
          have straight := next.straight
          omega
        · exact absurd across diagonal
  exact go _ start 0 0 A B ⟨settled.inv.root.1, best.walk, zero_add A, zero_add B⟩ rfl

end Search

/-- The estimate is never above the cost of a walk. -/
theorem octileDistance_walk (walk : Walk grid p q a b) : octileDistance p q ≤ ⟨a, b⟩ := by
  induction walk with
  | stay _ =>
    rw [octileDistance_self]
    rfl
  | @straight q u a b walk axis isOpen ih =>
    have step := octileDistance_axis q axis 1
    rw [one_smul] at step
    have total : (⟨(a + 1 : ℕ), b⟩ : Cost) = ⟨a, b⟩ + ⟨(1 : ℕ), 0⟩ := by ext <;> simp
    rw [total, ← step]
    exact (octileDistance_triangle p q (q + u)).trans (add_le_add_left ih _)
  | @diagonal q u v a b walk perp beside isOpen ih =>
    have step := octileDistance_perp q perp 1
    rw [one_smul, ← add_assoc] at step
    have total : (⟨a, (b + 1 : ℕ)⟩ : Cost) = ⟨a, b⟩ + ⟨0, (1 : ℕ)⟩ := by ext <;> simp
    rw [total, ← step]
    exact (octileDistance_triangle p q (q + u + v)).trans (add_le_add_left ih _)

/-- Where there is a walk, there is a best one. -/
theorem exists_best (walk : Walk grid start goal a b) : ∃ A B, Best grid start goal A B := by
  obtain ⟨_, result, _, answers⟩ := AStar.findPath_answers grid start goal
  have found := answers.found.mpr ⟨a, b, walk⟩
  obtain ⟨A, B, best, cost, _⟩ := (answers.legal found).walk
  refine ⟨A, B, best, fun a b other => ?_⟩
  rw [← cost]
  exact answers.cheapest found a b other

theorem findPath_answers (grid : Grid) (start goal : Point) :
    ∃ fuel result, (∀ more, fuel ≤ more → findPath grid start goal more = some result) ∧
      Answers grid start goal result := by
  by_cases shut : grid.isWalkable start.x start.y = false ∨ grid.isWalkable goal.x goal.y = false
  · obtain ⟨result, answers, _, ends⟩ := findPath_shut shut
    exact ⟨0, result, fun more _ => ends more _ _, answers⟩
  obtain ⟨source, target⟩ := open_ends shut
  obtain ⟨fuel, result, reached, s, finished, ends, outcome⟩ := findPath_ends source target
  refine ⟨fuel, result, ends, ?_⟩
  cases finished with
  | exhausted settled queue goals =>
    rcases outcome with ⟨_, missed⟩ | ⟨v, g, reached, _⟩
    · have never : ¬ ∃ a b, Walk grid start goal a b := by
        rintro ⟨a, b, walk⟩
        obtain ⟨A, B, best⟩ := exists_best walk
        obtain ⟨p, a, b, c, d, tracked, ends⟩ := exists_tracked source settled best
        have closed : s.closed (grid.toIndex p.x p.y) = true := by
          by_contra left
          have queued := settled.inv.queued _ _ tracked.scored (Bool.eq_false_iff.mpr left)
          rw [queue] at queued
          exact List.not_mem_nil queued
        rcases ends with left | rfl
        · exact Bool.eq_false_iff.mp left closed
        · exact Bool.eq_false_iff.mp (goals _ closed) (decide_eq_true target.cell_toIndex)
      exact ⟨⟨fun found => absurd found (Bool.eq_false_iff.mp missed), fun walk => absurd walk never⟩,
        fun found => absurd found (Bool.eq_false_iff.mp missed),
        fun found => absurd found (Bool.eq_false_iff.mp missed)⟩
    · exact (Option.some_ne_none v reached.symm).elim
  | @reached s settled v done isGoal goals =>
    rcases outcome with ⟨missed, _⟩ | ⟨v', g, reached, scored, found, legal, cost⟩
    · exact (Option.some_ne_none v missed).elim
    obtain rfl := Option.some.inj reached
    obtain ⟨a, b, walk, _⟩ := legal.walk
    refine ⟨⟨fun _ => ⟨a, b, walk⟩, fun _ => found⟩, fun _ => legal, fun _ a b walk => ?_⟩
    rw [cost]
    obtain ⟨A, B, best⟩ := exists_best walk
    refine le_trans ?_ (best.least a b walk)
    have there : grid.cell v = goal := of_decide_eq_true isGoal
    obtain ⟨p, a, b, c, d, tracked, ends⟩ := exists_tracked source settled best
    have total : (⟨A, B⟩ : Cost) = ⟨a, b⟩ + ⟨c, d⟩ := by
      rw [← tracked.straight, ← tracked.diagonal]
      ext <;> simp
    rcases ends with left | rfl
    · -- the goal was closed before this cell, so it is estimated to be no worse
      have queued := settled.inv.queued _ _ tracked.scored left
      have ahead : g + octileDistance (grid.cell v) goal ≤
          ⟨a, b⟩ + octileDistance (grid.cell (grid.toIndex p.x p.y)) goal :=
        settled.inv.monotone v g done scored _ queued
      rw [there, octileDistance_self, add_zero, tracked.walk.open_left.cell_toIndex] at ahead
      rw [total]
      exact ahead.trans (add_le_add_right (octileDistance_walk tracked.walk) _)
    · obtain ⟨rfl, rfl⟩ := (tracked.cheapest source settled.inv best).arrived
      obtain ⟨q, isOpen, rfl⟩ := Grid.mem_cells.mp (settled.inv.known v g scored)
      rw [isOpen.cell_toIndex] at there
      subst there
      obtain rfl := Option.some.inj (scored.symm.trans tracked.scored)
      rw [total]
      exact le_of_eq (by ext <;> simp)

end LockFreeCore.JPS
