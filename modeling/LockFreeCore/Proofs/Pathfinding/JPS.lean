import LockFreeCore.Proofs.Pathfinding.Jump

/-! # The paths of jump point search

The search keeps only jump points. Each is the end of a clear ray from the one before, so the filling,
which goes by the signs of the differences, meets every jump point and takes legal moves only.
-/

namespace LockFreeCore.JPS

open Pathfinding Point BestFirst

variable {grid : Grid} {start goal p q d u v : Point} {k : ℕ}

theorem Ray.ne {clear stop : Point → Prop} (moves : ¬ (d.x = 0 ∧ d.y = 0)) (ray : Ray clear stop d p k q) :
    ¬ (p.x = q.x ∧ p.y = q.y) := by
  rintro ⟨x, y⟩
  rw [ray.target] at x y
  simp only [add_x, add_y, smul_x, smul_y, left_eq_add, mul_eq_zero, Nat.cast_eq_zero] at x y
  have := ray.pos
  omega

theorem fill_here (p : Point) (stepX stepY : ℤ) (fuel : ℕ) : fill p stepX stepY (fuel + 1) p = some [] :=
  if_pos ⟨rfl, rfl⟩

theorem fill_step (other : ¬ (p.x = q.x ∧ p.y = q.y)) (fuel : ℕ) :
    fill q d.x d.y (fuel + 1) p = (fill q d.x d.y fuel (p + d)).map fun rest => (p + d) :: rest :=
  if_neg other

/-- Filling along a ray, after a legal path to its first cell. -/
theorem fill_ray {clear stop : Point → Prop} {c : Cost} (moves : ¬ (d.x = 0 ∧ d.y = 0))
    (step : ∀ p, grid.Open p → clear p → Move grid p (p + d) ∧ stepCost p (p + d) = c)
    (ray : Ray clear stop d p k q) {path : List Point} (legal : LegalPath grid start p path) :
    ∃ cells, (∀ fuel, k < fuel → fill q d.x d.y fuel p = some cells) ∧ LegalPath grid start q (path ++ cells) ∧
      pathCost (path ++ cells) = pathCost path + k • c := by
  induction ray generalizing path with
  | @stop p ahead stops =>
    obtain ⟨move, cost⟩ := step p (legal.walkable p (List.mem_of_getLast? legal.ends)) ahead
    refine ⟨[p + d], fun fuel enough => ?_, legal.concat move, ?_⟩
    · obtain ⟨fuel, rfl⟩ : ∃ n, fuel = n + 2 := ⟨fuel - 2, by omega⟩
      rw [fill_step ((Ray.stop ahead stops).ne moves), fill_here]
      rfl
    · rw [pathCost_concat legal.ends, cost, one_smul]
  | @pass p q k ahead passes rest ih =>
    obtain ⟨move, cost⟩ := step p (legal.walkable p (List.mem_of_getLast? legal.ends)) ahead
    obtain ⟨cells, ran, legal', cost'⟩ := ih (legal.concat move)
    rw [List.append_assoc, List.singleton_append] at legal' cost'
    refine ⟨(p + d) :: cells, fun fuel enough => ?_, legal', ?_⟩
    · obtain ⟨fuel, rfl⟩ : ∃ n, fuel = n + 1 := ⟨fuel - 1, by omega⟩
      rw [fill_step ((Ray.pass ahead passes rest).ne moves), ran fuel (by omega)]
      rfl
    · rw [cost', pathCost_concat legal.ends, cost, succ_nsmul', add_assoc]

theorem nsmul_cost (k : ℕ) (c : Cost) : k • c = ⟨k * c.re, k * c.im⟩ := by
  rw [nsmul_eq_mul]
  ext <;> simp

/-- Filling along a jump, at the cost it was scored with. -/
theorem Jumps.fill (jumps : Jumps grid goal p d k q) {path : List Point} (legal : LegalPath grid start p path) :
    ∃ cells, (∀ fuel, k < fuel → fill q d.x d.y fuel p = some cells) ∧ LegalPath grid start q (path ++ cells) ∧
      pathCost (path ++ cells) = pathCost path + octileDistance p q := by
  rcases jumps with ⟨axis, ray⟩ | ⟨u, v, perp, rfl, ray⟩
  · obtain ⟨cells, ran, legal', cost⟩ := fill_ray (axis_near axis).2.2
      (fun p source free => Move.axis axis source free) ray legal
    refine ⟨cells, ran, legal', ?_⟩
    rw [cost, nsmul_cost, ray.target, octileDistance_axis p axis k, mul_one, mul_zero]
  · obtain ⟨cells, ran, legal', cost⟩ := fill_ray (perp_near perp).2.2
      (fun p source free => add_assoc p u v ▸ Move.perp perp source free.1 free.2) ray legal
    refine ⟨cells, ran, legal', ?_⟩
    rw [cost, nsmul_cost, ray.target, octileDistance_perp p perp k, mul_one, mul_zero]

theorem Jumps.pos (jumps : Jumps grid goal p d k q) : 0 < k := by
  rcases jumps with ⟨_, ray⟩ | ⟨_, _, _, _, ray⟩
  · exact ray.pos
  · exact ray.pos

theorem Jumps.target (jumps : Jumps grid goal p d k q) : q = p + k • d := by
  rcases jumps with ⟨_, ray⟩ | ⟨_, _, _, rfl, ray⟩
  · exact ray.target
  · exact ray.target

theorem Jumps.near (jumps : Jumps grid goal p d k q) : d.x.natAbs ≤ 1 ∧ d.y.natAbs ≤ 1 := by
  rcases jumps with ⟨axis, _⟩ | ⟨_, _, perp, rfl, _⟩
  · exact ⟨(axis_near axis).1, (axis_near axis).2.1⟩
  · exact ⟨(perp_near perp).1, (perp_near perp).2.1⟩

theorem sign_mul (pos : 0 < k) {n : ℤ} (near : n.natAbs ≤ 1) : sign (k * n) = n := by
  have : n = -1 ∨ n = 0 ∨ n = 1 := by omega
  have cases := sign_cases (k * n)
  rcases this with rfl | rfl | rfl <;> omega

/-- The direction of a jump is found again from its ends. -/
theorem Jumps.sign (jumps : Jumps grid goal p d k q) : JPS.sign (q.x - p.x) = d.x ∧ JPS.sign (q.y - p.y) = d.y := by
  rw [jumps.target]
  simp only [add_x, add_y, smul_x, smul_y, add_sub_cancel_left]
  exact ⟨sign_mul jumps.pos jumps.near.1, sign_mul jumps.pos jumps.near.2⟩

/-! ## The way back -/

/-- One more waypoint. -/
theorem segments_concat {fuel : ℕ} {waypoints cells more : List Point} (ends : waypoints.getLast? = some p)
    (ran : segments fuel waypoints = some cells)
    (filled : fill q (sign (q.x - p.x)) (sign (q.y - p.y)) fuel p = some more) :
    segments fuel (waypoints ++ [q]) = some (cells ++ more) := by
  induction waypoints generalizing cells with
  | nil => contradiction
  | cons first rest ih =>
    cases rest with
    | nil =>
      rw [List.getLast?_singleton] at ends
      obtain rfl := Option.some.inj ends
      obtain rfl := Option.some.inj ran
      change (fill q _ _ fuel first).bind (fun segment => (some []).map fun path => segment ++ path) = _
      rw [filled, Option.bind_some, Option.map_some, List.append_nil, List.nil_append]
    | cons second rest =>
      obtain ⟨segment, here, joined⟩ := Option.bind_eq_some_iff.mp ran
      obtain ⟨path, rest', rfl⟩ := Option.map_eq_some_iff.mp joined
      have tail := ih (by rwa [List.getLast?_cons_cons] at ends) rest'
      change (fill second _ _ fuel first).bind
        (fun segment => (segments fuel (second :: rest ++ [q])).map fun path => segment ++ path) = _
      rw [here, Option.bind_some, tail, Option.map_some, List.append_assoc]

theorem connect_concat {fuel : ℕ} {waypoints path more : List Point} (ends : waypoints.getLast? = some p)
    (ran : connect fuel waypoints = some path)
    (filled : fill q (sign (q.x - p.x)) (sign (q.y - p.y)) fuel p = some more) :
    connect fuel (waypoints ++ [q]) = some (path ++ more) := by
  obtain ⟨first, head, joined⟩ := Option.bind_eq_some_iff.mp ran
  obtain ⟨cells, rest, rfl⟩ := Option.map_eq_some_iff.mp joined
  rw [connect, List.head?_append, head, segments_concat ends rest filled]
  rfl

abbrev jps (grid : Grid) (start goal : Point) : Problem ℤ Cost :=
  problem grid start goal (jumpPoints grid goal)

theorem Jumps.walk (source : grid.Open p) (jumps : Jumps grid goal p d k q) :
    ∃ a b : ℕ, Walk grid p q a b ∧ octileDistance p q = ⟨a, b⟩ := by
  obtain ⟨cells, _, legal, cost⟩ := jumps.fill (.single source)
  obtain ⟨a, b, walk, cost', _⟩ := legal.walk
  refine ⟨a, b, walk, ?_⟩
  rw [← cost', cost]
  exact (zero_add _).symm

theorem Jumps.ne (jumps : Jumps grid goal p d k q) : ¬ (p.x = q.x ∧ p.y = q.y) := by
  rcases jumps with ⟨axis, ray⟩ | ⟨_, _, perp, rfl, ray⟩
  · exact ray.ne (axis_near axis).2.2
  · exact ray.ne (perp_near perp).2.2

theorem consistent (goal : Point) (source : grid.Open start) : (jps grid start goal).Consistent grid.cells := by
  refine problem_consistent source fun p isOpen parent next member => ?_
  obtain ⟨dir, _, k, q, jumps, rfl⟩ := (mem_jumpPoints isOpen).mp member
  obtain ⟨a, b, walk, _⟩ := jumps.walk isOpen
  exact ⟨q, walk.open_right, rfl, octileDistance_pos jumps.ne⟩

/-- The way back from a scored cell, filled in, is a legal path that costs the score. -/
theorem rebuilds {s : Search ℤ Cost} (source : grid.Open start)
    (inv : Inv (jps grid start goal) grid.cells s) {v : ℤ} {g : Cost} (scored : s.gScore v = some g) :
    Rebuilds grid start connect s v g := by
  suffices rebuilt : ∃ fuel back path, parents s.cameFrom fuel v = some back ∧
      (back.reverse.map grid.cell).getLast? = some (grid.cell v) ∧
      (∀ more, fuel ≤ more → connect more (back.reverse.map grid.cell) = some path) ∧
      LegalPath grid start (grid.cell v) path ∧ pathCost path = g by
    obtain ⟨fuel, back, path, ran, _, rest⟩ := rebuilt
    exact ⟨fuel, back, path, ran, rest⟩
  refine inv.induction (consistent goal source) (motive := fun v g => ∃ fuel back path,
    parents s.cameFrom fuel v = some back ∧ (back.reverse.map grid.cell).getLast? = some (grid.cell v) ∧
      (∀ more, fuel ≤ more → connect more (back.reverse.map grid.cell) = some path) ∧
      LegalPath grid start (grid.cell v) path ∧ pathCost path = g) ?_ ?_ scored
  · refine ⟨1, [grid.toIndex start.x start.y], [grid.cell (grid.toIndex start.x start.y)], ?_, rfl, fun _ _ => rfl,
      ?_, rfl⟩
    · change parents s.cameFrom 1 (grid.toIndex start.x start.y) = _
      rw [parents, show s.cameFrom (grid.toIndex start.x start.y) = none from inv.root.2]
    · change LegalPath grid start (grid.cell (grid.toIndex start.x start.y)) _
      rw [source.cell_toIndex]
      exact .single source
  · rintro v parent g w reached _ known member _ ⟨fuel, back, path, ran, ends, connected, legal, cost⟩
    obtain ⟨p, isOpen, rfl⟩ := Grid.mem_cells.mp (inv.known parent g known)
    obtain ⟨dir, _, k, q, jumps, same⟩ := (mem_jumpPoints isOpen).mp member
    obtain ⟨rfl, rfl⟩ := Prod.mk.inj same
    rw [isOpen.cell_toIndex] at legal ends
    obtain ⟨cells, filled, legal', cost'⟩ := jumps.fill legal
    obtain ⟨x, y⟩ := jumps.sign
    have target : grid.Open q := legal'.walkable q (List.mem_of_getLast? legal'.ends)
    refine ⟨max (fuel + 1) (k + 1), grid.toIndex q.x q.y :: back, path ++ cells, ?_, ?_, fun more le => ?_, ?_, ?_⟩
    · refine parents_mono (le_max_left _ _) ?_
      rw [parents, reached]
      exact congrArg (Option.map _) ran
    · rw [List.reverse_cons, List.map_append]
      exact List.getLast?_concat
    · rw [List.reverse_cons, List.map_append, List.map_singleton, target.cell_toIndex]
      refine connect_concat ends (connected more (by omega)) ?_
      rw [x, y]
      exact filled more (by omega)
    · rw [target.cell_toIndex]
      exact legal'
    · rw [cost', cost]

/-- `findPath` between open cells, by how its search ends. -/
theorem findPath_ends (source : grid.Open start) (target : grid.Open goal) :
    ∃ fuel result reached s, Finished (jps grid start goal) grid.cells (reached, s) ∧
      (∀ more, fuel ≤ more → findPath grid start goal more = some result) ∧
      ((reached = none ∧ result.found = false) ∨ ∃ v g, reached = some v ∧ s.gScore v = some g ∧
        result.found = true ∧ LegalPath grid start goal result.path ∧ pathCost result.path = g) := by
  obtain ⟨fuel, result, reached, s, finished, ends, outcome⟩ := findPath_total (consistent goal source) source target
    fun s inv v g scored => rebuilds source inv scored
  refine ⟨max fuel (reach grid), result, reached, s, finished, fun more le => ?_, outcome⟩
  rw [findPath, successors_eq (le_trans (le_max_right _ _) le)]
  exact ends more (le_trans (le_max_left _ _) le)

end LockFreeCore.JPS
