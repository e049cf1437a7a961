import LockFreeCore.Proofs.Pathfinding.Paths

/-! # A* finds a cheapest path

`findPath` is a best-first search over the indexes of the open cells, and the octile distance to the
goal is a consistent estimate for it.
-/

namespace LockFreeCore.Pathfinding

open Point BestFirst

variable {grid : Grid} {start goal : Point}

/-- The search of a `findPath` with these successors. -/
def problem (grid : Grid) (start goal : Point) (successors : ℤ → Option ℤ → List (ℤ × Cost)) :
    Problem ℤ Cost where
  source := grid.toIndex start.x start.y
  isGoal index := grid.cell index = goal
  estimate index := octileDistance (grid.cell index) goal
  successors := successors

/-- Successors that are open cells, at their octile distance, suit the estimate. -/
theorem problem_consistent {successors : ℤ → Option ℤ → List (ℤ × Cost)} (source : grid.Open start)
    (ahead : ∀ p, grid.Open p → ∀ parent, ∀ next ∈ successors (grid.toIndex p.x p.y) parent,
      ∃ q, grid.Open q ∧ next = (grid.toIndex q.x q.y, octileDistance p q) ∧ 0 < octileDistance p q) :
    (problem grid start goal successors).Consistent grid.cells where
  source := Grid.mem_cells.mpr ⟨start, source, rfl⟩
  closed v cell parent next member := by
    obtain ⟨p, isOpen, rfl⟩ := Grid.mem_cells.mp cell
    obtain ⟨q, isOpen', rfl, _⟩ := ahead p isOpen parent next member
    exact Grid.mem_cells.mpr ⟨q, isOpen', rfl⟩
  positive v cell parent next member := by
    obtain ⟨p, isOpen, rfl⟩ := Grid.mem_cells.mp cell
    obtain ⟨q, _, rfl, positive⟩ := ahead p isOpen parent next member
    exact positive
  estimate v cell parent next member := by
    obtain ⟨p, isOpen, rfl⟩ := Grid.mem_cells.mp cell
    obtain ⟨q, isOpen', rfl, _⟩ := ahead p isOpen parent next member
    change octileDistance _ goal ≤ octileDistance p q + octileDistance _ goal
    rw [isOpen.cell_toIndex, isOpen'.cell_toIndex]
    exact octileDistance_triangle p q goal

/-- `findPath` between open cells, by how its search ends. -/
theorem findPath_finished {successors : ℤ → Option ℤ → List (ℤ × Cost)}
    (consistent : (problem grid start goal successors).Consistent grid.cells) (source : grid.Open start)
    (target : grid.Open goal) :
    ∃ fuel reached s, Finished (problem grid start goal successors) grid.cells (reached, s) ∧
      ∀ more, fuel ≤ more → ∀ connect,
        Pathfinding.findPath grid start goal more (fun v parent => some (successors v parent)) connect =
          conclude grid more connect (reached, s) := by
  obtain ⟨fuel, ⟨reached, s⟩, ran, finished⟩ := run_init consistent
  refine ⟨fuel, reached, s, finished, fun more le connect => ?_⟩
  have walkable : ¬ (grid.isWalkable start.x start.y = false ∨ grid.isWalkable goal.x goal.y = false) := by
    rintro (shut | shut)
    · exact Bool.eq_false_iff.mp shut source
    · exact Bool.eq_false_iff.mp shut target
  rw [Pathfinding.findPath, if_neg walkable]
  exact congrArg (Option.bind · (conclude grid more connect)) (search_mono le ran)

/-- The way back from a node can be put together to a legal path that costs the score. -/
def Rebuilds (grid : Grid) (start : Point) (connect : ℕ → List Point → Option (List Point)) (s : Search ℤ Cost)
    (v : ℤ) (g : Cost) : Prop :=
  ∃ fuel back path, parents s.cameFrom fuel v = some back ∧
    (∀ more, fuel ≤ more → connect more (back.reverse.map grid.cell) = some path) ∧
    LegalPath grid start (grid.cell v) path ∧ pathCost path = g

/-- `findPath` between open cells returns the path to the goal that its search ends with, if any. -/
theorem findPath_total {successors : ℤ → Option ℤ → List (ℤ × Cost)}
    {connect : ℕ → List Point → Option (List Point)}
    (consistent : (problem grid start goal successors).Consistent grid.cells) (source : grid.Open start)
    (target : grid.Open goal)
    (rebuild : ∀ s, Inv (problem grid start goal successors) grid.cells s → ∀ v g, s.gScore v = some g →
      Rebuilds grid start connect s v g) :
    ∃ fuel result reached s, Finished (problem grid start goal successors) grid.cells (reached, s) ∧
      (∀ more, fuel ≤ more → Pathfinding.findPath grid start goal more
        (fun v parent => some (successors v parent)) (connect more) = some result) ∧
      ((reached = none ∧ result.found = false) ∨ ∃ v g, reached = some v ∧ s.gScore v = some g ∧
        result.found = true ∧ LegalPath grid start goal result.path ∧ pathCost result.path = g) := by
  obtain ⟨fuel, reached, s, finished, ends⟩ := findPath_finished consistent source target
  cases id finished with
  | exhausted settled queue goals =>
    exact ⟨fuel, _, none, s, finished, fun more le => ends more le (connect more), .inl ⟨rfl, rfl⟩⟩
  | @reached s settled v done isGoal goals =>
    obtain ⟨g, scored⟩ := settled.inv.scored v done
    obtain ⟨fuel', back, path, ran, connected, legal, cost⟩ := rebuild s settled.inv v g scored
    have here : grid.cell v = goal := of_decide_eq_true isGoal
    rw [here] at legal
    refine ⟨max fuel fuel', ⟨true, path, s.nodesExpanded⟩, some v, s, finished, fun more le => ?_,
      .inr ⟨v, g, rfl, scored, rfl, legal, cost⟩⟩
    refine (ends more (le_trans (le_max_left _ _) le) (connect more)).trans ?_
    change (parents s.cameFrom more v).bind _ = _
    rw [parents_mono (le_trans (le_max_right _ _) le) ran, Option.bind_some,
      connected more (le_trans (le_max_right _ _) le)]
    rfl

/-- What a `findPath` is for: a cheapest legal path, if there is one. -/
structure Answers (grid : Grid) (start goal : Point) (result : PathResult) : Prop where
  found : result.found = true ↔ ∃ a b, Walk grid start goal a b
  legal : result.found = true → LegalPath grid start goal result.path
  cheapest : result.found = true → ∀ a b : ℕ, Walk grid start goal a b → pathCost result.path ≤ ⟨a, b⟩

/-- From or to a cell that is not open there is no path, and none is found. -/
theorem findPath_shut (shut : grid.isWalkable start.x start.y = false ∨ grid.isWalkable goal.x goal.y = false) :
    ∃ result, Answers grid start goal result ∧ result.found = false ∧
      ∀ fuel successors connect, Pathfinding.findPath grid start goal fuel successors connect = some result := by
  refine ⟨⟨false, [], 0⟩, ⟨⟨fun found => Bool.noConfusion found, ?_⟩, fun found => Bool.noConfusion found,
    fun found => Bool.noConfusion found⟩, rfl, fun fuel successors connect => if_pos shut⟩
  rintro ⟨a, b, walk⟩
  rcases shut with closed | closed
  · exact absurd walk.open_left (Bool.eq_false_iff.mp closed)
  · exact absurd walk.open_right (Bool.eq_false_iff.mp closed)

/-- Otherwise both ends are open. -/
theorem open_ends (free : ¬ (grid.isWalkable start.x start.y = false ∨ grid.isWalkable goal.x goal.y = false)) :
    grid.Open start ∧ grid.Open goal := by
  rw [not_or, Bool.not_eq_false, Bool.not_eq_false] at free
  exact free

end LockFreeCore.Pathfinding

namespace LockFreeCore.AStar

open Pathfinding Point BestFirst

variable {grid : Grid} {start goal p : Point}

theorem mem_directions {dir : ℤ × ℤ} :
    dir ∈ directions ↔ dir.1.natAbs ≤ 1 ∧ dir.2.natAbs ≤ 1 ∧ ¬ (dir.1 = 0 ∧ dir.2 = 0) := by
  obtain ⟨dx, dy⟩ := dir
  simp only [directions, List.mem_cons, Prod.mk.injEq, List.not_mem_nil, or_false]
  omega

/-- The successors of a cell are the cells that a legal move leads to. -/
theorem mem_successors (source : grid.Open p) {next : ℤ × Cost} :
    next ∈ successors grid (grid.toIndex p.x p.y) ↔
      ∃ q, Move grid p q ∧ next = (grid.toIndex q.x q.y, stepCost p q) := by
  simp only [successors, source.cell_toIndex, List.mem_filterMap]
  constructor
  · rintro ⟨⟨dx, dy⟩, member, found⟩
    obtain ⟨x, y, moves⟩ := mem_directions.mp member
    dsimp only at found x y moves
    rw [Option.ite_none_left_eq_some, Option.ite_none_left_eq_some] at found
    obtain ⟨walkable, free, found⟩ := found
    obtain rfl := Option.some.inj found
    refine ⟨⟨p.x + dx, p.y + dy⟩, ⟨source, (Bool.not_eq_false _).mp walkable, fun same => moves ?_, ?_,
      fun x y => ?_⟩, ?_⟩
    · have x := congrArg Point.x same
      have y := congrArg Point.y same
      dsimp only at x y
      omega
    · dsimp only
      rw [add_sub_cancel_left, add_sub_cancel_left]
      exact ⟨x, y⟩
    · dsimp only at x y
      have passes : canMoveDiagonally grid p.x p.y dx dy = true := by
        by_contra blocked
        exact free ⟨by omega, Bool.eq_false_iff.mpr blocked⟩
      exact (Bool.or_eq_true _ _).mp passes
    · rw [stepCost]
      congr 1
      refine if_congr ?_ rfl rfl
      dsimp only
      omega
  · rintro ⟨q, move, rfl⟩
    obtain ⟨_, target, moves, ⟨x, y⟩, beside⟩ := id move
    refine ⟨(q.x - p.x, q.y - p.y), mem_directions.mpr ⟨x, y, fun zero => moves ?_⟩, ?_⟩
    · dsimp only at zero
      ext <;> omega
    · dsimp only
      rw [add_sub_cancel, add_sub_cancel, if_neg (Bool.eq_false_iff.not_left.mpr target), if_neg, stepCost]
      · have same : (q.x - p.x ≠ 0 ∧ q.y - p.y ≠ 0) ↔ (q.x ≠ p.x ∧ q.y ≠ p.y) := by omega
        simp only [same]
      · rintro ⟨⟨x, y⟩, blocked⟩
        refine Bool.eq_false_iff.mp blocked ?_
        rw [canMoveDiagonally, add_sub_cancel, add_sub_cancel]
        exact (Bool.or_eq_true _ _).mpr (beside (by omega) (by omega))

/-- The octile distance of a legal move is its cost. -/
theorem octileDistance_move {q : Point} (move : Move grid p q) : octileDistance p q = stepCost p q := by
  rcases move.step with ⟨u, axis, rfl, cost⟩ | ⟨u, v, perp, rfl, _, cost⟩
  · have ray := octileDistance_axis p axis 1
    rw [one_smul] at ray
    rw [cost, ray]
    rfl
  · have ray := octileDistance_perp p perp 1
    rw [one_smul, ← add_assoc] at ray
    rw [cost, ray]
    rfl

theorem stepCost_pos (p q : Point) : 0 < stepCost p q := by
  rw [stepCost]
  split_ifs
  · decide
  · decide

abbrev astar (grid : Grid) (start goal : Point) : Problem ℤ Cost :=
  problem grid start goal fun currentIdx _ => successors grid currentIdx

theorem consistent (goal : Point) (source : grid.Open start) : (astar grid start goal).Consistent grid.cells := by
  refine problem_consistent source fun p isOpen parent next member => ?_
  obtain ⟨q, move, rfl⟩ := (mem_successors isOpen).mp member
  rw [← octileDistance_move move]
  exact ⟨q, move.target, rfl, octileDistance_move move ▸ stepCost_pos p q⟩

/-- A walk is a route of the search, at its cost. -/
theorem route {a b : ℕ} (walk : Walk grid start p a b) :
    Route (astar grid start goal) (grid.toIndex p.x p.y) ⟨a, b⟩ := by
  induction walk with
  | stay _ => exact .source
  | @straight q u a b walk axis isOpen ih =>
    obtain ⟨move, cost⟩ := Move.axis axis walk.open_right isOpen
    have member := (mem_successors walk.open_right).mpr ⟨_, move, rfl⟩
    have step := ih.step fun _ => member
    rw [cost] at step
    have total : (⟨(a + 1 : ℕ), b⟩ : Cost) = ⟨a, b⟩ + ⟨1, 0⟩ := by ext <;> simp
    rw [total]
    exact step
  | @diagonal q u v a b walk perp beside isOpen ih =>
    obtain ⟨move, cost⟩ := Move.perp perp walk.open_right beside isOpen
    have member := (mem_successors walk.open_right).mpr ⟨_, move, rfl⟩
    have step := ih.step fun _ => member
    rw [cost] at step
    have total : (⟨a, (b + 1 : ℕ)⟩ : Cost) = ⟨a, b⟩ + ⟨0, 1⟩ := by ext <;> simp
    rw [total]
    exact step

/-- The way back from a scored cell is a legal path that costs the score. -/
theorem rebuilds {s : Search ℤ Cost} (source : grid.Open start)
    (inv : Inv (astar grid start goal) grid.cells s) {v : ℤ} {g : Cost} (scored : s.gScore v = some g) :
    Rebuilds grid start (fun _ => some) s v g := by
  refine inv.induction (consistent goal source) (motive := Rebuilds grid start (fun _ => some) s) ?_ ?_ scored
  · refine ⟨1, [grid.toIndex start.x start.y], [grid.cell (grid.toIndex start.x start.y)], ?_, fun _ _ => rfl, ?_,
      rfl⟩
    · change parents s.cameFrom 1 (grid.toIndex start.x start.y) = _
      rw [parents, show s.cameFrom (grid.toIndex start.x start.y) = none from inv.root.2]
    · change LegalPath grid start (grid.cell (grid.toIndex start.x start.y)) _
      rw [source.cell_toIndex]
      exact .single source
  · rintro v parent g w reached _ known member _ ⟨fuel, back, path, ran, connected, legal, cost⟩
    obtain rfl := Option.some.inj (connected fuel le_rfl)
    obtain ⟨p, isOpen, rfl⟩ := Grid.mem_cells.mp (inv.known parent g known)
    obtain ⟨q, move, same⟩ := (mem_successors isOpen).mp member
    obtain ⟨rfl, rfl⟩ := Prod.mk.inj same
    rw [isOpen.cell_toIndex] at legal
    refine ⟨fuel + 1, grid.toIndex q.x q.y :: back, _, ?_, fun _ _ => rfl, ?_, ?_⟩
    · rw [parents, reached]
      exact congrArg (Option.map _) ran
    · rw [List.reverse_cons, List.map_append, List.map_singleton, move.target.cell_toIndex]
      exact legal.concat move
    · rw [List.reverse_cons, List.map_append, List.map_singleton, move.target.cell_toIndex,
        pathCost_concat legal.ends, cost]

theorem findPath_answers (grid : Grid) (start goal : Point) :
    ∃ fuel result, (∀ more, fuel ≤ more → findPath grid start goal more = some result) ∧
      Answers grid start goal result := by
  by_cases shut : grid.isWalkable start.x start.y = false ∨ grid.isWalkable goal.x goal.y = false
  · obtain ⟨result, answers, _, ends⟩ := findPath_shut shut
    exact ⟨0, result, fun more _ => ends more _ _, answers⟩
  obtain ⟨source, target⟩ := open_ends shut
  obtain ⟨fuel, result, reached, s, finished, ends, outcome⟩ := findPath_total
    (consistent goal source) source target fun s inv v g scored => rebuilds source inv scored
  have isGoal : (astar grid start goal).isGoal (grid.toIndex goal.x goal.y) = true :=
    decide_eq_true (Grid.Open.cell_toIndex target)
  refine ⟨fuel, result, ends, ?_⟩
  cases finished with
  | exhausted settled queue goals =>
    rcases outcome with ⟨_, missed⟩ | ⟨v, g, reached, _⟩
    · have never : ¬ ∃ a b, Walk grid start goal a b := by
        rintro ⟨a, b, walk⟩
        exact Bool.eq_false_iff.mp (settled.no_route (consistent goal source) queue goals (route walk)) isGoal
      exact ⟨⟨fun found => absurd found (Bool.eq_false_iff.mp missed), fun walk => absurd walk never⟩,
        fun found => absurd found (Bool.eq_false_iff.mp missed),
        fun found => absurd found (Bool.eq_false_iff.mp missed)⟩
    · exact (Option.some_ne_none v reached.symm).elim
  | @reached s settled v done isGoal' goals =>
    rcases outcome with ⟨missed, _⟩ | ⟨v', g, reached, scored, found, legal, cost⟩
    · exact (Option.some_ne_none v missed).elim
    · obtain rfl := Option.some.inj reached
      have arrived {u : ℤ} (isGoal : (astar grid start goal).isGoal u = true) :
          (astar grid start goal).estimate u = 0 := by
        have there : grid.cell u = goal := of_decide_eq_true isGoal
        change octileDistance (grid.cell u) goal = 0
        rw [there, octileDistance_self]
      obtain ⟨a, b, walk, _⟩ := legal.walk
      refine ⟨⟨fun _ => ⟨a, b, walk⟩, fun _ => found⟩, fun _ => legal, fun _ a b walk => ?_⟩
      rw [cost]
      exact settled.optimal (consistent goal source) done goals scored (fun u => arrived) isGoal' (route walk) isGoal

end LockFreeCore.AStar
