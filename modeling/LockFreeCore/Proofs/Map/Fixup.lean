import LockFreeCore.Proofs.Map.Heap

/-! # The loop of `insertFixup`

Each pass of the loop turns the stored tree into the one that the corresponding step of the pure loop
builds, so the loop computes `repair` and needs no more passes than the path is long.
-/

namespace LockFreeCore.Map

open RedBlack RedBlack.RBT RedBlack.Spine

variable {K V : Type} {m : Map K V} {path : Spine (Cell K V)} {t : RBT (Cell K V)}

theorem fork_ne_nil (side : Side) (c : Color) (v : Cell K V) (near far : RBT (Cell K V)) :
    fork side c v near far ≠ .nil := by cases side <;> exact node_ne_nil

theorem ne_nil_of_red (red : t.color = .red) : t ≠ .nil := by
  rintro rfl
  contradiction

/-- Colouring the node above. -/
theorem setColor_above {f : Frame (Cell K V)} (stored : Stored m (rebuild (f :: path) t)) (d : Color) :
    ∃ m', m.setColor f.value.addr d = some m' ∧
      Stored m' (rebuild ({ f with color := d } :: path) t) ∧ Kept m m' := setColor_spec stored d

/-- A red uncle: the violation moves to the grandparent. -/
theorem insertFixupBody_recolor {p g : Frame (Cell K V)} (stored : Stored m (rebuild (p :: g :: path) t))
    (real : t ≠ .nil) (uncle : g.sibling.color = .red) :
    ∃ m', m.insertFixupBody g.side (addr t) = some (m', g.value.addr) ∧ Stored m' (rebuild path
      (fork g.side .red g.value (fork p.side .black p.value t p.sibling) g.sibling.blacken)) ∧ Kept m m' := by
  have grand : Stored m (rebuild (g :: path) (p.plug t)) := stored
  have swapped : Stored m (rebuild (⟨g.side.other, g.color, g.value, p.plug t⟩ :: path) g.sibling) :=
    rebuild_other .. ▸ grand
  have tint := swapped.color
  rw [uncle] at tint
  obtain ⟨m₁, ran₁, stored₁, kept₁⟩ := setColor_above stored .black
  have swapped₁ : Stored m₁ (rebuild (⟨g.side.other, g.color, g.value,
      fork p.side .black p.value t p.sibling⟩ :: path) g.sibling) := rebuild_other .. ▸ stored₁
  obtain ⟨m₂, ran₂, stored₂, kept₂⟩ := setColor_blacken swapped₁
  obtain ⟨m₃, ran₃, stored₃, kept₃⟩ := setColor_above stored₂ .red
  refine ⟨m₃, ?_, ?_, (kept₁.trans kept₂).trans kept₃⟩
  · rw [insertFixupBody]
    simp only [stored.parent real, above, Option.bind_eq_bind, Option.bind_some, stored.parent_frame,
      grand.sibling, tint, if_true, ran₁, ran₂, ran₃]
  · rw [rebuild_other, Side.other_other] at stored₃
    exact stored₃

/-- The last part of a pass with a black uncle: the parent is lifted above the grandparent. -/
theorem insertFixup_lift {p g : Frame (Cell K V)} (stored : Stored m (rebuild (p :: g :: path) t))
    (outer : p.side = g.side) :
    ∃ m₁ m₂ m₃, m.setColor p.value.addr .black = some m₁ ∧ m₁.parent p.value.addr = some g.value.addr ∧
      m₁.setColor g.value.addr .red = some m₂ ∧ m₂.rotate g.side.other g.value.addr = some m₃ ∧
      Stored m₃ (rebuild (⟨g.side, .black, p.value, fork g.side .red g.value p.sibling g.sibling⟩ :: path) t) ∧
      Kept m m₃ := by
  obtain ⟨m₁, ran₁, stored₁, kept₁⟩ := setColor_above stored .black
  obtain ⟨m₂, ran₂, stored₂, kept₂⟩ := setColor_above
    (t := fork p.side .black p.value t p.sibling) (f := g) stored₁ .red
  have shape : rebuild (⟨g.side, .red, g.value, g.sibling⟩ :: path) (fork p.side .black p.value t p.sibling) =
      rebuild path (fork g.side.other .red g.value g.sibling
        (fork g.side.other .black p.value p.sibling t)) := by
    rw [outer, fork_other, fork_other]
    rfl
  obtain ⟨m₃, ran₃, stored₃, kept₃⟩ := rotate_spec (shape ▸ stored₂)
  refine ⟨m₁, m₂, m₃, ran₁, stored₁.parent_frame, ran₂, ran₃, ?_, (kept₁.trans kept₂).trans kept₃⟩
  rw [fork_other, fork_other] at stored₃
  exact stored₃

/-- A black uncle: the rotations put a black node above the red one, and the loop will end. -/
theorem insertFixupBody_rotate {p g : Frame (Cell K V)} (stored : Stored m (rebuild (p :: g :: path) t))
    (red : t.color = .red) (parent : p.color = .red) (uncle : g.sibling.color = .black) :
    ∃ m' q t', m.insertFixupBody g.side (addr t) = some (m', addr t') ∧ t' ≠ .nil ∧ q.color = .black ∧
      q.plug t' = rotated p g t ∧ Stored m' (rebuild (q :: path) t') ∧ Kept m m' := by
  have real := ne_nil_of_red red
  have grand : Stored m (rebuild (g :: path) (p.plug t)) := stored
  have swapped : Stored m (rebuild (⟨g.side.other, g.color, g.value, p.plug t⟩ :: path) g.sibling) :=
    rebuild_other .. ▸ grand
  have tint := swapped.color
  rw [uncle] at tint
  obtain ⟨v, near, far, rfl⟩ := exists_fork_of_red g.side red
  by_cases outer : p.side = g.side
  · obtain ⟨m₁, m₂, m₃, ran₁, up, ran₂, ran₃, stored₃, kept⟩ := insertFixup_lift stored outer
    have different := stored.addr_ne_sibling (.inl real)
    have sibling := stored.sibling
    rw [outer] at sibling
    refine ⟨m₃, ⟨g.side, .black, p.value, fork g.side .red g.value p.sibling g.sibling⟩, _, ?_, real, rfl,
      (rotated_outer outer ..).symm, stored₃, kept⟩
    rw [insertFixupBody]
    simp only [stored.parent real, above, Option.bind_eq_bind, Option.bind_some, stored.parent_frame,
      grand.sibling, tint, reduceCtorEq, if_false, sibling, different, ran₁, up, ran₂, ran₃]
  · -- an inner child is first rotated above its parent
    have turn := Side.eq_other outer
    have shape : rebuild (p :: g :: path) (fork g.side .red v near far) =
        rebuild (g :: path) (fork g.side p.color p.value p.sibling (fork g.side .red v near far)) := by
      rw [rebuild, Frame.plug, turn, fork_other]
    obtain ⟨m₀, ran₀, stored₀, kept₀⟩ := rotate_spec (shape ▸ stored)
    have stored₀' : Stored m₀ (rebuild (⟨g.side, .red, v, far⟩ :: g :: path)
      (fork g.side p.color p.value p.sibling near)) := stored₀
    obtain ⟨m₁, m₂, m₃, ran₁, up, ran₂, ran₃, stored₃, kept⟩ := insertFixup_lift stored₀' rfl
    have start := stored.parent real
    have child := stored.child
    rw [turn, addr_fork] at child
    rw [addr_fork] at start
    have up₀ := stored₀'.parent (fork_ne_nil _ _ _ _ _)
    rw [addr_fork] at up₀
    refine ⟨m₃, ⟨g.side, .black, v, fork g.side .red g.value far g.sibling⟩,
      fork g.side p.color p.value p.sibling near, ?_, fork_ne_nil _ _ _ _ _, rfl, ?_, stored₃, kept₀.trans kept⟩
    · rw [insertFixupBody]
      simp only [addr_fork, start, above, Option.bind_eq_bind, Option.bind_some, stored.parent_frame,
        grand.sibling, tint, reduceCtorEq, if_false, child, if_true, ran₀, Option.map_some, up₀, ran₁, up,
        ran₂, ran₃]
    · rw [rotated_inner outer, parent]
      rfl

/-- The loop ends under a black node, and blackens the root. -/
theorem insertFixup_exit (stored : Stored m (rebuild path t)) (real : t ≠ .nil)
    (black : Spine.color path = .black) (fuel : ℕ) :
    ∃ m', insertFixup (fuel + 1) m (addr t) = some m' ∧ Stored m' (rebuild path t).blacken ∧ Kept m m' := by
  have whole : Stored m (rebuild [] (rebuild path t)) := stored
  obtain ⟨m', ran, stored', kept⟩ := setColor_blacken whole
  refine ⟨m', ?_, stored', kept⟩
  have tint := stored.color_above
  rw [black] at tint
  rw [insertFixup, stored.root]
  simp only [stored.parent real, Option.bind_eq_bind, Option.bind_some, tint, reduceCtorEq, if_false, ran]

/-- At a red node of an otherwise balanced tree `insertFixup` computes `repair`. -/
theorem insertFixup_spec (stored : Stored m (rebuild path t)) (fits : Fits path t.height)
    (balanced : t.Balanced) (red : t.color = .red) {fuel : ℕ} (enough : path.length + 1 ≤ fuel) :
    ∃ m', insertFixup fuel m (addr t) = some m' ∧ Stored m' (repair path t) ∧ Kept m m' := by
  have real := ne_nil_of_red red
  fun_induction repair path t generalizing m fuel with
  | case1 p g path t parent uncle ih =>
    obtain ⟨fits', balanced'⟩ := recolor_balanced fits balanced parent uncle
    obtain ⟨m₁, ran, stored₁, kept₁⟩ := insertFixupBody_recolor stored real uncle
    obtain ⟨fuel, rfl⟩ : ∃ rest, fuel = rest + 1 := ⟨fuel - 1, by omega⟩
    have shorter : path.length + 1 ≤ fuel := by
      simp only [List.length_cons] at enough
      omega
    obtain ⟨m', looped, stored', kept⟩ :=
      ih stored₁ fits' balanced' (color_fork ..) shorter (fork_ne_nil _ _ _ _ _)
    have grand : Stored m (rebuild (g :: path) (p.plug t)) := stored
    obtain ⟨l, left, side⟩ := grand.side (.inl (fork_ne_nil _ _ _ _ _))
    have tint := stored.color_above
    rw [Spine.color, parent, above] at tint
    rw [Frame.plug, addr_fork] at side
    refine ⟨m', ?_, stored', kept₁.trans kept⟩
    rw [addr_fork] at looped
    rw [insertFixup]
    simp only [stored.parent real, above, Option.bind_eq_bind, Option.bind_some, tint, if_true,
      stored.parent_frame, left, side, ran, looped]
  | case2 p g path t parent uncle =>
    have ublack : g.sibling.color = .black := by
      cases shade : g.sibling.color with
      | black => rfl
      | red => exact absurd shade uncle
    obtain ⟨m₁, q, t', ran, real', qblack, shape, stored₁, kept₁⟩ :=
      insertFixupBody_rotate stored red parent ublack
    obtain ⟨fuel, rfl⟩ : ∃ rest, fuel = rest + 1 + 1 :=
      ⟨fuel - 2, by simp only [List.length_cons] at enough; omega⟩
    obtain ⟨m', looped, stored', kept⟩ := insertFixup_exit stored₁ real' qblack fuel
    have grand : Stored m (rebuild (g :: path) (p.plug t)) := stored
    obtain ⟨l, left, side⟩ := grand.side (.inl (fork_ne_nil _ _ _ _ _))
    have tint := stored.color_above
    rw [Spine.color, parent, above] at tint
    rw [Frame.plug, addr_fork] at side
    rw [rebuild, shape] at stored'
    refine ⟨m', ?_, stored', kept₁.trans kept⟩
    rw [insertFixup]
    simp only [stored.parent real, above, Option.bind_eq_bind, Option.bind_some, tint, if_true,
      stored.parent_frame, left, side, ran, looped]
  | case3 p g path t parent =>
    obtain ⟨fuel, rfl⟩ : ∃ rest, fuel = rest + 1 := ⟨fuel - 1, by omega⟩
    refine insertFixup_exit stored real ?_ fuel
    cases shade : p.color with
    | black => exact shade
    | red => exact absurd shade parent
  | case4 path t short =>
    obtain ⟨fuel, rfl⟩ : ∃ rest, fuel = rest + 1 := ⟨fuel - 1, by omega⟩
    refine insertFixup_exit stored real ?_ fuel
    exact fits.color_of_short short

end LockFreeCore.Map
