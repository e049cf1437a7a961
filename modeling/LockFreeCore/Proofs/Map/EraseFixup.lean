import LockFreeCore.Proofs.Map.Fixup
import Mathlib.Data.Option.Basic

/-! # The loop of `eraseFixup`

Each pass turns the stored tree into the one that the corresponding step of the pure loop builds, so the
loop computes `restore`. This is shown of the loop with checks: none of them fails, and what that loop
returns the loop without checks returns too.
-/

namespace LockFreeCore.Map

open RedBlack RedBlack.RBT RedBlack.Spine

variable {K V : Type} {m : Map K V} {path : Spine (Cell K V)} {t : RBT (Cell K V)}

section Checks

theorem guard_of {p : Prop} [Decidable p] (holds : p) : (guard p : Option Unit) = some () := if_pos holds

/-- A node of the tree is real. -/
theorem Stored.isReal (stored : Stored m (rebuild path t)) (real : t ≠ .nil) : m.IsReal (addr t) := by
  refine ⟨Nat.ne_of_gt (stored.addr_pos real), ?_⟩
  cases t with
  | nil => contradiction
  | node c cell l r => rw [addr, (rep_rebuild.mp stored.rep).1.1, Option.isSome_some]

/-- So is a node of the path. -/
theorem Stored.isReal_above {f : Frame (Cell K V)} (stored : Stored m (rebuild (f :: path) t)) :
    m.IsReal f.value.addr := by
  have plugged : Stored m (rebuild path (fork f.side f.color f.value t f.sibling)) := stored
  have real := plugged.isReal (fork_ne_nil _ _ _ _ _)
  rwa [addr_fork] at real

theorem setColorChecked_eq {x : Addr} (real : x ≠ m_nil) (c : Color) : m.setColorChecked x c = m.setColor x c := by
  rw [setColorChecked, guard_of fun _ => real]
  rfl

theorem setColorChecked_black (x : Addr) : m.setColorChecked x .black = m.setColor x .black := by
  rw [setColorChecked, guard_of fun red => absurd red (by decide)]
  rfl

/-- Colouring a node of the tree, checked. -/
theorem setColorChecked_spec {side : Side} {c : Color} {x : Cell K V} {near far : RBT (Cell K V)}
    (stored : Stored m (rebuild path (fork side c x near far))) (d : Color) :
    ∃ m', m.setColorChecked x.addr d = some m' ∧ Stored m' (rebuild path (fork side d x near far)) ∧ Kept m m' := by
  have real := stored.isReal (fork_ne_nil _ _ _ _ _)
  rw [addr_fork] at real
  rw [setColorChecked_eq real.1]
  exact setColor_spec stored d

theorem setColorChecked_above {f : Frame (Cell K V)} (stored : Stored m (rebuild (f :: path) t)) (d : Color) :
    ∃ m', m.setColorChecked f.value.addr d = some m' ∧
      Stored m' (rebuild ({ f with color := d } :: path) t) ∧ Kept m m' := setColorChecked_spec stored d

theorem setColorChecked_blacken (stored : Stored m (rebuild path t)) :
    ∃ m', m.setColorChecked (addr t) .black = some m' ∧ Stored m' (rebuild path t.blacken) ∧ Kept m m' := by
  rw [setColorChecked_black]
  exact setColor_blacken stored

/-- A rotation of two nodes of the tree, checked. -/
theorem rotateChecked_spec {side : Side} {c d : Color} {x y : Cell K V} {outer inner far : RBT (Cell K V)}
    (stored : Stored m (rebuild path (fork side c x outer (fork side d y inner far)))) :
    ∃ m', m.rotateChecked side x.addr = some m' ∧
      Stored m' (rebuild path (fork side d y (fork side c x outer inner) far)) ∧ Kept m m' := by
  obtain ⟨m', ran, stored', kept⟩ := rotate_spec stored
  have framed : Stored m (rebuild (⟨side.other, c, x, outer⟩ :: path) (fork side d y inner far)) := by
    rw [rebuild_other, Side.other_other]
    exact stored
  have upper := framed.isReal_above
  have lower := framed.isReal (fork_ne_nil _ _ _ _ _)
  have child := framed.child
  rw [addr_fork] at lower child
  have sentinel : m'.parent m_nil = m.parent m_nil := by rw [parent, parent, kept.sentinel]
  refine ⟨m', ?_, stored', kept⟩
  rw [rotateChecked]
  simp only [child, Option.bind_eq_bind, Option.bind_some, guard_of (And.intro upper lower), ran, guard_of sentinel]

end Checks

/-- The parent pointer of a subtree stays right while its parent stays the same, also when the
subtree is the sentinel. -/
theorem Stored.hung {m' : Map K V} {p : Addr} (stored : Stored m' (rebuild path t))
    (same : above path = p) (kept : Kept m m') (hung : m.parent (addr t) = some p) :
    m'.parent (addr t) = some p := by
  cases t with
  | nil =>
    rw [addr, Map.parent, kept.sentinel]
    exact hung
  | node c cell l r =>
    rw [← same]
    exact stored.parent node_ne_nil

/-- The last part of a pass with a red far nephew: the sibling is lifted above the parent. -/
theorem eraseFixup_lift {f : Frame (Cell K V)} {d : Color} {wv : Cell K V} {near far : RBT (Cell K V)}
    (stored : Stored m (rebuild (f :: path) t)) (sibling : f.sibling = fork f.side d wv near far) :
    ∃ m₁ m₂ m₃ m₄, m.setColorChecked wv.addr f.color = some m₁ ∧ m₁.setColorChecked f.value.addr .black = some m₂ ∧
      m₂.child f.side.other wv.addr = some (addr far) ∧ m₂.setColorChecked (addr far) .black = some m₃ ∧
      m₃.rotateChecked f.side f.value.addr = some m₄ ∧ Stored m₄ (rebuild path
        (fork f.side f.color wv (fork f.side .black f.value t near) far.blacken)) ∧ Kept m m₄ := by
  have turned : Stored m (rebuild (⟨f.side.other, f.color, f.value, t⟩ :: path) (fork f.side d wv near far)) := by
    rw [← sibling, ← rebuild_other]
    exact stored
  obtain ⟨m₁, ran₁, stored₁, kept₁⟩ := setColorChecked_spec turned f.color
  obtain ⟨m₂, ran₂, stored₂, kept₂⟩ := setColorChecked_above stored₁ .black
  -- the far nephew is on the path from the other side of the sibling
  have nephew : Stored m₂ (rebuild (⟨f.side.other, f.color, wv, near⟩ ::
      ⟨f.side.other, .black, f.value, t⟩ :: path) far) := by
    rw [rebuild, Frame.plug, fork_other]
    exact stored₂
  obtain ⟨m₃, ran₃, stored₃, kept₃⟩ := setColorChecked_blacken nephew
  have shape : rebuild (⟨f.side.other, f.color, wv, near⟩ :: ⟨f.side.other, .black, f.value, t⟩ :: path)
      far.blacken = rebuild path (fork f.side .black f.value t (fork f.side f.color wv near far.blacken)) := by
    simp only [rebuild, Frame.plug, fork_other]
  obtain ⟨m₄, ran₄, stored₄, kept₄⟩ := rotateChecked_spec (shape ▸ stored₃)
  exact ⟨m₁, m₂, m₃, m₄, ran₁, ran₂, nephew.child, ran₃, ran₄, stored₄,
    ((kept₁.trans kept₂).trans kept₃).trans kept₄⟩

/-- The path from the near nephew goes through the sibling. -/
theorem rebuild_near {f : Frame (Cell K V)} {d : Color} {wv : Cell K V} {near far : RBT (Cell K V)}
    (sibling : f.sibling = fork f.side d wv near far) : rebuild (f :: path) t =
      rebuild (⟨f.side, d, wv, far⟩ :: ⟨f.side.other, f.color, f.value, t⟩ :: path) near := by
  simp only [rebuild, Frame.plug, fork_other, sibling]

/-- The path from the far nephew. -/
theorem rebuild_far {f : Frame (Cell K V)} {d : Color} {wv : Cell K V} {near far : RBT (Cell K V)}
    (sibling : f.sibling = fork f.side d wv near far) : rebuild (f :: path) t =
      rebuild (⟨f.side.other, d, wv, near⟩ :: ⟨f.side.other, f.color, f.value, t⟩ :: path) far := by
  simp only [rebuild, Frame.plug, fork_other, sibling]

/-- One pass with a black sibling computes `settle`, and goes on at the parent or ends at the root. -/
theorem eraseFixupBlack_spec {f : Frame (Cell K V)} {d : Color} {wv : Cell K V} {near far : RBT (Cell K V)}
    (stored : Stored m (rebuild (f :: path) t)) (sibling : f.sibling = fork f.side d wv near far)
    (hung : m.parent (addr t) = some f.value.addr) :
    ∃ m' x', m.eraseFixupBlackChecked f.side (addr t) wv.addr = some (m', x') ∧
      Stored m' (rebuild path (settle f.side f.color f.value t f.sibling).1) ∧ Kept m m' ∧
      x' = if (settle f.side f.color f.value t f.sibling).2 then f.value.addr else m'.m_root := by
  have nearStored := rebuild_near sibling ▸ stored
  have farStored := rebuild_far sibling ▸ stored
  have nearTint := nearStored.color
  have farTint := farStored.color
  have tint : m.color f.value.addr = some f.color := stored.color_above
  have real : m.IsReal wv.addr := nearStored.isReal_above
  rw [eraseFixupBlackChecked]
  simp only [guard_of real, nearStored.child, farStored.child, nearTint, farTint, Option.bind_eq_bind, Option.bind_some]
  rcases settle_cases f.side f.color f.value t d wv near far with
    ⟨nblack, fblack, ends⟩ | ⟨fblack, nv, a, b, rfl, ends⟩ | ⟨fred, ends⟩
  · -- both nephews black: the sibling turns red
    have turned : Stored m (rebuild (⟨f.side.other, f.color, f.value, t⟩ :: path)
        (fork f.side d wv near far)) := by
      rw [← sibling, ← rebuild_other]
      exact stored
    obtain ⟨m', ran, stored', kept⟩ := setColorChecked_spec turned .red
    rw [rebuild_other, Side.other_other] at stored'
    refine ⟨m', f.value.addr, ?_, ?_, kept, ?_⟩
    · rw [if_pos ⟨nblack, fblack⟩, ran, Option.bind_some,
        stored'.hung rfl kept hung, Option.bind_some]
      rfl
    · rw [sibling, ends]
      exact stored'
    · rw [sibling, ends]
      rfl
  · -- only the near nephew red: it is first rotated above the sibling
    obtain ⟨m₁, ran₁, stored₁, kept₁⟩ := setColorChecked_spec nearStored .black
    obtain ⟨m₂, ran₂, stored₂, kept₂⟩ := setColorChecked_above stored₁ .red
    have shape : rebuild (⟨f.side, .red, wv, far⟩ :: ⟨f.side.other, f.color, f.value, t⟩ :: path)
        (fork f.side .black nv a b) = rebuild (⟨f.side.other, f.color, f.value, t⟩ :: path)
          (fork f.side.other .red wv far (fork f.side.other .black nv b a)) := by
      simp only [rebuild, Frame.plug, fork_other]
    obtain ⟨m₃, ran₃, stored₃, kept₃⟩ := rotateChecked_spec (shape ▸ stored₂)
    rw [rebuild_other, Side.other_other] at stored₃
    have kept₃' := (kept₁.trans kept₂).trans kept₃
    have hung₃ : m₃.parent (addr t) = some f.value.addr := stored₃.hung rfl kept₃' hung
    have tint₃ : m₃.color f.value.addr = some f.color := stored₃.color_above
    have child₃ : m₃.child f.side.other f.value.addr = some nv.addr := by
      have child := stored₃.sibling
      rwa [addr_fork] at child
    have real₃ : m₃.IsReal nv.addr := by
      have turned := rebuild_other .. ▸ stored₃
      have real := turned.isReal (fork_ne_nil _ _ _ _ _)
      rwa [addr_fork] at real
    obtain ⟨m₄, m₅, m₆, m₇, ran₄, ran₅, child₅, ran₆, ran₇, stored₇, kept₇⟩ :=
      eraseFixup_lift stored₃ (fork_other ..)
    dsimp only at ran₂ ran₄ ran₅ child₅ ran₆ ran₇ stored₇
    refine ⟨m₇, m₇.m_root, ?_, ?_, kept₃'.trans kept₇, ?_⟩
    · rw [if_neg (by simp), if_pos fblack, addr_fork]
      simp only [ran₁, ran₂, ran₃, hung₃, child₃, guard_of real₃, Option.bind_some, tint₃, ran₄, ran₅, child₅, ran₆, ran₇]
    · rw [sibling, ends]
      rw [blacken_fork, fork_other f.side .black wv] at stored₇
      exact stored₇
    · rw [sibling, ends]
      rfl
  · have inner : ¬ far.color = .black := by rw [fred]; decide
    obtain ⟨m₁, m₂, m₃, m₄, ran₁, ran₂, child₂, ran₃, ran₄, stored₄, kept₄⟩ := eraseFixup_lift stored sibling
    refine ⟨m₄, m₄.m_root, ?_, ?_, kept₄, ?_⟩
    · rw [if_neg fun both => inner both.2, if_neg inner]
      simp only [Option.bind_some, hung, tint, ran₁, ran₂, child₂, ran₃, ran₄]
    · rw [sibling, ends]
      exact stored₄
    · rw [sibling, ends]
      rfl

/-- The root is above every node below it. -/
theorem addr_ne_root {f : Frame (Cell K V)} (stored : Stored m (rebuild (f :: path) t)) :
    addr t ≠ m.m_root := by
  have root : ∀ (path : Spine (Cell K V)) (f : Frame (Cell K V)) (t : RBT (Cell K V)),
      ∃ cell ∈ cells (f :: path), cell.addr = addr (rebuild (f :: path) t) := by
    intro path
    induction path with
    | nil => exact fun f t => ⟨f.value, by simp [cells], by simp [rebuild, Frame.plug]⟩
    | cons g path ih =>
      intro f t
      obtain ⟨cell, member, same⟩ := ih g (f.plug t)
      exact ⟨cell, by rw [cells]; simp [member], same⟩
  obtain ⟨cell, member, same⟩ := root path f t
  rw [stored.root, ← same]
  rcases addr_mem t with none | ⟨x, inside, also⟩
  · rw [none]
    exact Nat.ne_of_lt (stored.allocated_rebuild cell (by simp [member])).1
  · rw [← also]
    exact ne_of_append stored.apart_rebuild inside member

/-- The loop ends at the root and at a red node, which it blackens. -/
theorem eraseFixup_exit (stored : Stored m (rebuild path t)) (ends : path = [] ∨ t.color = .red) (fuel : ℕ) :
    ∃ m', eraseFixupChecked (fuel + 1) m (addr t) = some m' ∧ Stored m' (rebuild path t.blacken) ∧ Kept m m' := by
  obtain ⟨m', ran, stored', kept⟩ := setColorChecked_blacken stored
  refine ⟨m', ?_, stored', kept⟩
  have stop : ¬ (addr t ≠ m.m_root ∧ t.color = .black) := by
    rintro ⟨below, black⟩
    rcases ends with rfl | red
    · exact below stored.root.symm
    · exact absurd (red.symm.trans black) (by decide)
  rw [eraseFixupChecked]
  simp only [stored.color, Option.bind_eq_bind, Option.bind_some, if_neg stop, ran]

theorem eraseFixup_root {tree : RBT (Cell K V)} (stored : Stored m tree) (fuel : ℕ) :
    ∃ m', eraseFixupChecked (fuel + 1) m m.m_root = some m' ∧ Stored m' tree.blacken ∧ Kept m m' := by
  have whole : Stored m (rebuild [] tree) := stored
  rw [stored.root]
  exact eraseFixup_exit whole (.inl rfl) fuel

/-- At a black node below the root the loop makes a pass. -/
theorem eraseFixup_pass {f : Frame (Cell K V)} (stored : Stored m (rebuild (f :: path) t))
    (hung : m.parent (addr t) = some f.value.addr) (shade : t.color = .black) (real : f.sibling ≠ .nil) (fuel : ℕ) :
    eraseFixupChecked (fuel + 1) m (addr t) =
      (m.eraseFixupBodyChecked f.side (addr t)).bind fun next => eraseFixupChecked fuel next.1 next.2 := by
  obtain ⟨l, left, side⟩ := stored.side (.inr real)
  have go : addr t ≠ m.m_root ∧ t.color = .black := ⟨addr_ne_root stored, shade⟩
  have apart : m.child f.side.other f.value.addr ≠ some (addr t) := by
    rw [stored.sibling]
    exact fun same => stored.addr_ne_sibling (.inr real) (Option.some.inj same).symm
  rw [eraseFixupChecked]
  simp only [stored.color, Option.bind_eq_bind, Option.bind_some, if_pos go, hung, left, side,
    guard_of (And.intro stored.isReal_above (And.intro stored.child apart))]

/-- A pass with a red sibling first brings it up. -/
theorem eraseFixupBody_red {f : Frame (Cell K V)} {wv : Cell K V} {near far : RBT (Cell K V)}
    (stored : Stored m (rebuild (f :: path) t)) (sibling : f.sibling = fork f.side .red wv near far)
    (hung : m.parent (addr t) = some f.value.addr) :
    ∃ m', m.eraseFixupBodyChecked f.side (addr t) = m'.eraseFixupBlackChecked f.side (addr t) (addr near) ∧
      Stored m' (rebuild (⟨f.side, .red, f.value, near⟩ :: ⟨f.side, .black, wv, far⟩ :: path) t) ∧ Kept m m' ∧
      m'.parent (addr t) = some f.value.addr := by
  have turned : Stored m (rebuild (⟨f.side.other, f.color, f.value, t⟩ :: path)
      (fork f.side .red wv near far)) := by
    rw [← sibling, ← rebuild_other]
    exact stored
  have child : m.child f.side.other f.value.addr = some wv.addr := by
    have child := stored.sibling
    rwa [sibling, addr_fork] at child
  have real : m.IsReal wv.addr := by
    have real := turned.isReal (fork_ne_nil _ _ _ _ _)
    rwa [addr_fork] at real
  have tint : m.color wv.addr = some .red := by
    have tint := turned.color
    rwa [addr_fork, color_fork] at tint
  obtain ⟨m₁, ran₁, stored₁, kept₁⟩ := setColorChecked_spec turned .black
  obtain ⟨m₂, ran₂, stored₂, kept₂⟩ := setColorChecked_above stored₁ .red
  have shape : rebuild (⟨f.side.other, .red, f.value, t⟩ :: path) (fork f.side .black wv near far) =
      rebuild path (fork f.side .red f.value t (fork f.side .black wv near far)) := by
    simp only [rebuild, Frame.plug, fork_other]
  obtain ⟨m₃, ran₃, stored₃, kept₃⟩ := rotateChecked_spec (shape ▸ stored₂)
  have stored₃' : Stored m₃ (rebuild (⟨f.side, .red, f.value, near⟩ :: ⟨f.side, .black, wv, far⟩ :: path) t) :=
    stored₃
  have kept := (kept₁.trans kept₂).trans kept₃
  have hung₃ : m₃.parent (addr t) = some f.value.addr := stored₃'.hung rfl kept hung
  have child₃ : m₃.child f.side.other f.value.addr = some (addr near) := stored₃'.sibling
  refine ⟨m₃, ?_, stored₃', kept, hung₃⟩
  rw [eraseFixupBodyChecked]
  simp only [hung, child, guard_of real, tint, Option.bind_eq_bind, Option.bind_some, if_true, ran₁, ran₂, ran₃, hung₃,
    child₃]

/-- A pass with a black sibling. -/
theorem eraseFixupBody_black {f : Frame (Cell K V)} (stored : Stored m (rebuild (f :: path) t))
    (real : f.sibling ≠ .nil) (black : f.sibling.color = .black) (hung : m.parent (addr t) = some f.value.addr) :
    m.eraseFixupBodyChecked f.side (addr t) = m.eraseFixupBlackChecked f.side (addr t) (addr f.sibling) := by
  have turned : Stored m (rebuild (⟨f.side.other, f.color, f.value, t⟩ :: path) f.sibling) := by
    rw [← rebuild_other]
    exact stored
  have tint := turned.color
  rw [black] at tint
  rw [eraseFixupBodyChecked]
  simp only [hung, stored.sibling, guard_of (turned.isReal real), tint, Option.bind_eq_bind, Option.bind_some,
    reduceCtorEq, if_false]

/-- A pass that leaves a short subtree leaves it under the same node, with its colour. -/
theorem settle_root {side : Side} {c : Color} {v : Cell K V} {x w : RBT (Cell K V)} (real : w ≠ .nil)
    (short : (settle side c v x w).2 = true) :
    addr (settle side c v x w).1 = v.addr ∧ (settle side c v x w).1.color = c ∧
      (settle side c v x w).1 ≠ .nil := by
  obtain ⟨d, wv, near, far, rfl⟩ : ∃ d wv near far, w = fork side d wv near far := by
    cases w with
    | nil => contradiction
    | node d wv l r =>
      cases side
      · exact ⟨d, wv, l, r, rfl⟩
      · exact ⟨d, wv, r, l, rfl⟩
  rcases settle_cases side c v x d wv near far with
    ⟨_, _, ends⟩ | ⟨_, nv, a, b, rfl, ends⟩ | ⟨_, ends⟩
  · rw [ends]
    exact ⟨addr_fork .., color_fork .., fork_ne_nil _ _ _ _ _⟩
  · rw [ends] at short
    contradiction
  · rw [ends] at short
    contradiction

/-- At a subtree that is short of a black node in an otherwise balanced tree `eraseFixup` computes
`restore`. -/
theorem eraseFixupChecked_spec (stored : Stored m (rebuild path t)) (fits : Fits path (t.height + 1))
    (balanced : t.blacken.Balanced) (hung : m.parent (addr t) = some (above path)) {fuel : ℕ}
    (enough : path.length + 1 ≤ fuel) :
    ∃ m', eraseFixupChecked fuel m (addr t) = some m' ∧ Stored m' (restore path t) ∧ Kept m m' := by
  induction path generalizing t m fuel with
  | nil =>
    obtain ⟨fuel, rfl⟩ : ∃ rest, fuel = rest + 1 := ⟨fuel - 1, by omega⟩
    exact eraseFixup_exit stored (.inl rfl) fuel
  | cons f path ih =>
    rw [List.length_cons] at enough
    cases shade : t.color with
    | red =>
      obtain ⟨fuel, rfl⟩ : ∃ rest, fuel = rest + 1 := ⟨fuel - 1, by omega⟩
      rw [restore_red path shade]
      exact eraseFixup_exit stored (.inr shade) fuel
    | black =>
      obtain ⟨fuel, rfl⟩ : ∃ rest, fuel = rest + 1 + 1 := ⟨fuel - 2, by omega⟩
      obtain ⟨hsibling, level, -, rest⟩ := id fits
      have real : f.sibling ≠ .nil := by
        intro none
        rw [none] at level
        exact absurd level (Nat.succ_ne_zero _).symm
      rw [eraseFixup_pass stored hung shade real]
      cases hue : f.sibling.color with
      | red =>
        obtain ⟨wv, near, far, sibling⟩ := exists_fork_of_red f.side hue
        obtain ⟨m₁, body, stored₁, kept₁, hung₁⟩ := eraseFixupBody_red stored sibling hung
        rw [sibling] at hsibling level
        have same := (balanced_fork.mp hsibling).1
        rw [height_fork same, if_neg (by decide), Nat.add_zero] at level
        obtain ⟨e, nv, a, b, nephew⟩ := exists_fork_of_height f.side (t := near) (by omega)
        obtain ⟨m₂, x', ran, stored₂, kept₂, next⟩ := eraseFixupBlack_spec stored₁ nephew hung₁
        dsimp only at ran stored₂ next
        have nreal : near ≠ .nil := nephew ▸ fork_ne_nil _ _ _ _ _
        rw [restore_red_sibling path shade sibling, body, nephew, addr_fork, ran, Option.bind_some, ← nephew]
        split_ifs with short
        · obtain ⟨root, tint, _⟩ := settle_root nreal short
          rw [if_pos short, ← root] at next
          obtain ⟨m', looped, stored', kept⟩ := eraseFixup_exit stored₂ (.inr tint) fuel
          exact ⟨m', next ▸ looped, stored', (kept₁.trans kept₂).trans kept⟩
        · rw [if_neg short] at next
          obtain ⟨m', looped, stored', kept⟩ := eraseFixup_root stored₂ fuel
          exact ⟨m', next ▸ looped, stored', (kept₁.trans kept₂).trans kept⟩
      | black =>
        obtain ⟨d, wv, near, far, sibling⟩ := exists_fork_of_height f.side (t := f.sibling) (by omega)
        obtain ⟨m₁, x', ran, stored₁, kept₁, next⟩ := eraseFixupBlack_spec stored sibling hung
        rw [restore_black_sibling path shade hue, eraseFixupBody_black stored real hue hung]
        rw [← addr_fork f.side wv d near far, ← sibling] at ran
        rw [ran, Option.bind_some]
        split_ifs with short
        · obtain ⟨root, tint, sreal⟩ := settle_root real short
          obtain ⟨-, sub, deep, -⟩ := settle_balanced f.side f.color f.value
            (blacken_of_black shade ▸ balanced) hsibling hue level
          rw [if_pos short] at deep next
          obtain ⟨m', looped, stored', kept⟩ := ih stored₁ (deep.symm ▸ rest) sub
            (stored₁.parent sreal) (show path.length + 1 ≤ fuel + 1 by omega)
          rw [root] at looped
          exact ⟨m', next ▸ looped, stored', kept₁.trans kept⟩
        · rw [if_neg short] at next
          obtain ⟨m', looped, stored', kept⟩ := eraseFixup_root stored₁ fuel
          exact ⟨m', next ▸ looped, stored', kept₁.trans kept⟩

section Unchecked

theorem rotate_of_checked {side : Side} {x : Addr} {m' : Map K V} (ran : m.rotateChecked side x = some m') :
    m.rotate side x = some m' := by
  simp only [rotateChecked, Option.bind_eq_bind, Option.bind_eq_some_iff] at ran
  obtain ⟨y, -, -, -, turned, turns, -, -, same⟩ := ran
  exact turns.trans same

theorem setColor_of_checked {x : Addr} {c : Color} {m' : Map K V} (ran : m.setColorChecked x c = some m') :
    m.setColor x c = some m' := by
  simp only [setColorChecked, Option.bind_eq_bind, Option.bind_eq_some_iff] at ran
  obtain ⟨-, -, colors⟩ := ran
  exact colors

theorem eraseFixupBlack_of_checked {side : Side} {x w : Addr} {next : Map K V × Addr}
    (ran : m.eraseFixupBlackChecked side x w = some next) : m.eraseFixupBlack side x w = some next := by
  rw [eraseFixupBlackChecked] at ran
  rw [eraseFixupBlack]
  simp only [Option.bind_eq_bind, Option.bind_eq_some_iff] at ran ⊢
  obtain ⟨-, -, near, left, nearTint, shade, far, right, farTint, tint, ran⟩ := ran
  refine ⟨near, left, nearTint, shade, far, right, farTint, tint, ?_⟩
  by_cases both : nearTint = .black ∧ farTint = .black
  · rw [if_pos both] at ran ⊢
    simp only [Option.bind_eq_some_iff] at ran ⊢
    obtain ⟨m₁, reddened, rest⟩ := ran
    exact ⟨m₁, setColor_of_checked reddened, rest⟩
  · rw [if_neg both] at ran ⊢
    simp only [Option.bind_eq_some_iff] at ran ⊢
    obtain ⟨far, right, farTint, tint, ⟨m₁, w₁⟩, brought, p, up, c, above, m₂, colored₂, m₃, colored₃, nephew,
      outer, m₄, colored₄, m₅, turned, rest⟩ := ran
    refine ⟨far, right, farTint, tint, (m₁, w₁), ?_, p, up, c, above, m₂, setColor_of_checked colored₂, m₃,
      setColor_of_checked colored₃, nephew, outer, m₄, setColor_of_checked colored₄, m₅, rotate_of_checked turned,
      rest⟩
    split_ifs at brought ⊢ with outward
    · simp only [Option.bind_eq_some_iff] at brought ⊢
      obtain ⟨inner, at_inner, m₆, colored₆, m₇, colored₇, m₈, turned₈, p, up, w₂, across, -, -, same⟩ := brought
      exact ⟨inner, at_inner, m₆, setColor_of_checked colored₆, m₇, setColor_of_checked colored₇, m₈,
        rotate_of_checked turned₈, p, up, w₂, across, same⟩
    · exact brought

theorem eraseFixupBody_of_checked {side : Side} {x : Addr} {next : Map K V × Addr}
    (ran : m.eraseFixupBodyChecked side x = some next) : m.eraseFixupBody side x = some next := by
  rw [eraseFixupBodyChecked] at ran
  rw [eraseFixupBody]
  simp only [Option.bind_eq_bind, Option.bind_eq_some_iff] at ran ⊢
  obtain ⟨p, up, w, across, -, -, c, tint, ⟨m₁, w₁⟩, brought, rest⟩ := ran
  refine ⟨p, up, w, across, c, tint, (m₁, w₁), ?_, eraseFixupBlack_of_checked rest⟩
  split_ifs at brought ⊢ with red
  · simp only [Option.bind_eq_some_iff] at brought ⊢
    obtain ⟨m₂, colored₂, m₃, colored₃, m₄, turned, rest⟩ := brought
    exact ⟨m₂, setColor_of_checked colored₂, m₃, setColor_of_checked colored₃, m₄, rotate_of_checked turned, rest⟩
  · exact brought

/-- What the checked loop returns the loop returns. -/
theorem eraseFixup_of_checked {fuel : ℕ} {x : Addr} {m' : Map K V} (ran : eraseFixupChecked fuel m x = some m') :
    eraseFixup fuel m x = some m' := by
  induction fuel generalizing m x with
  | zero => contradiction
  | succ fuel ih =>
    rw [eraseFixupChecked] at ran
    rw [eraseFixup]
    simp only [Option.bind_eq_bind, Option.bind_eq_some_iff] at ran ⊢
    obtain ⟨c, tint, ran⟩ := ran
    refine ⟨c, tint, ?_⟩
    split_ifs at ran ⊢ with go
    · simp only [Option.bind_eq_some_iff] at ran ⊢
      obtain ⟨p, up, l, left, -, -, next, passed, rest⟩ := ran
      exact ⟨p, up, l, left, next, eraseFixupBody_of_checked passed, ih rest⟩
    · exact setColor_of_checked ran

end Unchecked

end LockFreeCore.Map
