import Mathlib.Algebra.Order.Ring.Int
import Mathlib.Data.List.Basic
import Mathlib.Tactic.SplitIfs

/-! # Red-black trees with a path to the root

Trees of coloured nodes, and the path from a subtree up to the root, innermost frame first. A
`fork` is a node seen from one of its sides, so a statement and its mirror image are one. `repair`
and `restore` are the two bottom-up loops that follow an insertion and a deletion; each keeps the
values in order, and turns a tree with one local violation into a balanced one.
-/

namespace RedBlack

inductive Color where
  | red | black
deriving DecidableEq, Repr

inductive Side where
  | left | right
deriving DecidableEq, Repr

def Side.other : Side → Side
  | .left => .right
  | .right => .left

@[simp] theorem Side.other_other (side : Side) : side.other.other = side := by cases side <;> rfl

@[simp] theorem Side.other_ne (side : Side) : side.other ≠ side := by cases side <;> decide

theorem Side.eq_other {side other : Side} (different : side ≠ other) : side = other.other := by
  cases side <;> cases other <;> simp_all [Side.other]

inductive RBT (α : Type*) where
  | nil
  | node (color : Color) (value : α) (left right : RBT α)

namespace RBT

variable {α : Type*}

def color : RBT α → Color
  | nil => .black
  | node color _ _ _ => color

theorem node_ne_nil {c : Color} {v : α} {l r : RBT α} : node c v l r ≠ nil := nofun

/-- The values in order. -/
def toList : RBT α → List α
  | nil => []
  | node _ value left right => left.toList ++ value :: right.toList

/-- The number of black nodes on the way down. -/
def height : RBT α → ℕ
  | nil => 0
  | node color _ left _ => left.height + if color = .black then 1 else 0

/-- No red node has a red child, and every way down has the same number of black nodes. -/
def Balanced : RBT α → Prop
  | nil => True
  | node color _ left right => left.height = right.height ∧
      (color = .red → left.color = .black ∧ right.color = .black) ∧ left.Balanced ∧ right.Balanced

def blacken : RBT α → RBT α
  | nil => nil
  | node _ value left right => node .black value left right

def redden : RBT α → RBT α
  | nil => nil
  | node _ value left right => node .red value left right

/-- A node whose child on the given side is `near`. -/
def fork (side : Side) (color : Color) (value : α) (near far : RBT α) : RBT α :=
  match side with
  | .left => node color value near far
  | .right => node color value far near

/-- The subtree on a side. -/
def child (side : Side) : RBT α → RBT α
  | nil => nil
  | node _ _ left right => match side with
    | .left => left
    | .right => right

@[simp] theorem child_fork (side : Side) (c : Color) (v : α) (near far : RBT α) :
    (fork side c v near far).child side = near := by cases side <;> rfl

@[simp] theorem child_other_fork (side : Side) (c : Color) (v : α) (near far : RBT α) :
    (fork side c v near far).child side.other = far := by cases side <;> rfl

@[simp] theorem color_fork (side : Side) (c : Color) (v : α) (near far : RBT α) :
    (fork side c v near far).color = c := by cases side <;> rfl

theorem fork_other (side : Side) (c : Color) (v : α) (near far : RBT α) :
    fork side.other c v near far = fork side c v far near := by cases side <;> rfl

@[simp] theorem blacken_fork (side : Side) (c : Color) (v : α) (near far : RBT α) :
    (fork side c v near far).blacken = fork side .black v near far := by cases side <;> rfl

/-- A tree with a red root is a node, seen from either side. -/
theorem exists_fork_of_red (side : Side) {t : RBT α} (red : t.color = .red) :
    ∃ v near far, t = fork side .red v near far := by
  cases t with
  | nil => contradiction
  | node c v l r =>
    obtain rfl : c = .red := red
    cases side
    · exact ⟨v, l, r, rfl⟩
    · exact ⟨v, r, l, rfl⟩

/-- A tree of positive height is a node, seen from either side. -/
theorem exists_fork_of_height (side : Side) {t : RBT α} (tall : 0 < t.height) :
    ∃ c v near far, t = fork side c v near far := by
  cases t with
  | nil => contradiction
  | node c v l r =>
    cases side
    · exact ⟨c, v, l, r, rfl⟩
    · exact ⟨c, v, r, l, rfl⟩

theorem balanced_fork {side : Side} {c : Color} {v : α} {near far : RBT α} :
    (fork side c v near far).Balanced ↔ near.height = far.height ∧
      (c = .red → near.color = .black ∧ far.color = .black) ∧ near.Balanced ∧ far.Balanced := by
  cases side
  · exact Iff.rfl
  · simp only [fork, Balanced, eq_comm (a := far.height), and_comm (a := far.color = .black),
      and_comm (a := far.Balanced)]

theorem height_fork {side : Side} {c : Color} {v : α} {near far : RBT α}
    (same : near.height = far.height) :
    (fork side c v near far).height = near.height + if c = .black then 1 else 0 := by
  cases side
  · rfl
  · simp only [fork, height, same]

@[simp] theorem toList_blacken (t : RBT α) : t.blacken.toList = t.toList := by cases t <;> rfl

@[simp] theorem color_blacken (t : RBT α) : t.blacken.color = .black := by cases t <;> rfl

theorem blacken_of_black {t : RBT α} (black : t.color = .black) : t.blacken = t := by
  cases t with
  | nil => rfl
  | node c v l r =>
    obtain rfl : c = .black := black
    rfl

/-- Blackening a red root adds one to the height. -/
theorem height_blacken_of_red {t : RBT α} (red : t.color = .red) : t.blacken.height = t.height + 1 := by
  cases t with
  | nil => contradiction
  | node c v l r =>
    obtain rfl : c = .red := red
    rfl

theorem Balanced.blacken {t : RBT α} (balanced : t.Balanced) : t.blacken.Balanced := by
  cases t with
  | nil => trivial
  | node c v l r => exact ⟨balanced.1, fun black => (nomatch black), balanced.2.2⟩

/-- The number of nodes on the longest way down. -/
def depth : RBT α → ℕ
  | nil => 0
  | node _ _ left right => max left.depth right.depth + 1

/-- A balanced tree has the values of a complete tree of its height. -/
theorem Balanced.two_pow_height {t : RBT α} (balanced : t.Balanced) : 2 ^ t.height ≤ t.toList.length + 1 := by
  induction t with
  | nil => exact Nat.le_refl _
  | node c v l r ihl ihr =>
    obtain ⟨same, -, left, right⟩ := balanced
    have low := ihl left
    have high := ihr right
    rw [← same] at high
    rw [height, toList, List.length_append, List.length_cons]
    cases c with
    | red =>
      rw [if_neg (by decide), Nat.add_zero]
      omega
    | black =>
      rw [if_pos rfl, Nat.pow_succ]
      omega

/-- At most every second node on a way down is red. -/
theorem Balanced.depth_le {t : RBT α} (balanced : t.Balanced) :
    t.depth ≤ 2 * t.height + if t.color = .red then 1 else 0 := by
  induction t with
  | nil => exact Nat.zero_le _
  | node c v l r ihl ihr =>
    obtain ⟨same, shades, left, right⟩ := balanced
    have low := ihl left
    have high := ihr right
    rw [← same] at high
    rw [depth, height, color]
    cases c with
    | red =>
      obtain ⟨black, black'⟩ := shades rfl
      rw [black, if_neg (by decide)] at low
      rw [black', if_neg (by decide)] at high
      rw [if_neg (by decide), if_pos rfl]
      omega
    | black =>
      rw [if_pos rfl, if_neg (by decide)]
      split_ifs at low high <;> omega

/-- A balanced tree with a black root is not deeper than twice the logarithm of its size. -/
theorem Balanced.two_pow_depth {t : RBT α} (balanced : t.Balanced) (black : t.color = .black) :
    2 ^ t.depth ≤ (t.toList.length + 1) ^ 2 := by
  have deep := balanced.depth_le
  rw [black, if_neg (by decide), Nat.add_zero, Nat.mul_comm] at deep
  calc 2 ^ t.depth ≤ 2 ^ (t.height * 2) := Nat.pow_le_pow_right (by decide) deep
    _ = (2 ^ t.height) ^ 2 := Nat.pow_mul ..
    _ ≤ (t.toList.length + 1) ^ 2 := Nat.pow_le_pow_left balanced.two_pow_height 2

end RBT

/-- A node on the way to the root: the side the path comes from, and the subtree on the other. -/
structure Frame (α : Type*) where
  side : Side
  color : Color
  value : α
  sibling : RBT α

/-- The nodes above a subtree, the nearest first. -/
abbrev Spine (α : Type*) := List (Frame α)

variable {α : Type*}

def Frame.plug (f : Frame α) (t : RBT α) : RBT α := RBT.fork f.side f.color f.value t f.sibling

namespace Spine

open RBT

/-- The whole tree with a subtree at the end of the path. -/
def rebuild : Spine α → RBT α → RBT α
  | [], t => t
  | f :: path, t => rebuild path (f.plug t)

/-- The colour of the node above. -/
def color : Spine α → Color
  | [] => .black
  | f :: _ => f.color

/-- The values that come before those of the subtree. -/
def before : Spine α → List α
  | [] => []
  | f :: path => before path ++ match f.side with
    | .left => []
    | .right => f.sibling.toList ++ [f.value]

/-- The values that come after those of the subtree. -/
def after : Spine α → List α
  | [] => []
  | f :: path => (match f.side with
    | .left => f.value :: f.sibling.toList
    | .right => []) ++ after path

theorem toList_rebuild (path : Spine α) (t : RBT α) :
    (rebuild path t).toList = before path ++ t.toList ++ after path := by
  induction path generalizing t with
  | nil => simp [rebuild, before, after]
  | cons f path ih =>
    obtain ⟨side, c, v, sibling⟩ := f
    rw [rebuild, ih]
    cases side <;> simp [Frame.plug, fork, toList, before, after]

theorem toList_rebuild_congr {path : Spine α} {t t' : RBT α} (same : t'.toList = t.toList) :
    (rebuild path t').toList = (rebuild path t).toList := by
  rw [toList_rebuild, toList_rebuild, same]

theorem rebuild_append (path above : Spine α) (t : RBT α) :
    rebuild (path ++ above) t = rebuild above (rebuild path t) := by
  induction path generalizing t with
  | nil => rfl
  | cons f path ih => exact ih _

/-- The path is balanced around a subtree of the given height with a black root. -/
def Fits : Spine α → ℕ → Prop
  | [], _ => True
  | f :: path, h => f.sibling.Balanced ∧ f.sibling.height = h ∧
      (f.color = .red → f.sibling.color = .black ∧ color path = .black ∧ path ≠ []) ∧
      Fits path (h + if f.color = .black then 1 else 0)

theorem rebuild_balanced {path : Spine α} {t : RBT α} (fits : Fits path t.height)
    (balanced : t.Balanced) (meet : t.color = .red → color path = .black) :
    (rebuild path t).Balanced := by
  induction path generalizing t with
  | nil => exact balanced
  | cons f path ih =>
    obtain ⟨sibling, same, above, rest⟩ := fits
    refine ih ?_ (balanced_fork.mpr ⟨same.symm, fun red => ⟨?_, (above red).1⟩, balanced, sibling⟩)
      fun red => (above ((color_fork ..).symm.trans red)).2.1
    · rwa [Frame.plug, height_fork same.symm]
    · cases shade : t.color with
      | black => rfl
      | red => exact absurd ((meet shade).symm.trans red) (by decide)

theorem rebuild_color {path : Spine α} {t : RBT α} {h : ℕ} (fits : Fits path h)
    (root : path = [] → t.color = .black) : (rebuild path t).color = .black := by
  induction path generalizing t h with
  | nil => exact root rfl
  | cons f path ih =>
    obtain ⟨_, _, above, rest⟩ := fits
    refine ih rest fun last => ?_
    rw [Frame.plug, color_fork]
    cases shade : f.color with
    | black => rfl
    | red => exact absurd last (above shade).2.2

/-- Every subtree of a balanced tree with a black root is balanced, and so is the path to it. -/
theorem fits_of_balanced {path : Spine α} {t : RBT α} (balanced : (rebuild path t).Balanced)
    (root : (rebuild path t).color = .black) : Fits path t.height ∧ t.Balanced ∧
      (t.color = .red → color path = .black ∧ path ≠ []) := by
  induction path generalizing t with
  | nil => exact ⟨trivial, balanced, fun red => absurd (root.symm.trans red) (by decide)⟩
  | cons f path ih =>
    obtain ⟨fits, whole, meet⟩ := ih balanced root
    obtain ⟨same, shades, inner, sibling⟩ := balanced_fork.mp whole
    rw [Frame.plug, color_fork] at meet
    rw [Frame.plug, height_fork same] at fits
    refine ⟨⟨sibling, same.symm, fun red => ⟨(shades red).2, meet red⟩, fits⟩, inner, fun red => ?_⟩
    refine ⟨?_, List.cons_ne_nil _ _⟩
    cases shade : f.color with
    | black => exact shade
    | red => exact absurd ((shades shade).1.symm.trans red) (by decide)

/-- At the root and right under it the node above is black. -/
theorem Fits.color_of_short {path : Spine α} {h : ℕ} (fits : Fits path h)
    (short : ∀ p g rest, path = p :: g :: rest → False) : color path = .black := by
  match path, short, fits with
  | [], _, _ => rfl
  | [p], _, fits =>
    cases shade : p.color with
    | black => exact shade
    | red => exact absurd rfl (fits.2.2.1 shade).2.2
  | p :: g :: rest, short, _ => exact (short p g rest rfl).elim

theorem before_append (path above : Spine α) : before (path ++ above) = before above ++ before path := by
  induction path with
  | nil => simp [before]
  | cons f path ih => simp [before, ih]

/-- The balance of a path does not depend on the values on it. -/
theorem Fits.revalue {path above : Spine α} {side : Side} {c : Color} {v : α} {s : RBT α} {h : ℕ}
    (fits : Fits (path ++ ⟨side, c, v, s⟩ :: above) h) (w : α) :
    Fits (path ++ ⟨side, c, w, s⟩ :: above) h := by
  induction path generalizing h with
  | nil => exact fits
  | cons f path ih =>
    obtain ⟨sibling, same, meet, rest⟩ := fits
    refine ⟨sibling, same, fun red => ⟨(meet red).1, ?_, by simp⟩, ih rest⟩
    have shade := (meet red).2.1
    cases path with
    | nil => exact shade
    | cons g path => exact shade

/-- A node with one child goes, and the child moves up: without a red node all stays balanced,
without a black one the place is short of it. -/
theorem splice_fits {path : Spine α} {side : Side} {c : Color} {v : α} {t : RBT α}
    (balanced : (rebuild path (fork side c v t .nil)).Balanced)
    (root : (rebuild path (fork side c v t .nil)).color = .black) :
    t.Balanced ∧ (c = .red → t.color = .black) ∧ Fits path (t.height + if c = .black then 1 else 0) := by
  obtain ⟨fits, inner, -⟩ := fits_of_balanced balanced root
  obtain ⟨same, shades, below, -⟩ := balanced_fork.mp inner
  rw [height_fork same] at fits
  exact ⟨below, fun red => (shades red).1, fits⟩

end Spine

open RBT Spine

/-- The rotations under a black grandparent whose other child is black, at a red child of a red
parent: the middle one of the three nodes comes on top. -/
def rotated (p g : Frame α) (t : RBT α) : RBT α :=
  match t with
  | .nil => rebuild [p, g] .nil
  | .node _ v _ _ =>
    if p.side = g.side then
      fork g.side .black p.value t (fork g.side .red g.value p.sibling g.sibling)
    else
      fork g.side .black v (fork g.side .red p.value p.sibling (t.child g.side))
        (fork g.side .red g.value (t.child g.side.other) g.sibling)

/-- The loop after an insertion, at a red node. -/
def repair : Spine α → RBT α → RBT α
  | p :: g :: path, t =>
    if p.color = .red then
      if g.sibling.color = .red then
        repair path
          (fork g.side .red g.value (fork p.side .black p.value t p.sibling) g.sibling.blacken)
      else (rebuild path (rotated p g t)).blacken
    else (rebuild (p :: g :: path) t).blacken
  | path, t => (rebuild path t).blacken

theorem toList_rotated (p g : Frame α) (t : RBT α) :
    (rotated p g t).toList = (rebuild [p, g] t).toList := by
  obtain ⟨pside, pc, pv, psibling⟩ := p
  obtain ⟨gside, gc, gv, gsibling⟩ := g
  cases t with
  | nil => rfl
  | node c v l r => cases pside <;> cases gside <;>
      simp [rotated, rebuild, Frame.plug, fork, toList, child, Side.other]

theorem toList_repair (path : Spine α) (t : RBT α) :
    (repair path t).toList = (rebuild path t).toList := by
  fun_induction repair path t with
  | case1 p g path t parent uncle ih =>
    rw [ih]
    refine toList_rebuild_congr ?_
    obtain ⟨pside, pc, pv, psibling⟩ := p
    obtain ⟨gside, gc, gv, gsibling⟩ := g
    cases pside <;> cases gside <;> simp [Frame.plug, fork, toList]
  | case2 p g path t parent uncle =>
    rw [toList_blacken]
    exact toList_rebuild_congr (toList_rotated p g t)
  | case3 => exact toList_blacken _
  | case4 => exact toList_blacken _

theorem rotated_outer {p g : Frame α} (outer : p.side = g.side) (c : Color) (v : α) (near far : RBT α) :
    rotated p g (fork g.side c v near far) =
      fork g.side .black p.value (fork g.side c v near far)
        (fork g.side .red g.value p.sibling g.sibling) := by
  cases shape : g.side <;> simp [rotated, fork, outer, shape]

theorem rotated_inner {p g : Frame α} (inner : p.side ≠ g.side) (c : Color) (v : α) (near far : RBT α) :
    rotated p g (fork g.side c v near far) =
      fork g.side .black v (fork g.side .red p.value p.sibling near)
        (fork g.side .red g.value far g.sibling) := by
  cases shape : g.side <;> simp_all [rotated, fork, child, Side.other]

theorem color_repair (path : Spine α) (t : RBT α) : (repair path t).color = .black := by
  fun_induction repair path t with
  | case1 p g path t parent uncle ih => exact ih
  | case2 => exact color_blacken _
  | case3 => exact color_blacken _
  | case4 => exact color_blacken _

/-- The rotations give a balanced tree with a black root, of the height the grandparent had. -/
theorem rotated_balanced {p g : Frame α} {t : RBT α} (red : t.color = .red) (balanced : t.Balanced)
    (parent : p.sibling.Balanced ∧ p.sibling.height = t.height ∧ p.sibling.color = .black)
    (uncle : g.sibling.Balanced ∧ g.sibling.height = t.height ∧ g.sibling.color = .black) :
    (rotated p g t).Balanced ∧ (rotated p g t).height = t.height + 1 ∧
      (rotated p g t).color = .black := by
  obtain ⟨v, near, far, rfl⟩ := exists_fork_of_red g.side red
  obtain ⟨same, shades, hnear, hfar⟩ := balanced_fork.mp balanced
  have level : (fork g.side .red v near far).height = near.height := by simp [height_fork same]
  rw [level] at parent uncle ⊢
  by_cases outer : p.side = g.side
  · have right : (fork g.side .red g.value p.sibling g.sibling).height = near.height := by
      simp [height_fork (parent.2.1.trans uncle.2.1.symm), parent.2.1]
    rw [rotated_outer outer]
    refine ⟨balanced_fork.mpr ⟨level.trans right.symm, fun black => (nomatch black), balanced,
      balanced_fork.mpr ⟨parent.2.1.trans uncle.2.1.symm, fun _ => ⟨parent.2.2, uncle.2.2⟩, parent.1,
        uncle.1⟩⟩, ?_, color_fork ..⟩
    rw [height_fork (level.trans right.symm), level, if_pos rfl]
  · have left : (fork g.side .red p.value p.sibling near).height = near.height := by
      simp [height_fork parent.2.1, parent.2.1]
    have right : (fork g.side .red g.value far g.sibling).height = near.height := by
      simp [height_fork (same.symm.trans uncle.2.1.symm), same]
    rw [rotated_inner outer]
    refine ⟨balanced_fork.mpr ⟨left.trans right.symm, fun black => (nomatch black),
      balanced_fork.mpr ⟨parent.2.1, fun _ => ⟨parent.2.2, (shades rfl).1⟩, parent.1, hnear⟩,
      balanced_fork.mpr ⟨same.symm.trans uncle.2.1.symm, fun _ => ⟨(shades rfl).2, uncle.2.2⟩, hfar,
        uncle.1⟩⟩, ?_, color_fork ..⟩
    rw [height_fork (left.trans right.symm), left, if_pos rfl]

/-- Under a red uncle the violation moves up two nodes. -/
theorem recolor_balanced {p g : Frame α} {path : Spine α} {t : RBT α} (fits : Fits (p :: g :: path) t.height)
    (balanced : t.Balanced) (parent : p.color = .red) (uncle : g.sibling.color = .red) :
    Fits path (fork g.side .red g.value (fork p.side .black p.value t p.sibling) g.sibling.blacken).height ∧
      (fork g.side .red g.value (fork p.side .black p.value t p.sibling) g.sibling.blacken).Balanced := by
  obtain ⟨psibling, plevel, pabove, gsibling, glevel, gabove, rest⟩ := fits
  rw [parent] at glevel rest
  simp only [reduceCtorEq, if_false, Nat.add_zero] at glevel rest
  have gblack : g.color = .black := (pabove parent).2.1
  have down : (fork p.side .black p.value t p.sibling).height = t.height + 1 := by
    rw [height_fork plevel.symm, if_pos rfl]
  have other : g.sibling.blacken.height = t.height + 1 := by rw [height_blacken_of_red uncle, glevel]
  rw [gblack, if_pos rfl] at rest
  constructor
  · rw [height_fork (down.trans other.symm), down]
    exact rest
  · exact balanced_fork.mpr ⟨down.trans other.symm, fun _ => ⟨color_fork .., color_blacken _⟩,
      balanced_fork.mpr ⟨plevel.symm, fun black => (nomatch black), balanced, psibling⟩,
      gsibling.blacken⟩

/-- After an insertion the loop gives a balanced tree. -/
theorem repair_balanced {path : Spine α} {t : RBT α} (fits : Fits path t.height)
    (balanced : t.Balanced) (red : t.color = .red) : (repair path t).Balanced := by
  fun_induction repair path t with
  | case1 p g path t parent uncle ih =>
    obtain ⟨fits, balanced⟩ := recolor_balanced fits balanced parent uncle
    exact ih fits balanced (color_fork ..)
  | case2 p g path t parent uncle =>
    obtain ⟨psibling, plevel, pabove, gsibling, glevel, gabove, rest⟩ := fits
    rw [parent] at glevel rest
    simp only [reduceCtorEq, if_false, Nat.add_zero] at glevel rest
    have gblack : g.color = .black := (pabove parent).2.1
    rw [gblack, if_pos rfl] at rest
    have ublack : g.sibling.color = .black := by
      cases shade : g.sibling.color with
      | black => rfl
      | red => exact absurd shade uncle
    obtain ⟨whole, level, top⟩ := rotated_balanced red balanced ⟨psibling, plevel, (pabove parent).1⟩
      ⟨gsibling, glevel, ublack⟩
    exact (rebuild_balanced (level.symm ▸ rest) whole fun red => absurd (top.symm.trans red) (by decide)).blacken
  | case3 p g path t parent =>
    refine (rebuild_balanced fits balanced fun _ => ?_).blacken
    cases shade : p.color with
    | black => exact shade
    | red => exact absurd shade parent
  | case4 path t short =>
    exact (rebuild_balanced fits balanced fun _ => fits.color_of_short short).blacken

/-- One pass of the loop after a deletion, under a node whose child `x` is short of a black node and
whose other child `w` is black: the new subtree, and whether it is short as a whole. -/
def settle (side : Side) (c : Color) (v : α) (x w : RBT α) : RBT α × Bool :=
  match w with
  | .nil => (fork side c v x .nil, true)
  | .node _ wv _ _ =>
    if (w.child side).color = .black ∧ (w.child side.other).color = .black then
      (fork side c v x w.redden, true)
    else if (w.child side.other).color = .black then
      match w.child side with
      | .nil => (fork side c v x w, true)
      | .node _ nv _ _ =>
        (fork side c nv (fork side .black v x ((w.child side).child side))
          (fork side .black wv ((w.child side).child side.other) (w.child side.other)), false)
    else
      (fork side c wv (fork side .black v x (w.child side)) (w.child side.other).blacken, false)

/-- The loop after a deletion, at a subtree that is short of a black node. -/
def restore : Spine α → RBT α → RBT α
  | [], t => t.blacken
  | f :: path, t =>
    if t.color = .red then rebuild (f :: path) t.blacken
    else
      match f.sibling with
      | .node .red wv l r =>
        -- a red sibling comes on top, and the pass is made with its near child
        let w := RBT.node .red wv l r
        let sub := settle f.side .red f.value t (w.child f.side)
        let top (below : RBT α) := rebuild path (fork f.side .black wv below (w.child f.side.other))
        if sub.2 then top sub.1.blacken else (top sub.1).blacken
      | w =>
        let sub := settle f.side f.color f.value t w
        if sub.2 then restore path sub.1 else (rebuild path sub.1).blacken

theorem settle_short {side : Side} {near far : RBT α} (c : Color) (v : α) (x : RBT α) (d : Color) (wv : α)
    (black : near.color = .black ∧ far.color = .black) :
    settle side c v x (fork side d wv near far) = (fork side c v x (fork side .red wv near far), true) := by
  cases side <;> simp [settle, fork, child, Side.other, black, redden]

theorem settle_inner {side : Side} {far : RBT α} (c : Color) (v : α) (x : RBT α) (d : Color) (wv nv : α)
    (a b : RBT α) (black : far.color = .black) :
    settle side c v x (fork side d wv (fork side .red nv a b) far) =
      (fork side c nv (fork side .black v x a) (fork side .black wv b far), false) := by
  have red (l r : RBT α) : (RBT.node .red nv l r).color = .red := rfl
  cases side <;> simp [settle, fork, child, Side.other, black, red]

theorem settle_outer {side : Side} {near far : RBT α} (c : Color) (v : α) (x : RBT α) (d : Color) (wv : α)
    (red : far.color = .red) :
    settle side c v x (fork side d wv near far) =
      (fork side c wv (fork side .black v x near) far.blacken, false) := by
  cases side <;> simp [settle, fork, child, Side.other, red]

theorem restore_red {f : Frame α} {t : RBT α} (path : Spine α) (red : t.color = .red) :
    restore (f :: path) t = rebuild (f :: path) t.blacken := by
  rw [restore, if_pos red]

/-- A red sibling comes on top. -/
theorem restore_red_sibling {f : Frame α} {t near far : RBT α} {wv : α} (path : Spine α)
    (black : t.color = .black) (sibling : f.sibling = fork f.side .red wv near far) :
    restore (f :: path) t =
      if (settle f.side .red f.value t near).2 then
        rebuild path (fork f.side .black wv (settle f.side .red f.value t near).1.blacken far)
      else (rebuild path (fork f.side .black wv (settle f.side .red f.value t near).1 far)).blacken := by
  rw [restore, if_neg (by simp [black]), sibling]
  cases f.side <;> rfl

theorem restore_black_sibling {f : Frame α} {t : RBT α} (path : Spine α) (black : t.color = .black)
    (level : f.sibling.color = .black) :
    restore (f :: path) t =
      if (settle f.side f.color f.value t f.sibling).2 then
        restore path (settle f.side f.color f.value t f.sibling).1
      else (rebuild path (settle f.side f.color f.value t f.sibling).1).blacken := by
  obtain ⟨side, c, v, sibling⟩ := f
  rw [restore, if_neg (by simp [black])]
  cases sibling with
  | nil => rfl
  | node d wv l r =>
    obtain rfl : d = .black := level
    rfl

/-- How a pass ends: short again with a red sibling, or with the near or the far child on top. -/
theorem settle_cases (side : Side) (c : Color) (v : α) (x : RBT α) (d : Color) (wv : α) (near far : RBT α) :
    (near.color = .black ∧ far.color = .black ∧ settle side c v x (fork side d wv near far) =
      (fork side c v x (fork side .red wv near far), true)) ∨
    (far.color = .black ∧ ∃ nv a b, near = fork side .red nv a b ∧
      settle side c v x (fork side d wv near far) =
        (fork side c nv (fork side .black v x a) (fork side .black wv b far), false)) ∨
    (far.color = .red ∧ settle side c v x (fork side d wv near far) =
      (fork side c wv (fork side .black v x near) far.blacken, false)) := by
  cases outer : far.color with
  | red => exact .inr (.inr ⟨rfl, settle_outer c v x d wv outer⟩)
  | black =>
    cases inner : near.color with
    | black => exact .inl ⟨rfl, rfl, settle_short c v x d wv ⟨inner, outer⟩⟩
    | red =>
      obtain ⟨nv, a, b, rfl⟩ := exists_fork_of_red side inner
      exact .inr (.inl ⟨rfl, nv, a, b, rfl, settle_inner c v x d wv nv a b outer⟩)

theorem toList_settle (side : Side) (c : Color) (v : α) (x w : RBT α) :
    (settle side c v x w).1.toList = (fork side c v x w).toList := by
  cases w with
  | nil => rfl
  | node d wv l r =>
    obtain ⟨near, far, shape⟩ : ∃ near far, RBT.node d wv l r = fork side d wv near far := by
      cases side
      · exact ⟨l, r, rfl⟩
      · exact ⟨r, l, rfl⟩
    rw [shape]
    rcases settle_cases side c v x d wv near far with ⟨_, _, ends⟩ | ⟨_, nv, a, b, rfl, ends⟩ | ⟨_, ends⟩ <;>
      rw [ends] <;> cases side <;> simp [fork, toList]

theorem toList_restore (path : Spine α) (t : RBT α) :
    (restore path t).toList = (rebuild path t).toList := by
  induction path generalizing t with
  | nil => exact toList_blacken t
  | cons f path ih =>
    cases shade : t.color with
    | red =>
      rw [restore_red path shade]
      exact toList_rebuild_congr (toList_blacken t)
    | black =>
      cases level : f.sibling.color with
      | red =>
        obtain ⟨wv, near, far, sibling⟩ := exists_fork_of_red f.side level
        have pass := toList_settle f.side .red f.value t near
        have same (below : RBT α) (kept : below.toList = (fork f.side .red f.value t near).toList) :
            (rebuild path (fork f.side .black wv below far)).toList = (rebuild (f :: path) t).toList := by
          refine toList_rebuild_congr ?_
          rw [Frame.plug, sibling]
          cases shape : f.side <;> simp_all [fork, toList]
        rw [restore_red_sibling path shade sibling]
        split_ifs
        · exact same _ ((toList_blacken _).trans pass)
        · rw [toList_blacken]
          exact same _ pass
      | black =>
        have pass := toList_settle f.side f.color f.value t f.sibling
        rw [restore_black_sibling path shade level]
        split_ifs
        · rw [ih]
          exact toList_rebuild_congr pass
        · rw [toList_blacken]
          exact toList_rebuild_congr pass

/-- A pass leaves a subtree that is balanced up to the colour of its root, and short of a black node
exactly when it says so. -/
theorem settle_balanced (side : Side) (c : Color) (v : α) {x w : RBT α} (hx : x.Balanced)
    (hw : w.Balanced) (wblack : w.color = .black) (level : w.height = x.height + 1) :
    (settle side c v x w).1.color = c ∧ (settle side c v x w).1.blacken.Balanced ∧
      (settle side c v x w).1.height + (if (settle side c v x w).2 then 1 else 0) =
        x.height + 1 + (if c = .black then 1 else 0) ∧
      ((settle side c v x w).2 = false → (settle side c v x w).1.Balanced) := by
  obtain ⟨d, wv, near, far, rfl⟩ := exists_fork_of_height side (t := w) (by omega)
  obtain rfl : d = .black := (color_fork ..).symm.trans wblack
  obtain ⟨same, -, hnear, hfar⟩ := balanced_fork.mp hw
  rw [height_fork same, if_pos rfl] at level
  have ground : near.height = x.height := by omega
  rcases settle_cases side c v x .black wv near far with
    ⟨nblack, fblack, ends⟩ | ⟨fblack, nv, a, b, rfl, ends⟩ | ⟨fred, ends⟩
  · have right : (fork side .red wv near far).height = x.height := by simp [height_fork same, ground]
    rw [ends]
    refine ⟨color_fork .., ?_, ?_, fun short => nomatch short⟩
    · rw [blacken_fork]
      exact balanced_fork.mpr ⟨right.symm, fun black => (nomatch black), hx,
        balanced_fork.mpr ⟨same, fun _ => ⟨nblack, fblack⟩, hnear, hfar⟩⟩
    · rw [height_fork right.symm, if_pos rfl]
      omega
  · obtain ⟨even, -, ha, hb⟩ := balanced_fork.mp hnear
    rw [height_fork even] at ground same
    simp only [reduceCtorEq, if_false, Nat.add_zero] at ground same
    have left : (fork side .black v x a).height = x.height + 1 := by
      rw [height_fork ground.symm, if_pos rfl]
    have right : (fork side .black wv b far).height = x.height + 1 := by
      rw [height_fork (even.symm.trans same), if_pos rfl, ← even, ground]
    have whole : (fork side c nv (fork side .black v x a) (fork side .black wv b far)).Balanced :=
      balanced_fork.mpr ⟨left.trans right.symm, fun _ => ⟨color_fork .., color_fork ..⟩,
        balanced_fork.mpr ⟨ground.symm, fun black => (nomatch black), hx, ha⟩,
        balanced_fork.mpr ⟨even.symm.trans same, fun black => (nomatch black), hb, hfar⟩⟩
    rw [ends]
    refine ⟨color_fork .., whole.blacken, ?_, fun _ => whole⟩
    simp only [height_fork (left.trans right.symm), left]
    simp
  · have left : (fork side .black v x near).height = x.height + 1 := by
      rw [height_fork ground.symm, if_pos rfl]
    have right : far.blacken.height = x.height + 1 := by
      rw [height_blacken_of_red fred, ← same, ground]
    have whole : (fork side c wv (fork side .black v x near) far.blacken).Balanced :=
      balanced_fork.mpr ⟨left.trans right.symm, fun _ => ⟨color_fork .., color_blacken _⟩,
        balanced_fork.mpr ⟨ground.symm, fun black => (nomatch black), hx, hnear⟩, hfar.blacken⟩
    rw [ends]
    refine ⟨color_fork .., whole.blacken, ?_, fun _ => whole⟩
    simp only [height_fork (left.trans right.symm), left]
    simp

/-- After a deletion the loop gives a balanced tree with a black root. -/
theorem restore_balanced {path : Spine α} {t : RBT α} (fits : Fits path (t.height + 1))
    (balanced : t.blacken.Balanced) : (restore path t).Balanced ∧ (restore path t).color = .black := by
  induction path generalizing t with
  | nil => exact ⟨balanced, color_blacken t⟩
  | cons f path ih =>
    cases shade : t.color with
    | red =>
      rw [restore_red path shade]
      rw [← height_blacken_of_red shade] at fits
      exact ⟨rebuild_balanced fits balanced fun red => absurd ((color_blacken t).symm.trans red) (by decide),
        rebuild_color fits fun _ => color_blacken t⟩
    | black =>
      obtain ⟨hsibling, level, above, rest⟩ := fits
      rw [blacken_of_black shade] at balanced
      cases hue : f.sibling.color with
      | red =>
        obtain ⟨wv, near, far, sibling⟩ := exists_fork_of_red f.side hue
        have fblack : f.color = .black := by
          cases own : f.color with
          | black => rfl
          | red => exact absurd (hue.symm.trans (above own).1) (by decide)
        rw [sibling] at hsibling level
        obtain ⟨same, shades, hnear, hfar⟩ := balanced_fork.mp hsibling
        rw [height_fork same] at level
        simp only [reduceCtorEq, if_false, Nat.add_zero] at level
        rw [fblack, if_pos rfl] at rest
        obtain ⟨tint, sub, deep, done⟩ := settle_balanced f.side .red f.value
          balanced hnear (shades rfl).1 level
        -- with either result below, the old sibling is black and as high as the node it replaces
        have top (below : RBT α) (even : below.height = t.height + 1) (hbelow : below.Balanced) :
            (rebuild path (fork f.side .black wv below far)).Balanced ∧
              (rebuild path (fork f.side .black wv below far)).color = .black := by
          have across : below.height = far.height := by omega
          have tall : (fork f.side .black wv below far).height = t.height + 1 + 1 := by
            rw [height_fork across, if_pos rfl, even]
          exact ⟨rebuild_balanced (tall.symm ▸ rest)
            (balanced_fork.mpr ⟨across, fun black => (nomatch black), hbelow, hfar⟩)
            fun red => absurd ((color_fork ..).symm.trans red) (by decide),
            rebuild_color rest fun _ => color_fork ..⟩
        rw [restore_red_sibling path shade sibling]
        split_ifs with short
        · rw [if_pos short] at deep
          refine top _ ?_ sub
          rw [height_blacken_of_red tint]
          simpa using deep
        · rw [if_neg short] at deep
          obtain ⟨whole, black⟩ := top _ (by simpa using deep) (done (by simpa using short))
          rw [blacken_of_black black]
          exact ⟨whole, black⟩
      | black =>
        obtain ⟨tint, sub, deep, done⟩ := settle_balanced f.side f.color f.value
          balanced hsibling hue level
        rw [restore_black_sibling path shade hue]
        split_ifs with short
        · rw [if_pos short] at deep
          exact ih (deep.symm ▸ rest) sub
        · rw [if_neg short, Nat.add_zero] at deep
          exact ⟨(rebuild_balanced (deep.symm ▸ rest) (done (by simpa using short))
            fun red => (above (tint.symm.trans red)).2.1).blacken, color_blacken _⟩

end RedBlack
