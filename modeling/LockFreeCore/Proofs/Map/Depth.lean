import LockFreeCore.Proofs.Map.Invariants

/-! # How deep a search goes

A search visits the nodes of one way down the stored tree, which is balanced, and the map counts its nodes.
-/

namespace LockFreeCore.Map

open RedBlack RedBlack.RBT RedBlack.Spine

variable {K V : Type} [LinearOrder K] {m : Map K V} {path : Spine (Cell K V)} {t : RBT (Cell K V)}

/-- The nodes that a search visits are on one way down. -/
theorem length_visited_le (stored : Stored m (rebuild path t)) (key : K) (fuel : ℕ) :
    (m.visited key fuel (addr t)).length ≤ t.depth := by
  induction t generalizing path fuel with
  | nil =>
    cases fuel with
    | zero => exact Nat.le_refl 0
    | succ fuel =>
      rw [visited, if_neg (not_not.mpr addr_nil)]
      exact Nat.le_refl 0
  | node c cell l r ihl ihr =>
    cases fuel with
    | zero => exact Nat.zero_le _
    | succ fuel =>
      have node := (rep_rebuild.mp stored.rep).1.1
      have real : cell.addr ≠ m_nil := Nat.ne_of_gt (stored.addr_pos node_ne_nil)
      have left : Stored m (rebuild (⟨.left, c, cell, r⟩ :: path) l) := stored
      have right : Stored m (rebuild (⟨.right, c, cell, l⟩ :: path) r) := stored
      rw [visited, addr, if_pos real, node, Option.elim_some, List.length_cons, depth]
      refine Nat.succ_le_succ ?_
      split_ifs with same less
      · exact Nat.zero_le _
      · exact (ihl left fuel).trans (Nat.le_max_left ..)
      · exact (ihr right fuel).trans (Nat.le_max_right ..)

/-- A search of a sound map visits no more nodes than twice the logarithm of the count. -/
theorem Sound.two_pow_visited (sound : Sound m t) (key : K) (fuel : ℕ) :
    (2 : ℤ) ^ (m.visited key fuel m.m_root).length ≤ (m.getCount + 1) ^ 2 := by
  have placed : Stored m (rebuild [] t) := sound.stored
  have way := length_visited_le placed key fuel
  rw [getCount, sound.count, sound.stored.root]
  have bound : 2 ^ (m.visited key fuel (addr t)).length ≤ (t.toList.length + 1) ^ 2 :=
    (Nat.pow_le_pow_right (by decide) way).trans (sound.balanced.two_pow_depth sound.black)
  exact_mod_cast bound

/-- On a fresh map every sequence of calls returns, and then every search does, having visited no more nodes than
twice the logarithm of the count. -/
theorem calls_visited [Inhabited K] [Inhabited V] (list : List (FiniteMap.Call K V)) :
    ∃ m replies, FiniteMap.calls call (empty : Map K V) list = some (m, replies) ∧
      ∀ key, (m.findNode key m.next m.m_root).isSome ∧
        (2 : ℤ) ^ (m.visited key m.next m.m_root).length ≤ (m.getCount + 1) ^ 2 := by
  obtain ⟨m, replies, ran, t, sound, -⟩ := calls_grown (K := K) (V := V) list
  refine ⟨m, replies, ran, fun key => ⟨?_, sound.two_pow_visited key m.next⟩⟩
  obtain ⟨-, u, -, -, found, -⟩ := sound.lookup key
  rw [found]
  rfl

end LockFreeCore.Map
