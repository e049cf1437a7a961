import LockFreeCore.Proofs.Map.Invariants

/-! # The sentinel while `erase` repairs the tree

All leaves are one node, whose parent pointer `transplant` borrows. In a reachable map no check of the
checked loop fails: the place that is short of a black node has a sibling, and so do its nephews where
they are turned up.
-/

namespace LockFreeCore.Map

open RedBlack RedBlack.RBT RedBlack.Spine

variable {K V : Type} [LinearOrder K] {m : Map K V} {t : RBT (Cell K V)}

/-- On a sound map every `erase` passes all checks. -/
theorem Sound.eraseChecked (sound : Sound m t) (key : K) :
    ∃ result, m.eraseChecked key = some result ∧ m.erase key = some result := by
  obtain ⟨path, u, rfl, -, found, -, hit⟩ := sound.lookup key
  rw [Map.eraseChecked, erase, found]
  simp only [Option.bind_eq_bind, Option.bind_some]
  cases u with
  | nil => exact ⟨_, if_pos addr_nil, if_pos addr_nil⟩
  | node c z l r =>
    obtain ⟨-, real⟩ := hit c z l r rfl
    obtain ⟨m₁, place, x, d, ran, unlinked⟩ := unlink_spec sound.stored sound.balanced sound.black
    have top : addr (.node c z l r) = z.addr := rfl
    simp only [top, if_neg real, ran, Option.bind_some]
    cases d with
    | red => exact ⟨_, rfl, rfl⟩
    | black =>
      obtain ⟨m₂, checked, -⟩ := unlinked.repaired
      simp only [if_true, checked, eraseFixup_of_checked checked, Option.bind_some]
      exact ⟨_, rfl, rfl⟩

/-- After every sequence of calls on a fresh map, every `erase` passes all checks. -/
theorem calls_eraseChecked [Inhabited K] [Inhabited V] (list : List (FiniteMap.Call K V)) :
    ∃ m replies, FiniteMap.calls call (empty : Map K V) list = some (m, replies) ∧
      ∀ key, ∃ result, m.eraseChecked key = some result ∧ m.erase key = some result := by
  obtain ⟨m, replies, ran, t, sound, -⟩ := calls_grown (K := K) (V := V) list
  exact ⟨m, replies, ran, fun key => sound.eraseChecked key⟩

end LockFreeCore.Map
