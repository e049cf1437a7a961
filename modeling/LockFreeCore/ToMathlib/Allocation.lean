import Mathlib.Data.Set.Card

/-! # Counting what a heap holds

A heap hands out addresses upwards and forgets the ones that are freed. An owner who counts its
allocations and knows as many different live addresses knows all of them, so that freeing these leaves
nothing behind.
-/

namespace Allocated

/-- The addresses in use. -/
def live {ν : Type*} (heap : ℕ → Option ν) : Set ℕ := {a | (heap a).isSome}

variable {ν : Type*} {heap : ℕ → Option ν} {a : ℕ}

theorem mem_live : a ∈ live heap ↔ (heap a).isSome := Iff.rfl

theorem live_nothing : live (fun _ => (none : Option ν)) = ∅ := by
  ext a
  simp [mem_live]

theorem live_update_some (node : ν) : live (Function.update heap a (some node)) = insert a (live heap) := by
  ext b
  by_cases same : b = a
  · subst same
    simp [mem_live]
  · simp [mem_live, same]

theorem live_update_none : live (Function.update heap a none) = live heap \ {a} := by
  ext b
  by_cases same : b = a
  · subst same
    simp [mem_live]
  · simp [mem_live, same]

end Allocated

/-- The heap has this many addresses in use, all below the next one. -/
structure Allocated {ν : Type*} (heap : ℕ → Option ν) (fresh count : ℕ) : Prop where
  below : ∀ a ∈ Allocated.live heap, a < fresh
  count : (Allocated.live heap).ncard = count

namespace Allocated

variable {ν : Type*} {heap heap' : ℕ → Option ν} {fresh count a : ℕ}

theorem finite (allocated : Allocated heap fresh count) : (live heap).Finite :=
  (Set.finite_lt_nat fresh).subset allocated.below

theorem nothing : Allocated (fun _ => (none : Option ν)) 0 0 :=
  ⟨fun a member => (live_nothing (ν := ν) ▸ member : a ∈ (∅ : Set ℕ)).elim, by rw [live_nothing, Set.ncard_empty]⟩

theorem congr (allocated : Allocated heap fresh count) (same : live heap' = live heap) :
    Allocated heap' fresh count :=
  ⟨same ▸ allocated.below, same ▸ allocated.count⟩

theorem alloc (allocated : Allocated heap fresh count) (node : ν) :
    Allocated (Function.update heap fresh (some node)) (fresh + 1) (count + 1) := by
  have unused : fresh ∉ live heap := fun member => lt_irrefl _ (allocated.below fresh member)
  constructor
  · intro a member
    rw [live_update_some, Set.mem_insert_iff] at member
    rcases member with rfl | member
    · exact Nat.lt_succ_self a
    · exact (allocated.below a member).trans (Nat.lt_succ_self fresh)
  · rw [live_update_some, Set.ncard_insert_of_notMem unused allocated.finite, allocated.count]

theorem free (allocated : Allocated heap fresh (count + 1)) (used : a ∈ live heap) :
    Allocated (Function.update heap a none) fresh count := by
  constructor
  · intro b member
    rw [live_update_none] at member
    exact allocated.below b member.1
  · rw [live_update_none, Set.ncard_sdiff_singleton_of_mem used, allocated.count, Nat.add_sub_cancel]

theorem exists_succ (allocated : Allocated heap fresh count) (used : a ∈ live heap) : ∃ rest, count = rest + 1 := by
  have pos : 0 < count := allocated.count ▸ (Set.ncard_pos allocated.finite).mpr ⟨a, used⟩
  exact ⟨count - 1, (Nat.succ_pred_eq_of_pos pos).symm⟩

/-- As many different live addresses as there are, are all of them. -/
theorem covered (allocated : Allocated heap fresh count) {nodes : Finset ℕ} (used : ∀ a ∈ nodes, a ∈ live heap)
    (enough : count ≤ nodes.card) : live heap = nodes := by
  refine (Set.eq_of_subset_of_ncard_le used ?_ allocated.finite).symm
  rwa [Set.ncard_coe_finset, allocated.count]

end Allocated
