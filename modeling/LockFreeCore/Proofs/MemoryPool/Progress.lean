import LockFreeCore.Model.MemoryPool
import LockFreeCore.Proofs.LockFreeStack.Progress

/-! # The memory pool is lock-free

Around its call of the free list a call takes a bounded number of steps. A call of `alloc` that has swapped a
block off the list has not returned yet, but one access later it does, so each thread puts the others back
once at most before some call returns.
-/

namespace LockFreeCore.MemoryPool

open LockFreeStack (swaps Head)

variable {τ : Type*} [DecidableEq τ] {pool next : MemoryPool τ} {thread : τ} {mine after : Local} {input : Input}

/-- The steps a thread still takes inside its call when nobody swaps the head of the free list; a block on the
way out of the list weighs as much as its swap puts the others back. -/
def rank (weight : ℕ) (head : Head ℕ) : Local → ℕ
  | .idle => 0
  | .allocPop inner => weight + 3 + LockFreeStack.rank head inner
  | .allocNew => 2
  | .allocCount _ => 1
  | .allocUse _ => 0
  | .freeUse _ => 4
  | .freePush inner => LockFreeStack.rank head inner

theorem rank_le (weight : ℕ) (head : Head ℕ) (mine : Local) : rank weight head mine ≤ weight + 9 := by
  cases mine with
  | allocPop inner | freePush inner =>
    have := LockFreeStack.rank_le head inner
    simp only [rank]
    omega
  | _ => simp only [rank]; omega

theorem rank_le_add (weight : ℕ) (head other : Head ℕ) (mine : Local) :
    rank weight other mine ≤ rank weight head mine + 4 := by
  cases mine with
  | allocPop inner | freePush inner =>
    have := LockFreeStack.rank_le_add head other inner
    simp only [rank]
    omega
  | _ => exact Nat.le_add_right ..

omit [DecidableEq τ] in
/-- A step swaps the head of the free list, or leaves it alone. -/
theorem Took.head (took : Took pool thread mine next after) :
    swaps next.m_freeList.log = swaps pool.m_freeList.log + 1 ∨
      (next.m_freeList.m_head = pool.m_freeList.m_head ∧ swaps next.m_freeList.log = swaps pool.m_freeList.log) := by
  cases took with
  | pops took | pushes took => exact took.head.imp_left And.right
  | _ => exact .inr ⟨rfl, rfl⟩

omit [DecidableEq τ] in
theorem Took.delays (took : Took pool thread mine next after) (weight : ℕ) (other : Local) :
    rank weight next.m_freeList.m_head other ≤
      rank weight pool.m_freeList.m_head other + 4 * (swaps next.m_freeList.log - swaps pool.m_freeList.log) := by
  rcases took.head with swapped | ⟨same, -⟩
  · have := rank_le_add weight pool.m_freeList.m_head next.m_freeList.m_head other
    omega
  · rw [same]
    exact Nat.le_add_right ..

/-- An access of `pop` inside `alloc` that returns null, or swaps, or goes on. -/
theorem pop_lt {stack : LockFreeStack.Stack (Option τ) ℕ} {inner left : LockFreeStack.Local ℕ}
    {half : LockFreeStack.Input (Option τ) ℕ}
    (popped : LockFreeStack.pop pool.m_freeList (some thread) inner half = some (stack, left)) (weight : ℕ) :
    (stack.m_head = pool.m_freeList.m_head ∧
        rank weight pool.m_freeList.m_head (afterPop inner left) < rank weight pool.m_freeList.m_head (.allocPop inner)) ∨
      ∃ node, afterPop inner left = .allocUse node := by
  obtain ⟨inside, ran⟩ := LockFreeStack.exec_of_pop popped
  by_cases idle : left = .idle
  · subst idle
    cases LockFreeStack.exec_took ran with
    | popSwap node => exact .inr ⟨node, rfl⟩
    | popNullTag | popNullPtr =>
      refine .inl ⟨rfl, ?_⟩
      simp only [afterPop, rank, if_true]
      omega
    | pushSwap => cases popped
    | reuse | give => exact absurd rfl inside
  · obtain ⟨same, -⟩ := (LockFreeStack.exec_took ran).head.resolve_left fun ended => idle ended.1
    have less := LockFreeStack.rank_lt ran inside idle
    have on : afterPop inner left = .allocPop left := if_neg idle
    refine .inl ⟨same, ?_⟩
    rw [on]
    simp only [rank]
    omega

/-- A step that does not end the call brings it nearer to its end, or takes a block off the list. -/
theorem rank_lt (ran : exec pool thread mine input = some (next, after)) (before : mine ≠ .idle)
    (goes : after ≠ .idle) (weight : ℕ) :
    (next.m_freeList.m_head = pool.m_freeList.m_head ∧
        rank weight pool.m_freeList.m_head after < rank weight pool.m_freeList.m_head mine) ∨
      ((∃ node, after = .allocUse node) ∧ weight + 3 ≤ rank weight pool.m_freeList.m_head mine) := by
  cases mine with
  | idle => exact absurd rfl before
  | allocPop inner =>
    cases stepped : alloc pool thread (.allocPop inner) input with
    | none =>
      rw [exec, stepped] at ran
      cases ran
    | some done =>
      rw [exec, stepped] at ran
      obtain ⟨⟨stack, left⟩, popped, same⟩ := Option.map_eq_some_iff.mp (stepped.trans ran)
      cases same
      exact (pop_lt popped weight).imp_right fun taken => ⟨taken, by simp only [rank]; omega⟩
  | freePush inner =>
    have first : alloc pool thread (.freePush inner) input = none := rfl
    rw [exec, first, Option.orElse_none] at ran
    obtain ⟨⟨stack, left⟩, pushed, same⟩ := Option.map_eq_some_iff.mp ran
    cases same
    obtain ⟨inside, ran⟩ := LockFreeStack.exec_of_push pushed
    have idle : left ≠ .idle := fun ended => goes (if_pos ended)
    obtain ⟨same, -⟩ := (LockFreeStack.exec_took ran).head.resolve_left fun ended => idle ended.1
    refine .inl ⟨same, ?_⟩
    rw [if_neg idle]
    exact LockFreeStack.rank_lt ran inside idle
  | allocUse node =>
    cases ran
    exact absurd rfl goes
  | _ =>
    cases ran
    exact .inl ⟨rfl, by simp [rank, LockFreeStack.rank]⟩

/-- From any state on, while a call of a thread does not return the thread takes at most nine steps, and four
more for each swap of the head of the free list. While no call of `n` threads returns, they take at most
`n * (4 * n + 9)` steps together. -/
theorem alloc_free_lock_free [Fintype τ] (pool final : Pool τ (MemoryPool τ) Local) (labels : List (τ × Input))
    (run : Replay.replay step pool labels = some final) :
    (∀ t, Replay.Along step (fun pool label => label.1 = t → Pool.Inside exec .idle pool label) pool labels →
      labels.countP (·.1 = t) ≤
        9 + 4 * (swaps final.shared.m_freeList.log - swaps pool.shared.m_freeList.log)) ∧
      (Replay.Along step (Pool.Inside exec .idle) pool labels →
        labels.length ≤ Fintype.card τ * (4 * Fintype.card τ + 9)) := by
  constructor
  · intro t inside
    have bound := Pool.steps_le exec (fun pool : MemoryPool τ => rank 0 pool.m_freeList.m_head)
      (fun pool => swaps pool.m_freeList.log) 4
      (fun pool t mine input next after ran => ?_) (fun pool t mine input next after ran => (exec_took ran).delays 0)
      (fun pool t mine input next after ran before goes => ?_) run t inside
    · have start := rank_le 0 pool.shared.m_freeList.m_head (pool.threads t)
      omega
    · rcases (exec_took ran).head with swapped | ⟨-, same⟩
      · exact swapped.symm ▸ Nat.le_succ _
      · exact same.ge
    · rcases rank_lt ran before goes 0 with ⟨same, less⟩ | ⟨⟨node, rfl⟩, more⟩
      · rw [same]
        exact Nat.lt_of_lt_of_le less (Nat.le_add_right ..)
      · simp only [rank] at more ⊢
        omega
  · intro inside
    have bound := Pool.length_le exec
      (fun pool : MemoryPool τ => rank (4 * Fintype.card τ) pool.m_freeList.m_head)
      (fun pool t mine input next after ran before goes => ?_) run inside
    · have start : ∑ t, rank (4 * Fintype.card τ) pool.shared.m_freeList.m_head (pool.threads t) ≤
          Fintype.card τ * (4 * Fintype.card τ + 9) :=
        Finset.sum_le_card_nsmul _ _ _ fun t _ => rank_le _ _ _
      omega
    · rcases rank_lt ran before goes (4 * Fintype.card τ) with ⟨same, less⟩ | ⟨⟨node, rfl⟩, more⟩
      · refine ⟨0, fun other => same ▸ le_refl _, ?_⟩
        rw [same, Nat.zero_mul]
        exact less
      · refine ⟨4, fun other => rank_le_add _ _ _ other, ?_⟩
        simp only [rank] at more ⊢
        omega

/-- Two threads inside `alloc` on a list of one block: the second takes it between the read and the swap of the
first. -/
theorem alloc_free_lock_free_two :
    let pool : Pool (Fin 2) (MemoryPool (Fin 2)) Local :=
      ⟨⟨⟨⟨some 0, 1⟩, fun _ => none, fun _ => some none, []⟩, 1, 0, 1, fun _ => 0⟩, fun _ => .allocPop .popLoad⟩
    let labels : List (Fin 2 × Input) := [0, 0, 0, 1, 1, 1, 1, 0].map fun t => (t, .ptrFirst)
    ∃ final, Replay.replay step pool labels = some final ∧
      (∀ t, Replay.Along step (fun pool label => label.1 = t → Pool.Inside exec .idle pool label) pool labels →
        labels.countP (·.1 = t) ≤
          9 + 4 * (swaps final.shared.m_freeList.log - swaps pool.shared.m_freeList.log)) ∧
        (Replay.Along step (Pool.Inside exec .idle) pool labels →
          labels.length ≤ Fintype.card (Fin 2) * (4 * Fintype.card (Fin 2) + 9)) := by
  intro pool labels
  obtain ⟨final, run⟩ : ∃ final, Replay.replay step pool labels = some final :=
    Option.isSome_iff_exists.mp (by decide)
  exact ⟨final, run, alloc_free_lock_free pool final labels run⟩

end LockFreeCore.MemoryPool
