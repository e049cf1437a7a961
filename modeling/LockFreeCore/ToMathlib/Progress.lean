import LockFreeCore.ToMathlib.Interleaving
import Mathlib.Algebra.Order.BigOperators.Group.Finset
import Mathlib.Data.Fintype.Card

/-! # Progress in a pool of threads

A thread inside a call is ranked by the steps it is away from returning, and what another thread does to the
store may put it back. Where this happens only with some work done on the store, the steps of a call are
bounded by the work that others did meanwhile; and where work is done by returning calls only, or once in each
call, there is a bound on the steps that all threads together take without any call returning.
-/

namespace Pool

open scoped BigOperators

variable {τ S L ι : Type*} [DecidableEq τ] {exec : S → τ → L → ι → Option (S × L)}

/-- The thread is inside a call before the step, and still inside it after. -/
def Inside (exec : S → τ → L → ι → Option (S × L)) (outside : L) (pool : Pool τ S L) (label : τ × ι) : Prop :=
  pool.threads label.1 ≠ outside ∧ ∀ next, step exec pool label = some next → next.threads label.1 ≠ outside

instance (exec : S → τ → L → ι → Option (S × L)) (outside : L) [DecidableEq L] (pool : Pool τ S L) (label : τ × ι) :
    Decidable (Inside exec outside pool label) :=
  match stepped : step exec pool label with
  | none => decidable_of_iff (pool.threads label.1 ≠ outside) (by simp [Inside, stepped])
  | some next => decidable_of_iff (pool.threads label.1 ≠ outside ∧ next.threads label.1 ≠ outside)
      (by simp [Inside, stepped])

/-- A step inside a call, as the thread sees it. -/
theorem Inside.both {outside : L} {pool : Pool τ S L} {label : τ × ι} {shared : S} {mine : L}
    (inside : Inside exec outside pool label)
    (ran : exec pool.shared label.1 (pool.threads label.1) label.2 = some (shared, mine)) :
    pool.threads label.1 ≠ outside ∧ mine ≠ outside := by
  refine ⟨inside.1, ?_⟩
  have after := inside.2 _ (step_eq_some.mpr ⟨shared, mine, ran, rfl⟩)
  dsimp only at after
  rwa [Function.update_self] at after

variable (exec) {outside : L} (rank : S → L → ℕ)

/-- A call takes no more steps than its rank, and the delay by the work that is done meanwhile. -/
theorem steps_le (work : S → ℕ) (delay : ℕ)
    (grows : ∀ s t l input s' l', exec s t l input = some (s', l') → work s ≤ work s')
    (delays : ∀ s t l input s' l', exec s t l input = some (s', l') →
      ∀ other, rank s' other ≤ rank s other + delay * (work s' - work s))
    (lowers : ∀ s t l input s' l', exec s t l input = some (s', l') → l ≠ outside → l' ≠ outside →
      rank s' l' < rank s l + delay * (work s' - work s))
    {pool final : Pool τ S L} {labels : List (τ × ι)} (run : Replay.replay (step exec) pool labels = some final) (t : τ)
    (inside : Replay.Along (step exec) (fun pool label => label.1 = t → Inside exec outside pool label) pool labels) :
    labels.countP (·.1 = t) + rank final.shared (final.threads t) ≤
      rank pool.shared (pool.threads t) + delay * (work final.shared - work pool.shared) := by
  suffices bound : work pool.shared ≤ work final.shared ∧ _ from bound.2
  induction labels generalizing pool with
  | nil =>
    obtain rfl := Option.some.inj run
    exact ⟨le_refl _, by simp⟩
  | cons label rest ih =>
    obtain ⟨next, stepped, tail⟩ := Option.bind_eq_some_iff.mp run
    obtain ⟨later, bound⟩ := ih tail (inside.2 next stepped)
    obtain ⟨shared, mine, ran, rfl⟩ := step_eq_some.mp stepped
    have now := grows _ _ _ _ _ _ ran
    dsimp only at later bound
    have split : work final.shared - work pool.shared =
        (work shared - work pool.shared) + (work final.shared - work shared) := by omega
    refine ⟨now.trans later, ?_⟩
    rw [split, Nat.mul_add, List.countP_cons]
    by_cases own : label.1 = t
    · subst own
      obtain ⟨before, after⟩ := (inside.1 rfl).both ran
      have less := lowers _ _ _ _ _ _ ran before after
      rw [Function.update_self] at bound
      simp only [decide_true, if_true]
      omega
    · have less := delays _ _ _ _ _ _ ran (pool.threads t)
      rw [Function.update_of_ne (Ne.symm own)] at bound
      simp only [own, decide_false, Bool.false_eq_true, if_false]
      omega

/-- As long as no call returns, all threads together take no more steps than their ranks add up to: a step
that raises the ranks of the others lowers its own by more than that. -/
theorem length_le [Fintype τ]
    (lowers : ∀ s t l input s' l', exec s t l input = some (s', l') → l ≠ outside → l' ≠ outside →
      ∃ raise, (∀ other, rank s' other ≤ rank s other + raise) ∧ rank s' l' + raise * Fintype.card τ < rank s l)
    {pool final : Pool τ S L} {labels : List (τ × ι)} (run : Replay.replay (step exec) pool labels = some final)
    (inside : Replay.Along (step exec) (Inside exec outside) pool labels) :
    labels.length + ∑ t, rank final.shared (final.threads t) ≤ ∑ t, rank pool.shared (pool.threads t) := by
  refine Replay.Along.length_add_le (fun pool : Pool τ S L => ∑ t, rank pool.shared (pool.threads t))
    (fun pool label next inside stepped => ?_) inside run
  obtain ⟨shared, mine, ran, rfl⟩ := step_eq_some.mp stepped
  obtain ⟨before, after⟩ := inside.both ran
  obtain ⟨raise, others, own⟩ := lowers _ _ _ _ _ _ ran before after
  have rest : ∑ t ∈ Finset.univ.erase label.1, rank shared (Function.update pool.threads label.1 mine t) ≤
      ∑ t ∈ Finset.univ.erase label.1, rank pool.shared (pool.threads t) + raise * Fintype.card τ := by
    calc ∑ t ∈ Finset.univ.erase label.1, rank shared (Function.update pool.threads label.1 mine t)
        ≤ ∑ t ∈ Finset.univ.erase label.1, (rank pool.shared (pool.threads t) + raise) :=
          Finset.sum_le_sum fun t other => by
            rw [Function.update_of_ne (Finset.ne_of_mem_erase other)]
            exact others (pool.threads t)
      _ = ∑ t ∈ Finset.univ.erase label.1, rank pool.shared (pool.threads t) +
          (Finset.univ.erase label.1).card * raise := by rw [Finset.sum_add_distrib, Finset.sum_const_nat fun _ _ => rfl]
      _ ≤ _ := by
          rw [Nat.mul_comm raise]
          exact Nat.add_le_add_left (Nat.mul_le_mul_right raise (Finset.card_le_univ _)) _
  dsimp only
  rw [← Finset.add_sum_erase _ _ (Finset.mem_univ label.1), Function.update_self,
    ← Finset.add_sum_erase Finset.univ (fun t => rank pool.shared (pool.threads t)) (Finset.mem_univ label.1)]
  omega

end Pool
