import LockFreeCore.Model.Benchmark
import Mathlib.Algebra.Group.Action.Defs
import Mathlib.Algebra.Order.BigOperators.Group.Finset
import Mathlib.Data.Fintype.BigOperators

/-! # The spin lock loses no increment

The flag is set exactly while a thread is between its exchange and its release, so what such a thread has read of
the counter is still there when it writes.
-/

namespace LockFreeCore.Spinlock

variable {τ : Type*} {perThread : ℕ} {shared after : Shared} {mine later : Local} {thread : τ}

/-- Between the exchange that takes the lock and the one that gives it back. -/
def Local.inside : Local → Prop
  | .reading _ | .writing _ _ | .releasing _ => True
  | _ => False

/-- The increments that a thread has written. -/
def Local.written (perThread : ℕ) : Local → ℕ
  | .acquiring i | .reading i | .writing i _ => i
  | .releasing i => i + 1
  | .ended => perThread

/-- What a thread knows at its program point. -/
def Point (perThread : ℕ) (shared : Shared) : Local → Prop
  | .acquiring i => i ≤ perThread
  | .reading i | .releasing i => i < perThread ∧ shared.lockFlag = 1
  | .writing i value => i < perThread ∧ shared.lockFlag = 1 ∧ value = shared.counter
  | .ended => True

/-- At most one thread is inside, the flag tells whether one is, and the counter is what was written. -/
structure Locked [Fintype τ] (perThread : ℕ) (pool : Pool τ Shared Local) : Prop where
  exclusive : ∀ t u, (pool.threads t).inside → (pool.threads u).inside → t = u
  flag : pool.shared.lockFlag = 0 ∨ ∃ t, (pool.threads t).inside
  point : ∀ t, Point perThread pool.shared (pool.threads t)
  counter : pool.shared.counter = ∑ t, (pool.threads t).written perThread

theorem Point.flag {shared : Shared} {mine : Local} (point : Point perThread shared mine) (inside : mine.inside) :
    shared.lockFlag = 1 := by
  cases mine with
  | acquiring i | ended => exact inside.elim
  | reading i | releasing i => exact point.2
  | writing i value => exact point.2.1

/-- While a thread is outside, its point does not depend on what is shared. -/
theorem Point.outside (point : Point perThread shared mine) (outside : ¬ mine.inside) : Point perThread after mine := by
  cases mine with
  | acquiring i | ended => exact point
  | reading i | writing i value | releasing i => exact absurd trivial outside

theorem Point.written_le (point : Point perThread shared mine) : mine.written perThread ≤ perThread := by
  cases mine with
  | acquiring i => exact point
  | reading i | writing i value => exact point.1.le
  | releasing i => exact point.1
  | ended => exact le_rfl

theorem locked_start (τ : Type*) [Fintype τ] (perThread : ℕ) : Locked perThread (start τ) where
  exclusive _ _ inside := inside.elim
  flag := .inl rfl
  point _ := Nat.zero_le _
  counter := (Finset.sum_eq_zero fun _ _ => rfl).symm

/-- What one step does: a thread inside, or one that finds the lock free, is alone; any other changes nothing. -/
theorem exec_cases {input : Unit} (point : Point perThread shared mine)
    (ran : exec perThread shared thread mine input = some (after, later)) :
    Point perThread after later ∧ after.counter + mine.written perThread = shared.counter + later.written perThread ∧
      ((mine.inside ∨ shared.lockFlag = 0) ∧ (later.inside ∨ after.lockFlag = 0) ∨
        ¬ mine.inside ∧ ¬ later.inside ∧ after = shared) := by
  cases mine with
  | acquiring i =>
    simp only [exec] at ran
    split_ifs at ran with more free
    · cases ran
      exact ⟨⟨more, rfl⟩, rfl, .inl ⟨.inr free, .inl trivial⟩⟩
    · cases ran
      exact ⟨point, rfl, .inr ⟨id, id, rfl⟩⟩
    · cases ran
      have last : i = perThread := point.antisymm (Nat.le_of_not_lt more)
      exact ⟨trivial, congrArg _ last, .inr ⟨id, id, rfl⟩⟩
  | reading i =>
    cases ran
    exact ⟨⟨point.1, point.2, rfl⟩, rfl, .inl ⟨.inl trivial, .inl trivial⟩⟩
  | writing i value =>
    cases ran
    obtain ⟨more, held, rfl⟩ := point
    exact ⟨⟨more, held⟩, Nat.add_right_comm .., .inl ⟨.inl trivial, .inl trivial⟩⟩
  | releasing i =>
    cases ran
    exact ⟨point.1, rfl, .inl ⟨.inl trivial, .inr rfl⟩⟩
  | ended => cases ran

variable [Fintype τ] {pool next : Pool τ Shared Local}

/-- While a thread is inside or the lock is free, all others are outside. -/
theorem Locked.others (locked : Locked perThread pool) {t : τ}
    (alone : (pool.threads t).inside ∨ pool.shared.lockFlag = 0) {u : τ} (other : u ≠ t) : ¬ (pool.threads u).inside := by
  intro inside
  rcases alone with mine | free
  · exact other (locked.exclusive u t inside mine)
  · have held := (locked.point u).flag inside
    rw [free] at held
    cases held

variable [DecidableEq τ]

theorem Locked.step {label : τ × Unit} (locked : Locked perThread pool)
    (stepped : step τ perThread pool label = some next) : Locked perThread next := by
  obtain ⟨shared, mine, ran, rfl⟩ := Pool.step_eq_some.mp stepped
  obtain ⟨point, count, cases⟩ := exec_cases (locked.point label.1) ran
  have sum := Pool.sum_update (Local.written perThread) pool.threads label.1 mine
  have counter : shared.counter = ∑ t, (Function.update pool.threads label.1 mine t).written perThread := by
    have before := locked.counter
    omega
  have own : Function.update pool.threads label.1 mine label.1 = mine := Function.update_self ..
  have apart {u : τ} (other : u ≠ label.1) : Function.update pool.threads label.1 mine u = pool.threads u :=
    Function.update_of_ne other ..
  rcases cases with ⟨alone, leaves⟩ | ⟨outside, outside', rfl⟩
  · have others {u : τ} (other : u ≠ label.1) : ¬ (pool.threads u).inside := locked.others alone other
    have only {u : τ} (inside : (Function.update pool.threads label.1 mine u).inside) : u = label.1 := by
      by_contra other
      exact others other (apart other ▸ inside)
    refine ⟨fun t u first second => (only first).trans (only second).symm, ?_, fun t => ?_, counter⟩
    · refine leaves.symm.imp_right fun inside => ⟨label.1, ?_⟩
      dsimp only
      rw [own]
      exact inside
    · by_cases same : t = label.1
      · subst same
        dsimp only
        rw [own]
        exact point
      · dsimp only
        rw [apart same]
        exact (locked.point t).outside (others same)
  · have kept {u : τ} : (Function.update pool.threads label.1 mine u).inside ↔ (pool.threads u).inside := by
      by_cases same : u = label.1
      · subst same
        rw [own]
        exact ⟨fun inside => absurd inside outside', fun inside => absurd inside outside⟩
      · rw [apart same]
    refine ⟨fun t u first second => locked.exclusive t u (kept.mp first) (kept.mp second), ?_, fun t => ?_, counter⟩
    · exact locked.flag.imp_right fun ⟨t, inside⟩ => ⟨t, kept.mpr inside⟩
    · by_cases same : t = label.1
      · subst same
        dsimp only
        rw [own]
        exact point
      · dsimp only
        rw [apart same]
        exact locked.point t

omit [DecidableEq τ] in
/-- A thread that has not ended goes on, if it is not one that waits while another is inside. -/
theorem Locked.goes (locked : Locked perThread pool) : (∀ t, pool.threads t = .ended) ∨ ∃ t shared mine,
    exec perThread pool.shared t (pool.threads t) () = some (shared, mine) ∧ mine ≠ pool.threads t := by
  by_cases ended : ∀ t, pool.threads t = .ended
  · exact .inl ended
  right
  obtain ⟨t, running⟩ := not_forall.mp ended
  rcases locked.flag with free | ⟨u, inside⟩
  · cases here : pool.threads t with
    | acquiring i =>
      by_cases more : i < perThread
      · exact ⟨t, _, _, by rw [here, exec, if_pos more, if_pos free], by simp [here]⟩
      · exact ⟨t, _, _, by rw [here, exec, if_neg more], by simp [here]⟩
    | ended => exact absurd here running
    | reading i | writing i value | releasing i =>
      have held := (locked.point t).flag (by rw [here]; trivial)
      rw [free] at held
      cases held
  · cases here : pool.threads u with
    | acquiring i | ended => simp [here, Local.inside] at inside
    | reading i | writing i value | releasing i => exact ⟨u, _, _, by rw [here, exec], by simp [here]⟩

/-- In every interleaving at most one thread is between taking the lock and giving it back, some thread can go on until all
have ended, and then every increment is in the counter and the lock is free. -/
theorem spinlock_counts (threadCount perThread : ℕ) (labels : List (Fin threadCount × Unit))
    (pool : Pool (Fin threadCount) Shared Local)
    (run : Replay.replay (step (Fin threadCount) perThread) (start (Fin threadCount)) labels = some pool) :
    (∀ t u, (pool.threads t).inside → (pool.threads u).inside → t = u) ∧
      pool.shared.counter ≤ threadCount * perThread ∧
      ((∀ t, pool.threads t = .ended) ∨ ∃ t shared mine,
        exec perThread pool.shared t (pool.threads t) () = some (shared, mine) ∧ mine ≠ pool.threads t) ∧
      ((∀ t, pool.threads t = .ended) → pool.shared = ⟨0, threadCount * perThread⟩) := by
  have locked : Locked perThread pool :=
    Replay.invariant_of_step (Locked perThread) (fun _ _ _ locked stepped => locked.step stepped)
      (locked_start (Fin threadCount) perThread) run
  refine ⟨locked.exclusive, ?_, locked.goes, fun ended => ?_⟩
  · rw [locked.counter]
    refine (Finset.sum_le_sum fun t _ => (locked.point t).written_le).trans_eq ?_
    simp
  · have counter : pool.shared.counter = threadCount * perThread := by
      rw [locked.counter]
      refine (Finset.sum_const_nat fun t _ => ?_).trans (by rw [Finset.card_univ, Fintype.card_fin])
      rw [ended t, Local.written]
    have free : pool.shared.lockFlag = 0 := locked.flag.resolve_right fun ⟨t, inside⟩ => by
      simp [ended t, Local.inside] at inside
    cases shared : pool.shared with
    | mk lockFlag value =>
      rw [shared] at counter free
      rw [← counter, ← free]

/-- Two threads increment once each, and the second has to wait. -/
theorem spinlock_counts_two :
    let pool := (Replay.replay (step (Fin 2) 1) (start (Fin 2))
      ([0, 1, 0, 1, 0, 0, 1, 1, 1, 1, 0, 1].map fun t => (t, ()))).get (by decide)
    (∀ t u, (pool.threads t).inside → (pool.threads u).inside → t = u) ∧
      pool.shared.counter ≤ 2 * 1 ∧
      ((∀ t, pool.threads t = .ended) ∨ ∃ t shared mine,
        exec 1 pool.shared t (pool.threads t) () = some (shared, mine) ∧ mine ≠ pool.threads t) ∧
      ((∀ t, pool.threads t = .ended) → pool.shared = ⟨0, 2 * 1⟩) :=
  spinlock_counts 2 1 _ _ (Option.some_get _).symm

end LockFreeCore.Spinlock
