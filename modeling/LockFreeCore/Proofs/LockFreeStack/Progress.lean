import LockFreeCore.Proofs.LockFreeStack
import LockFreeCore.ToMathlib.Progress

/-! # The stack is lock-free

A compare-and-swap fails only when the head is not the one that was read, so when another thread has swapped
it since. A call that reads the head after the last swap returns four steps later, and it is late by a whole
round for each swap at most.
-/

namespace LockFreeCore.LockFreeStack

variable {τ ν : Type*} [DecidableEq τ] [DecidableEq ν]

/-- The steps a thread still takes inside its call when nobody swaps the head meanwhile: with a head, or a
half of one, that is out of date the swap fails and a round of four follows. -/
def rank (head : Head ν) : Local ν → ℕ
  | .idle => 0
  | .pushLoad _ | .popLoad => 3
  | .pushLoadTag _ ptr | .popLoadTag ptr => if head.ptr = ptr then 2 else 6
  | .pushLoadPtr _ tag | .popLoadPtr tag => if head.tag = tag then 2 else 6
  | .pushLink _ oldHead => if head = oldHead then 1 else 5
  | .popLoadNext node tag => if head = ⟨some node, tag⟩ then 1 else 5
  | .pushCas _ oldHead => if head = oldHead then 0 else 4
  | .popCas node tag _ => if head = ⟨some node, tag⟩ then 0 else 4

variable {stack after : Stack τ ν} {thread : τ} {mine left : Local ν} {input : Input τ ν}

omit [DecidableEq τ] in
theorem rank_le (head : Head ν) (mine : Local ν) : rank head mine ≤ 6 := by
  cases mine with
  | idle | pushLoad | popLoad => simp [rank]
  | _ => simp only [rank]; split_ifs <;> decide

omit [DecidableEq τ] in
/-- A swap of the head puts a call back by a round. -/
theorem rank_le_add (head other : Head ν) (mine : Local ν) : rank other mine ≤ rank head mine + 4 := by
  cases mine with
  | idle | pushLoad | popLoad => exact Nat.le_add_right ..
  | _ => simp only [rank]; split_ifs <;> omega

omit [DecidableEq ν] in
theorem Head.eq_mk_iff {head : Head ν} {ptr : Option ν} {tag : BitVec 64} :
    head = ⟨ptr, tag⟩ ↔ head.ptr = ptr ∧ head.tag = tag := by
  cases head
  simp

/-- A compare-and-swap that fails has read another head. -/
theorem exec_lost (ran : exec stack thread mine input = some (after, left)) :
    (∀ node oldHead, mine = .pushCas node oldHead → left = .pushLoad node → stack.m_head ≠ oldHead) ∧
      ∀ node tag next, mine = .popCas node tag next → left = .popLoad → stack.m_head ≠ ⟨some node, tag⟩ := by
  constructor
  · rintro node oldHead rfl rfl same
    simp only [exec, push, Stack.cas, if_pos same, Option.orElse] at ran
    cases ran
  · rintro node tag next rfl rfl same
    simp only [exec, push, pop, Stack.cas, if_pos same, Option.orElse] at ran
    cases ran

omit [DecidableEq τ] in
/-- A step swaps the head and returns, or leaves the head alone. -/
theorem Took.head (took : Took stack thread mine after left) :
    (left = .idle ∧ swaps after.log = swaps stack.log + 1) ∨
      (after.m_head = stack.m_head ∧ swaps after.log = swaps stack.log) := by
  cases took with
  | pushSwap | popSwap => exact .inl ⟨rfl, rfl⟩
  | _ => exact .inr ⟨rfl, rfl⟩

/-- A step that does not end the call brings it nearer to its end. -/
theorem rank_lt (ran : exec stack thread mine input = some (after, left)) (before : mine ≠ .idle) (goes : left ≠ .idle) :
    rank stack.m_head left < rank stack.m_head mine := by
  have lost := exec_lost ran
  cases exec_took ran with
  | callPush | callPop | reuse | give => exact absurd rfl before
  | pushSwap | popSwap | popNullTag | popNullPtr => exact absurd rfl goes
  | pushLost node oldHead => simp [rank, lost.1 node oldHead rfl rfl]
  | popLost node tag next => simp [rank, lost.2 node tag next rfl rfl]
  | pushPtrTag node ptr => simp only [rank, Head.eq_mk_iff]; split_ifs <;> simp_all
  | pushTagPtr node tag => simp only [rank, Head.eq_mk_iff]; split_ifs <;> simp_all
  | popPtrTag node => simp only [rank, Head.eq_mk_iff]; split_ifs <;> simp_all
  | popTagPtr node tag top => simp only [rank, Head.eq_mk_iff]; split_ifs <;> simp_all
  | pushPtr | pushTag | popPtr | popTag => simp [rank]
  | pushLink | popNext => simp only [rank]; split_ifs <;> decide

/-- An access of `push` alone is a step of the stack, and so is one of `pop`. -/
theorem exec_of_push (ran : push stack thread mine input = some (after, left)) :
    mine ≠ .idle ∧ exec stack thread mine input = some (after, left) := by
  unfold exec
  split
  · cases input <;> cases ran
  · exact ⟨fun idle => by simp_all, by rw [ran]; rfl⟩

theorem exec_of_pop (ran : pop stack thread mine input = some (after, left)) :
    mine ≠ .idle ∧ exec stack thread mine input = some (after, left) := by
  have apart : push stack thread mine input = none := by
    cases mine <;> first | rfl | (cases input <;> cases ran)
  unfold exec
  split
  · cases input <;> cases ran
  · exact ⟨fun idle => by simp_all, by rw [apart, Option.orElse_none, ran]⟩

omit [DecidableEq τ] in
/-- What a step does to the rank of any thread is paid by the swaps. -/
theorem Took.delays (took : Took stack thread mine after left) (other : Local ν) :
    rank after.m_head other ≤ rank stack.m_head other + 4 * (swaps after.log - swaps stack.log) := by
  rcases took.head with ⟨-, swapped⟩ | ⟨same, -⟩
  · have := rank_le_add stack.m_head after.m_head other
    omega
  · rw [same]
    exact Nat.le_add_right ..

/-- From any state on, while a call of a thread does not return the thread takes at most six steps, and four
more for each swap by which another call returns. While no call returns at all, the threads inside calls take
at most six steps each. -/
theorem lock_free [Fintype τ] (pool final : Pool τ (Stack τ ν) (Local ν)) (labels : List (τ × Input τ ν))
    (run : Replay.replay step pool labels = some final) :
    (∀ t, Replay.Along step (fun pool label => label.1 = t → Pool.Inside exec .idle pool label) pool labels →
      labels.countP (·.1 = t) ≤ 6 + 4 * (swaps final.shared.log - swaps pool.shared.log)) ∧
      (Replay.Along step (Pool.Inside exec .idle) pool labels → labels.length ≤ 6 * Fintype.card τ) := by
  constructor
  · intro t inside
    have bound := Pool.steps_le exec (fun stack : Stack τ ν => rank stack.m_head)
      (fun stack => swaps stack.log) 4
      (fun stack t mine input after left ran => ?_) (fun stack t mine input after left ran => (exec_took ran).delays)
      (fun stack t mine input after left ran before goes => ?_) run t inside
    · have start := rank_le pool.shared.m_head (pool.threads t)
      omega
    · rcases (exec_took ran).head with ⟨-, swapped⟩ | ⟨-, same⟩
      · exact swapped.symm ▸ Nat.le_succ _
      · exact same.ge
    · refine Nat.lt_of_lt_of_le ?_ (Nat.le_add_right ..)
      obtain ⟨same, -⟩ := (exec_took ran).head.resolve_left fun ended => goes ended.1
      rw [same]
      exact rank_lt ran before goes
  · intro inside
    have bound := Pool.length_le exec (fun stack : Stack τ ν => rank stack.m_head)
      (fun stack t mine input after left ran before goes => ?_) run inside
    · have start : ∑ t, rank pool.shared.m_head (pool.threads t) ≤ Fintype.card τ * 6 :=
        (Finset.sum_le_card_nsmul _ _ 6 fun t _ => rank_le _ _)
      omega
    · obtain ⟨same, -⟩ := (exec_took ran).head.resolve_left fun ended => goes ended.1
      refine ⟨0, fun other => same ▸ le_refl _, ?_⟩
      rw [same, Nat.zero_mul]
      exact rank_lt ran before goes

/-- Two threads inside `push`: the second swaps the head between the read and the swap of the first, which fails. -/
theorem lock_free_two :
    let pool : Pool (Fin 2) (Stack (Fin 2) (Fin 2)) (Local (Fin 2)) :=
      ⟨⟨⟨none, 0⟩, fun _ => none, some, []⟩, fun t => .pushLoad t⟩
    let labels : List (Fin 2 × Input (Fin 2) (Fin 2)) := [0, 0, 0, 1, 1, 1, 1, 0].map fun t => (t, .ptrFirst)
    ∃ final, Replay.replay step pool labels = some final ∧
      (∀ t, Replay.Along step (fun pool label => label.1 = t → Pool.Inside exec .idle pool label) pool labels →
        labels.countP (·.1 = t) ≤ 6 + 4 * (swaps final.shared.log - swaps pool.shared.log)) ∧
        (Replay.Along step (Pool.Inside exec .idle) pool labels → labels.length ≤ 6 * Fintype.card (Fin 2)) := by
  intro pool labels
  obtain ⟨final, run⟩ : ∃ final, Replay.replay step pool labels = some final :=
    Option.isSome_iff_exists.mp (by decide)
  exact ⟨final, run, lock_free pool final labels run⟩

end LockFreeCore.LockFreeStack
