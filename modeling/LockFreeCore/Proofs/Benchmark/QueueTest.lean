import LockFreeCore.Model.Benchmark
import LockFreeCore.Proofs.LockFreeQueue.Returns
import Mathlib.Algebra.Order.BigOperators.Group.Finset
import Mathlib.Data.Fintype.Option
import Mathlib.Data.Fintype.Sum

/-! # The test of the queue can only succeed

Seen from the queue the threads of the test are threads that call it, so what holds of every run of the queue holds
here. A consumer leaves after a `pop` that found nothing while no `push` was left, and by then every value is claimed.
-/

namespace LockFreeCore.QueueTest

open LockFreeQueue (Event Queue pushes mem_pushes)

variable {P C n : ℕ}

/-- Where a thread is inside the queue. -/
def Local.call : Local → LockFreeQueue.Local ℕ
  | .pushing _ call | .popping _ call => call
  | _ => .idle

/-- The test as the queue sees it. -/
def view (pool : Pool (Option (Worker P C)) (Test P C) Local) :
    Pool (Worker P C) (Queue (Worker P C) ℕ) (LockFreeQueue.Local ℕ) :=
  ⟨pool.shared.queue, fun w => (pool.threads (some w)).call⟩

/-- What a thread knows at its program point: a producer has stored the values before `i` and is about to push that
one or inside the call. -/
def Works (n : ℕ) (test : Test P C) : Option (Worker P C) → Local → Prop
  | some (.inl p), .pushing i call =>
      i ≤ n ∧ (call = .idle ∨ i < n ∧ call.pushed = some (p * n + i)) ∧ test.ended (.inl p) = false ∧
        (pushes (.inl p) test.queue.log).map Prod.snd = ((List.range i).map fun i => p * n + i).reverse
  | some (.inl p), .ended =>
      (pushes (.inl p) test.queue.log).map Prod.snd = ((List.range n).map fun i => p * n + i).reverse
  | some (.inr c), .popping again call =>
      (call = .idle ∨ call.inPop = true) ∧ (again = true → test.producersDone = true) ∧ test.ended (.inr c) = false
  | some (.inr c), .asking | some (.inr c), .counting _ | some (.inr c), .counted => test.ended (.inr c) = false
  | some (.inr _), .ended => test.producersDone = true
  | none, .joinProducers => True
  | none, .joinConsumers => test.producersDone = true
  | none, .verdict ok => ok = true
  | _, _ => False

/-! ## One step -/

variable {test after : Test P C} {thread : Option (Worker P C)} {mine later : Local}

/-- What a step of a thread does, and what it adds to the log of the queue. -/
inductive Executed (n : ℕ) (test : Test P C) : Option (Worker P C) → Local → Test P C → Local → Prop
  | callPush {p : Fin P} {i : ℕ} (more : i < n) :
      Executed n test (some (.inl p)) (.pushing i .idle) test (.pushing i (.pushLoadPos (p * n + i)))
  | push {p : Fin P} {i : ℕ} {queue : Queue (Worker P C) ℕ} {before call : LockFreeQueue.Local ℕ}
      (ran : LockFreeQueue.exec test.queue (.inl p) before .go = some (queue, call)) (more : i < n)
      (inside : call.pushed = some (p * n + i))
      (log : queue.log = test.queue.log ∨ ∃ q, queue.log = .pushClaimed (.inl p) q (p * n + i) :: test.queue.log) :
      Executed n test (some (.inl p)) (.pushing i before) { test with queue } (.pushing i call)
  | pushFull {p : Fin P} {i : ℕ} {queue : Queue (Worker P C) ℕ} {before : LockFreeQueue.Local ℕ}
      (ran : LockFreeQueue.exec test.queue (.inl p) before .go = some (queue, .idle))
      (log : queue.log = .pushFull (.inl p) (p * n + i) :: test.queue.log) :
      Executed n test (some (.inl p)) (.pushing i before) { test with queue } (.pushing i .idle)
  | pushed {p : Fin P} {i q : ℕ} {queue : Queue (Worker P C) ℕ} {before : LockFreeQueue.Local ℕ}
      (ran : LockFreeQueue.exec test.queue (.inl p) before .go = some (queue, .idle)) (more : i < n)
      (log : queue.log = .pushReturned (.inl p) q (p * n + i) :: test.queue.log) :
      Executed n test (some (.inl p)) (.pushing i before) { test with queue } (.pushing (i + 1) .idle)
  | producerEnds {p : Fin P} {i : ℕ} (last : n ≤ i) :
      Executed n test (some (.inl p)) (.pushing i .idle)
        { test with ended := Function.update test.ended (.inl p) true } .ended
  | callPop {c : Fin C} {again : Bool} :
      Executed n test (some (.inr c)) (.popping again .idle) test (.popping again .popLoadPos)
  | pop {c : Fin C} {again : Bool} {queue : Queue (Worker P C) ℕ} {before call : LockFreeQueue.Local ℕ}
      (ran : LockFreeQueue.exec test.queue (.inr c) before .go = some (queue, call)) (inside : call.inPop = true)
      (log : queue.log = test.queue.log ∨ ∃ q, queue.log = .popClaimed (.inr c) q :: test.queue.log) :
      Executed n test (some (.inr c)) (.popping again before) { test with queue } (.popping again call)
  | popped {c : Fin C} {again : Bool} {q value : ℕ} {queue : Queue (Worker P C) ℕ} {before : LockFreeQueue.Local ℕ}
      (ran : LockFreeQueue.exec test.queue (.inr c) before .go = some (queue, .idle))
      (log : queue.log = .popReturned (.inr c) q value :: test.queue.log) :
      Executed n test (some (.inr c)) (.popping again before) { test with queue } (.counting value)
  | popEmpty {c : Fin C} {pos : ℕ} (behind : (test.queue.cell pos).sequence ≤ pos)
      (ran : LockFreeQueue.exec test.queue (.inr c) (.popLoadSeq pos) .go =
        some (test.queue.record (.popEmpty (.inr c)), .idle)) :
      Executed n test (some (.inr c)) (.popping false (.popLoadSeq pos))
        { test with queue := test.queue.record (.popEmpty (.inr c)) } .asking
  | consumerEnds {c : Fin C} {pos : ℕ} (behind : (test.queue.cell pos).sequence ≤ pos)
      (ran : LockFreeQueue.exec test.queue (.inr c) (.popLoadSeq pos) .go =
        some (test.queue.record (.popEmpty (.inr c)), .idle)) :
      Executed n test (some (.inr c)) (.popping true (.popLoadSeq pos))
        { test with
          queue := test.queue.record (.popEmpty (.inr c)), ended := Function.update test.ended (.inr c) true } .ended
  | asks {c : Fin C} : Executed n test (some (.inr c)) .asking test (.popping test.producersDone .idle)
  | counts {c : Fin C} {value : ℕ} (bound : value < P * n) :
      Executed n test (some (.inr c)) (.counting value)
        { test with seen := Function.update test.seen value (test.seen value + 1) } .counted
  | counted {c : Fin C} :
      Executed n test (some (.inr c)) .counted { test with poppedCount := test.poppedCount + 1 } (.popping false .idle)
  | producersJoined (all : ∀ p, test.ended (.inl p) = true) :
      Executed n test none .joinProducers { test with producersDone := true } .joinConsumers
  | consumersJoined (all : ∀ c, test.ended (.inr c) = true) :
      Executed n test none .joinConsumers test (.verdict (test.poppedCount = P * n ∧ ∀ i < P * n, test.seen i = 1))

theorem produce_eq_some {p : Fin P} {i : ℕ} {call : LockFreeQueue.Local ℕ}
    (works : Works n test (some (.inl p)) (.pushing i call)) (ran : produce n test p i call = some (after, later)) :
    Executed n test (some (.inl p)) (.pushing i call) after later := by
  obtain ⟨-, inside, -⟩ := works
  unfold produce at ran
  split at ran
  · split_ifs at ran with more
    · cases ran
      exact .callPush more
    · cases ran
      exact .producerEnds (Nat.le_of_not_lt more)
  · rename_i going
    obtain ⟨more, inside⟩ := inside.resolve_left going
    obtain ⟨⟨queue, call⟩, inner, same⟩ := Option.map_eq_some_iff.mp ran
    dsimp only at same
    rcases (LockFreeQueue.exec_took inner).of_pushed inside with ⟨inside, log⟩ | ⟨rfl, log | ⟨q, log⟩⟩
    · have going : call ≠ .idle := fun absurd => by simp [absurd, LockFreeQueue.Local.pushed] at inside
      rw [if_neg fun absurd => going absurd.1] at same
      cases same
      exact .push inner more inside log
    · have full : QueueTest.pushed queue = false := by rw [QueueTest.pushed, log]; rfl
      rw [full, if_neg (by simp)] at same
      cases same
      exact .pushFull inner log
    · have stored : QueueTest.pushed queue = true := by rw [QueueTest.pushed, log]; rfl
      rw [stored, if_pos (by simp)] at same
      cases same
      exact .pushed inner more log

theorem consume_eq_some {c : Fin C} {again : Bool} {call : LockFreeQueue.Local ℕ}
    (works : Works n test (some (.inr c)) (.popping again call)) (ran : consume test c again call = some (after, later)) :
    Executed n test (some (.inr c)) (.popping again call) after later := by
  obtain ⟨inside, -⟩ := works
  unfold consume at ran
  split at ran
  · cases ran
    exact .callPop
  · rename_i going
    have inside := inside.resolve_left going
    obtain ⟨⟨queue, call⟩, inner, same⟩ := Option.map_eq_some_iff.mp ran
    dsimp only at same
    rcases ((LockFreeQueue.exec_took inner).of_inPop inside).2 with
      ⟨inside, log⟩ | ⟨rfl, ⟨pos, rfl, behind, rfl⟩ | ⟨q, value, log⟩⟩
    · have going : call ≠ .idle := fun absurd => by simp [absurd, LockFreeQueue.Local.inPop] at inside
      rw [if_neg going] at same
      cases same
      exact .pop inner inside log
    · have nothing : QueueTest.popped (test.queue.record (.popEmpty (.inr c))) = none := rfl
      rw [if_pos rfl, nothing] at same
      cases again with
      | false =>
        cases same
        exact .popEmpty behind inner
      | true =>
        cases same
        exact .consumerEnds behind inner
    · have got : QueueTest.popped queue = some value := by rw [QueueTest.popped, log]; rfl
      rw [if_pos rfl, got] at same
      cases same
      exact .popped inner log

theorem exec_eq_some {input : Unit} (works : Works n test thread mine)
    (ran : exec n test thread mine input = some (after, later)) : Executed n test thread mine after later := by
  unfold exec at ran
  dsimp only at ran
  split at ran
  · exact produce_eq_some works ran
  · exact consume_eq_some works ran
  · cases ran
    exact .asks
  · split_ifs at ran with bound
    cases ran
    exact .counts bound
  · cases ran
    exact .counted
  · split_ifs at ran with all
    cases ran
    exact .producersJoined all
  · split_ifs at ran with all
    cases ran
    exact .consumersJoined all
  · cases ran

/-- Its own thread stays where it knows what it needs. -/
theorem Executed.works (executed : Executed n test thread mine after later) (works : Works n test thread mine)
    (verdict : ∀ ok, later = .verdict ok → ok = true) : Works n after thread later := by
  cases executed with
  | callPush more => exact ⟨works.1, .inr ⟨more, rfl⟩, works.2.2⟩
  | @push p i queue before call ran more inside log =>
    obtain ⟨bound, -, running, stored⟩ := works
    refine ⟨bound, .inr ⟨more, inside⟩, running, ?_⟩
    rcases log with same | ⟨q, claimed⟩
    · rwa [same]
    · rw [claimed]
      exact stored
  | pushFull ran log =>
    obtain ⟨bound, -, running, stored⟩ := works
    refine ⟨bound, .inl rfl, running, ?_⟩
    rw [log]
    exact stored
  | @pushed p i q queue before ran more log =>
    obtain ⟨bound, -, running, stored⟩ := works
    refine ⟨more, .inl rfl, running, ?_⟩
    have first : pushes (.inl p) queue.log = (q, p * n + i) :: pushes (.inl p) test.queue.log := by
      rw [log]
      simp [pushes]
    rw [first, List.map_cons, stored, List.range_succ, List.map_append, List.reverse_append]
    rfl
  | producerEnds last =>
    obtain ⟨bound, -, running, stored⟩ := works
    obtain rfl := bound.antisymm last
    exact stored
  | callPop => exact ⟨.inr rfl, works.2⟩
  | pop ran inside log => exact ⟨.inr inside, works.2⟩
  | popped ran log => exact works.2.2
  | popEmpty behind ran => exact works.2.2
  | consumerEnds behind ran => exact works.2.1 rfl
  | asks => exact ⟨.inl rfl, id, works⟩
  | counts bound => exact works
  | counted => exact ⟨.inl rfl, fun absurd => (by cases absurd), works⟩
  | producersJoined all => exact rfl
  | consumersJoined all => exact verdict _ rfl

/-- What the other threads see of a step. -/
structure Moved (test after : Test P C) (thread : Option (Worker P C)) : Prop where
  pushes : ∀ w, (∀ p, w = .inl p → some w ≠ thread) → pushes w after.queue.log = pushes w test.queue.log
  ended : ∀ w, some w ≠ thread → after.ended w = test.ended w
  done : test.producersDone = true → after.producersDone = true

theorem Executed.moved (executed : Executed n test thread mine after later) : Moved test after thread := by
  have ended (w w' : Worker P C) (other : some w' ≠ some w) : Function.update test.ended w true w' = test.ended w' :=
    Function.update_of_ne (fun same => other (congrArg some same)) ..
  cases executed with
  | push ran more inside log =>
    refine ⟨fun p other => ?_, fun _ _ => rfl, id⟩
    rcases log with same | ⟨q, claimed⟩
    · exact congrArg _ same
    · exact (congrArg (LockFreeQueue.pushes _) claimed).trans rfl
  | pushFull ran log => exact ⟨fun p other => (congrArg (LockFreeQueue.pushes _) log).trans rfl, fun _ _ => rfl, id⟩
  | pushed ran more log =>
    refine ⟨fun p other => (congrArg (LockFreeQueue.pushes _) log).trans ?_, fun _ _ => rfl, id⟩
    rw [LockFreeQueue.pushes, List.filterMap_cons]
    dsimp only
    rw [if_neg fun same => other _ same.symm (congrArg some same.symm)]
    rfl
  | pop ran inside log =>
    refine ⟨fun p other => ?_, fun _ _ => rfl, id⟩
    rcases log with same | ⟨q, claimed⟩
    · exact congrArg _ same
    · exact (congrArg (LockFreeQueue.pushes _) claimed).trans rfl
  | popped ran log => exact ⟨fun p other => (congrArg (LockFreeQueue.pushes _) log).trans rfl, fun _ _ => rfl, id⟩
  | popEmpty behind ran => exact ⟨fun _ _ => rfl, fun _ _ => rfl, id⟩
  | consumerEnds behind ran => exact ⟨fun _ _ => rfl, ended _, id⟩
  | producerEnds last => exact ⟨fun _ _ => rfl, ended _, id⟩
  | producersJoined all => exact ⟨fun _ _ => rfl, fun _ _ => rfl, fun _ => rfl⟩
  | _ => exact ⟨fun _ _ => rfl, fun _ _ => rfl, id⟩

/-- What a thread knows survives the steps of the others. -/
theorem Works.stable {other : Option (Worker P C)} {theirs : Local} (works : Works n test other theirs)
    (apart : other ≠ thread) (moved : Moved test after thread) : Works n after other theirs := by
  match other, theirs with
  | some (.inl p), .pushing i call =>
    obtain ⟨bound, inside, running, stored⟩ := works
    exact ⟨bound, inside, (moved.ended _ apart).trans running, moved.pushes _ (fun _ _ => apart) ▸ stored⟩
  | some (.inl p), .ended => exact (congrArg _ (moved.pushes _ fun _ _ => apart)).trans works
  | some (.inr c), .popping again call =>
    exact ⟨works.1, fun seen => moved.done (works.2.1 seen), (moved.ended _ apart).trans works.2.2⟩
  | some (.inr c), .asking => exact (moved.ended _ apart).trans works
  | some (.inr c), .counting _ => exact (moved.ended _ apart).trans works
  | some (.inr c), .counted => exact (moved.ended _ apart).trans works
  | some (.inr c), .ended => exact moved.done works
  | none, .joinProducers => exact trivial
  | none, .joinConsumers => exact moved.done works
  | none, .verdict ok => exact works

/-! ## What was counted -/

/-- The tickets and values of the pops that have returned one, newest first. -/
def delivered (log : List (Event (Worker P C) ℕ)) : List (ℕ × ℕ) :=
  log.filterMap fun
    | .popReturned _ q value => some (q, value)
    | _ => none

theorem mem_delivered {log : List (Event (Worker P C) ℕ)} {q value : ℕ} :
    (q, value) ∈ delivered log ↔ ∃ w, .popReturned w q value ∈ log := by
  rw [delivered, List.mem_filterMap]
  constructor
  · rintro ⟨event, logged, here⟩
    cases event <;> simp only [reduceCtorEq, Option.some.injEq, Prod.mk.injEq] at here
    obtain ⟨rfl, rfl⟩ := here
    exact ⟨_, logged⟩
  · exact fun ⟨w, logged⟩ => ⟨_, logged, rfl⟩

theorem map_fst_delivered (log : List (Event (Worker P C) ℕ)) :
    (delivered log).map Prod.fst = log.filterMap Event.poppedTicket := by
  rw [delivered, List.map_filterMap]
  refine List.filterMap_congr fun event _ => ?_
  cases event <;> rfl

/-- The values that have come out of the queue, and are counted or about to be. -/
def values (log : List (Event (Worker P C) ℕ)) : List ℕ := (delivered log).map Prod.snd

/-- Whether a thread is about to count this value. -/
def Local.holding (value : ℕ) (mine : Local) : ℕ := if mine = .counting value then 1 else 0

/-- Whether a value of a thread is missing in `poppedCount`. -/
def Local.uncounted : Local → ℕ
  | .counting _ | .counted => 1
  | _ => 0

/-- What comes out is counted, and nothing else. -/
structure Accounts (test after : Test P C) (mine later : Local) : Prop where
  seen : ∀ value, after.seen value + later.holding value + (values test.queue.log).count value =
    test.seen value + mine.holding value + (values after.queue.log).count value
  poppedCount : after.poppedCount + later.uncounted + (values test.queue.log).length =
    test.poppedCount + mine.uncounted + (values after.queue.log).length

theorem Executed.accounts (executed : Executed n test thread mine after later) : Accounts test after mine later := by
  cases executed with
  | push ran more inside log | pop ran inside log =>
    rcases log with log | ⟨q, log⟩
    all_goals exact ⟨fun value => by dsimp only; rw [log]; rfl, by dsimp only; rw [log]; rfl⟩
  | pushFull ran log | pushed ran more log => exact ⟨fun value => by dsimp only; rw [log]; rfl, by dsimp only; rw [log]; rfl⟩
  | @popped c again q value queue before ran log =>
    have more : values queue.log = value :: values test.queue.log := by rw [log]; rfl
    refine ⟨fun other => ?_, ?_⟩
    · dsimp only
      rw [more, List.count_cons]
      simp only [Local.holding, Local.counting.injEq, beq_iff_eq, reduceCtorEq, if_false]
      omega
    · dsimp only
      rw [more, List.length_cons]
      exact Nat.add_right_comm ..
  | @counts c value bound =>
    refine ⟨fun other => ?_, rfl⟩
    simp only [Local.holding, Local.counting.injEq, reduceCtorEq, if_false, Function.update_apply, eq_comm (a := value)]
    split_ifs with same
    · rw [same]
    · rfl
  | counted => exact ⟨fun _ => rfl, rfl⟩
  | _ => exact ⟨fun _ => rfl, rfl⟩

/-! ## Runs -/

variable {pool : Pool (Option (Worker P C)) (Test P C) Local}

/-- A step inside the queue is one of the queue. -/
theorem view_moves {w : Worker P C} {before : LockFreeQueue.Local ℕ} (input : LockFreeQueue.Call ℕ)
    (here : pool.threads (some w) = mine) (inside : mine.call = before)
    (ran : LockFreeQueue.exec pool.shared.queue w before input = some (after.queue, later.call)) :
    ∃ labels, Replay.replay LockFreeQueue.step (view pool) labels =
      some (view ⟨after, Function.update pool.threads (some w) later⟩) := by
  have own : (view pool).threads w = before := (congrArg Local.call here).trans inside
  have stepped : LockFreeQueue.step (view pool) (w, input) =
      some ⟨after.queue, Function.update (view pool).threads w later.call⟩ :=
    Pool.step_eq_some.mpr ⟨after.queue, later.call, own.symm ▸ ran, rfl⟩
  refine ⟨[(w, input)], ?_⟩
  rw [Replay.replay_of_step stepped, Replay.replay_nil, view]
  refine congrArg (fun threads => some (Pool.mk after.queue threads)) (funext fun u => ?_)
  by_cases same : u = w
  · subst same
    simp
  · dsimp only
    rw [Function.update_of_ne same, Function.update_of_ne fun absurd => same (Option.some.inj absurd)]

/-- Any other step cannot be seen from the queue. -/
theorem view_rests (here : pool.threads thread = mine) (queue : after.queue = pool.shared.queue)
    (call : later.call = mine.call) :
    ∃ labels, Replay.replay LockFreeQueue.step (view pool) labels =
      some (view ⟨after, Function.update pool.threads thread later⟩) := by
  refine ⟨[], ?_⟩
  rw [Replay.replay_nil, view, view]
  dsimp only
  rw [queue]
  refine congrArg (fun threads => some (Pool.mk pool.shared.queue threads)) (funext fun u => ?_)
  by_cases same : some u = thread
  · subst same
    rw [Function.update_self, here, call]
  · rw [Function.update_of_ne same]

theorem Executed.view (executed : Executed n pool.shared thread mine after later) (here : pool.threads thread = mine) :
    ∃ labels, Replay.replay LockFreeQueue.step (view pool) labels =
      some (QueueTest.view ⟨after, Function.update pool.threads thread later⟩) := by
  cases executed with
  | callPush more => exact view_moves (.push _) here rfl rfl
  | callPop => exact view_moves .pop here rfl rfl
  | push ran more inside log => exact view_moves .go here rfl ran
  | pushFull ran log => exact view_moves .go here rfl ran
  | pushed ran more log => exact view_moves .go here rfl ran
  | pop ran inside log => exact view_moves .go here rfl ran
  | popped ran log => exact view_moves .go here rfl ran
  | popEmpty behind ran => exact view_moves .go here rfl ran
  | consumerEnds behind ran => exact view_moves .go here rfl ran
  | _ => exact view_rests here rfl rfl

/-- What holds of the test at every moment. -/
structure Going (n : ℕ) (data : ℕ → ℕ) (pool : Pool (Option (Worker P C)) (Test P C) Local) : Prop where
  viewed : ∃ labels, Replay.replay LockFreeQueue.step (LockFreeQueue.start (2 ^ 10) data) labels = some (view pool)
  works : ∀ t, Works n pool.shared t (pool.threads t)
  done : pool.shared.producersDone = true → ∀ p, pool.shared.ended (.inl p) = true
  outside : ∀ c, pushes (.inr c) pool.shared.queue.log = []
  seen : ∀ value, pool.shared.seen value + ∑ t, (pool.threads t).holding value =
    (values pool.shared.queue.log).count value
  poppedCount : pool.shared.poppedCount + ∑ t, (pool.threads t).uncounted = (values pool.shared.queue.log).length
  drained : ∀ c, pool.threads (some (.inr c)) = .ended →
    pool.shared.queue.m_enqueuePos ≤ pool.shared.queue.m_dequeuePos

theorem going_start (n : ℕ) (data : ℕ → ℕ) : Going n data (start P C data) where
  viewed := ⟨[], congrArg (fun threads => some (Pool.mk (LockFreeQueue.initial 1024 data) threads))
    (funext fun w => by rcases w with p | c <;> rfl)⟩
  works t := by
    match t with
    | some (.inl p) => exact ⟨Nat.zero_le n, .inl rfl, rfl, rfl⟩
    | some (.inr c) => exact ⟨.inl rfl, fun absurd => (by cases absurd), rfl⟩
    | none => exact trivial
  done absurd := by cases absurd
  outside _ := rfl
  seen value := by
    refine (Nat.zero_add _).trans (Finset.sum_eq_zero fun t _ => ?_)
    match t with
    | some (.inl p) | some (.inr c) | none => rfl
  poppedCount := by
    refine (Nat.zero_add _).trans (Finset.sum_eq_zero fun t _ => ?_)
    match t with
    | some (.inl p) | some (.inr c) | none => rfl
  drained c absurd := by cases absurd

/-- When all producers have ended nobody is inside a `push`. -/
theorem Works.outside_push (works : Works n test thread mine) (all : ∀ p, test.ended (.inl p) = true) :
    mine.call.inPush = false := by
  match thread, mine with
  | some (.inl p), .pushing i call =>
    have running := works.2.2.1
    rw [all p] at running
    cases running
  | some (.inl p), .popping again call => exact works.elim
  | some (.inr c), .popping again call =>
    rcases works.1 with rfl | inside
    · rfl
    · cases call <;> first | rfl | cases inside
  | some (.inr c), .pushing i call => exact works.elim
  | none, .pushing i call | none, .popping again call => exact works.elim
  | _, .asking | _, .counting _ | _, .counted | _, .ended | _, .joinProducers | _, .joinConsumers | _, .verdict _ => rfl

theorem Going.settled {data : ℕ → ℕ} (going : Going n data pool) (done : pool.shared.producersDone = true) :
    LockFreeQueue.Settled pool.shared.queue.m_enqueuePos pool.shared.queue := by
  obtain ⟨labels, run⟩ := going.viewed
  exact LockFreeQueue.settled_of_returned (LockFreeQueue.run_annotated (by decide) run) fun w =>
    (going.works (some w)).outside_push (going.done done)

/-- A consumer's step inside the queue claims no ticket of a push. -/
theorem Going.pop_drained {data : ℕ → ℕ} (going : Going n data pool) {w : Worker P C} {input : LockFreeQueue.Call ℕ}
    {queue : Queue (Worker P C) ℕ} {call : LockFreeQueue.Local ℕ} (inside : (pool.threads (some w)).call.inPop = true)
    (ran : LockFreeQueue.exec pool.shared.queue w (pool.threads (some w)).call input = some (queue, call))
    (drained : pool.shared.queue.m_enqueuePos ≤ pool.shared.queue.m_dequeuePos) :
    queue.m_enqueuePos ≤ queue.m_dequeuePos := by
  obtain ⟨labels, run⟩ := going.viewed
  have annotated := LockFreeQueue.run_annotated (by decide) run
  have took := LockFreeQueue.exec_took ran
  rw [(took.of_inPop inside).1]
  exact drained.trans (took.advance annotated.shared (annotated.threads w)).dequeuePos

/-- A consumer that finds nothing while no push is left finds every value claimed. -/
theorem Going.empty_drained {data : ℕ → ℕ} (going : Going n data pool) (done : pool.shared.producersDone = true)
    {w : Worker P C} {pos : ℕ} (here : (pool.threads (some w)).call = .popLoadSeq pos)
    (behind : (pool.shared.queue.cell pos).sequence ≤ pos) :
    pool.shared.queue.m_enqueuePos ≤ pool.shared.queue.m_dequeuePos := by
  obtain ⟨labels, run⟩ := going.viewed
  have point := ((LockFreeQueue.run_annotated (by decide) run).threads w).point
  rw [show (view pool).threads w = .popLoadSeq pos from here] at point
  have late : pool.shared.queue.m_enqueuePos ≤ pos := by
    by_contra below
    have published := going.settled done pos (Nat.lt_of_not_le below)
    omega
  exact late.trans point

/-- Once a consumer has left, every value that was pushed is claimed. -/
theorem Executed.drained {data : ℕ → ℕ} (executed : Executed n pool.shared thread mine after later)
    (here : pool.threads thread = mine) (going : Going n data pool) (c : Fin C)
    (left : Function.update pool.threads thread later (some (.inr c)) = .ended) :
    after.queue.m_enqueuePos ≤ after.queue.m_dequeuePos := by
  have works := going.works thread
  rw [here] at works
  have before (apart : some (.inr c) ≠ thread) : pool.shared.producersDone = true ∧
      pool.shared.queue.m_enqueuePos ≤ pool.shared.queue.m_dequeuePos := by
    rw [Function.update_of_ne apart] at left
    have knows := going.works (some (.inr c))
    rw [left] at knows
    exact ⟨knows, going.drained c left⟩
  have apart (stays : later ≠ .ended) : some (.inr c) ≠ thread := by
    rintro rfl
    exact stays (by rwa [Function.update_self] at left)
  -- a producer that still runs has not ended, so no consumer has left
  have running (p : Fin P) (goes : pool.shared.ended (.inl p) = false) (stays : later ≠ .ended) : False := by
    have ended := going.done (before (apart stays)).1 p
    rw [goes] at ended
    cases ended
  cases executed with
  | callPush | callPop | asks | counts | counted | producersJoined | consumersJoined =>
    exact (before (apart (by simp))).2
  | producerEnds => exact (before (by simp)).2
  | push ran more inside log => exact (running _ works.2.2.1 (by simp)).elim
  | pushFull ran log => exact (running _ works.2.2.1 (by simp)).elim
  | pushed ran more log => exact (running _ works.2.2.1 (by simp)).elim
  | pop ran inside log =>
    have within := works.1.resolve_left fun idle => by simp [idle, LockFreeQueue.exec] at ran
    exact going.pop_drained (by rwa [here]) (by rw [here]; exact ran) (before (apart (by simp))).2
  | popped ran log =>
    have within := works.1.resolve_left fun idle => by simp [idle, LockFreeQueue.exec] at ran
    exact going.pop_drained (by rwa [here]) (by rw [here]; exact ran) (before (apart (by simp))).2
  | popEmpty behind ran => exact (before (apart (by simp))).2
  | consumerEnds behind ran => exact going.empty_drained (works.2.1 rfl) (by rw [here]; rfl) behind

/-- What a producer has pushed. -/
theorem mem_pushes_stored {p : Fin P} {log : List (Event (Worker P C) ℕ)} {count value : ℕ}
    (stored : (pushes (.inl p) log).map Prod.snd = ((List.range count).map fun i => p * n + i).reverse) :
    (∃ q, (q, value) ∈ pushes (.inl p) log) ↔ ∃ i < count, value = p * n + i := by
  have same := congrArg (value ∈ ·) stored
  simp only [List.mem_map, Prod.exists, exists_eq_right, List.mem_reverse, List.mem_range, eq_iff_iff] at same
  rw [same]
  exact exists_congr fun i => and_congr_right fun _ => eq_comm

/-- What producers push is below the number of values. -/
theorem value_lt (p : Fin P) {i value : ℕ} (bound : i < n) (here : value = p * n + i) : value < P * n := by
  have below : (p + 1) * n ≤ P * n := Nat.mul_le_mul_right n p.isLt
  rw [Nat.succ_mul] at below
  omega

/-- Every value has come out, once, when all threads have ended. -/
theorem Going.all_values {data : ℕ → ℕ} (going : Going n data pool) (several : 0 < C)
    (producers : ∀ p, pool.threads (some (.inl p)) = .ended) (consumers : ∀ c, pool.threads (some (.inr c)) = .ended) :
    (values pool.shared.queue.log).Perm (List.range (P * n)) := by
  obtain ⟨labels, run⟩ := going.viewed
  have tickets := (LockFreeQueue.run_annotated (by decide) run).shared.tickets
  have idle (w : Worker P C) : (view pool).threads w = .idle := by
    rcases w with p | c
    · exact congrArg Local.call (producers p)
    · exact congrArg Local.call (consumers c)
  have returned (w : Worker P C) := idle w ▸ LockFreeQueue.run_returned (by decide) run w
  have stored (p : Fin P) : (pushes (.inl p) pool.shared.queue.log).map Prod.snd =
      ((List.range n).map fun i => p * n + i).reverse := by
    have works := going.works (some (.inl p))
    rwa [producers p] at works
  have source {q value : ℕ} (out : (q, value) ∈ delivered pool.shared.queue.log) :
      ∃ p, (q, value) ∈ pushes (.inl p) pool.shared.queue.log := by
    obtain ⟨w, logged⟩ := mem_delivered.mp out
    obtain ⟨-, ⟨u, claimed⟩, -⟩ := tickets.popReturned _ _ _ logged
    have pushed := mem_pushes.mpr (((returned u).pushes _ _ claimed).resolve_right (by simp [LockFreeQueue.Local.pushing]))
    rcases u with p | c
    · exact ⟨p, pushed⟩
    · exact absurd (going.outside c ▸ pushed) List.not_mem_nil
  have once : (delivered pool.shared.queue.log).Nodup :=
    List.Nodup.of_map _ (map_fst_delivered pool.shared.queue.log ▸ tickets.popOnce)
  refine (List.perm_ext_iff_of_nodup (List.Nodup.map_on ?_ once) List.nodup_range).mpr fun value => ?_
  · rintro ⟨q, value⟩ out ⟨q', value'⟩ out' same
    obtain rfl : value = value' := same
    obtain ⟨p, pushed⟩ := source out
    obtain ⟨p', pushed'⟩ := source out'
    obtain ⟨i, bound, here⟩ := (mem_pushes_stored (stored p)).mp ⟨q, pushed⟩
    obtain ⟨i', bound', here'⟩ := (mem_pushes_stored (stored p')).mp ⟨q', pushed'⟩
    -- the value tells its producer, who has pushed it once
    have quotient (p : Fin P) {i : ℕ} (bound : i < n) : (p * n + i) / n = p := by
      rw [Nat.mul_comm, Nat.mul_add_div (by omega), Nat.div_eq_of_lt bound, Nat.add_zero]
    obtain rfl : p = p' := Fin.ext (by rw [← quotient p bound, ← here, here', quotient p' bound'])
    have distinct : ((pushes (.inl p) pool.shared.queue.log).map Prod.snd).Nodup := by
      rw [stored, List.nodup_reverse]
      exact List.nodup_range.map fun _ _ => Nat.add_left_cancel
    exact List.inj_on_of_nodup_map distinct pushed pushed' rfl
  · rw [List.mem_map, List.mem_range]
    constructor
    · rintro ⟨⟨q, _⟩, out, rfl⟩
      obtain ⟨p, pushed⟩ := source out
      obtain ⟨i, bound, here⟩ := (mem_pushes_stored (stored p)).mp ⟨q, pushed⟩
      exact value_lt p bound here
    · intro below
      have positive : 0 < n := Nat.pos_of_ne_zero fun zero => by simp [zero] at below
      have producer : value / n < P := (Nat.div_lt_iff_lt_mul positive).mpr below
      obtain ⟨q, pushed⟩ := (mem_pushes_stored (stored ⟨value / n, producer⟩)).mpr
        ⟨value % n, Nat.mod_lt _ positive, (Nat.div_add_mod' value n).symm⟩
      have claimed := tickets.pushReturned _ _ _ (mem_pushes.mp pushed)
      have drained := going.drained ⟨0, several⟩ (consumers _)
      obtain ⟨t, popped⟩ := tickets.popExists q ((tickets.pushBound _ _ _ claimed).trans_le drained)
      obtain ⟨out, logged⟩ := ((returned t).pops _ popped).resolve_right (by simp [LockFreeQueue.Local.popping])
      obtain ⟨-, ⟨u, claimed'⟩, -⟩ := tickets.popReturned _ _ _ logged
      obtain ⟨-, rfl⟩ := tickets.pushUnique _ _ _ _ _ claimed claimed'
      exact ⟨_, mem_delivered.mpr ⟨t, logged⟩, rfl⟩

theorem Works.ended (works : Works n test thread mine) {w : Worker P C} (here : thread = some w)
    (flag : test.ended w = true) : mine = .ended := by
  subst here
  match w, mine with
  | .inl p, .pushing i call =>
    rw [works.2.2.1] at flag
    cases flag
  | .inr c, .popping again call =>
    rw [works.2.2] at flag
    cases flag
  | .inr c, .asking | .inr c, .counting _ | .inr c, .counted =>
    rw [show test.ended (.inr c) = false from works] at flag
    cases flag
  | _, .ended => rfl
  | .inl p, .popping again call | .inr p, .pushing i call => exact works.elim
  | .inl p, .asking | .inl p, .counting _ | .inl p, .counted => exact works.elim
  | .inl p, .joinProducers | .inl p, .joinConsumers | .inl p, .verdict _ => exact works.elim
  | .inr p, .joinProducers | .inr p, .joinConsumers | .inr p, .verdict _ => exact works.elim

/-- When all threads have ended the counts are right. -/
theorem Going.counted {data : ℕ → ℕ} (going : Going n data pool) (several : 0 < C)
    (joined : pool.threads none = .joinConsumers) (all : ∀ c, pool.shared.ended (.inr c) = true) :
    pool.shared.poppedCount = P * n ∧ ∀ i < P * n, pool.shared.seen i = 1 := by
  have done : pool.shared.producersDone = true := by
    have works := going.works none
    rwa [joined] at works
  have ended (w : Worker P C) : pool.threads (some w) = .ended := by
    refine (going.works (some w)).ended rfl ?_
    rcases w with p | c
    · exact going.done done p
    · exact all c
  have values := going.all_values several (fun p => ended (.inl p)) fun c => ended (.inr c)
  have none_held (value : ℕ) : ∑ t, (pool.threads t).holding value = 0 := by
    refine Finset.sum_eq_zero fun t _ => ?_
    rcases t with _ | w
    · rw [joined]; rfl
    · rw [ended w]; rfl
  have none_missing : ∑ t, (pool.threads t).uncounted = 0 := by
    refine Finset.sum_eq_zero fun t _ => ?_
    rcases t with _ | w
    · rw [joined]; rfl
    · rw [ended w]; rfl
  refine ⟨?_, fun i bound => ?_⟩
  · have count := going.poppedCount
    rwa [none_missing, values.length_eq, List.length_range] at count
  · have count := going.seen i
    rwa [none_held, values.count_eq, List.count_eq_one_of_mem List.nodup_range (List.mem_range.mpr bound)] at count

/-- `producersDone` is set when all producers have ended. -/
theorem Executed.done (executed : Executed n test thread mine after later)
    (before : test.producersDone = true → ∀ p, test.ended (.inl p) = true) (done : after.producersDone = true) (p : Fin P) :
    after.ended (.inl p) = true := by
  cases executed with
  | producersJoined all => exact all p
  | producerEnds | consumerEnds =>
    dsimp only
    rw [Function.update_apply, before done p, ite_self]
  | _ => exact before done p

theorem Executed.verdict {data : ℕ → ℕ} {ok : Bool} (executed : Executed n pool.shared thread mine after later)
    (here : pool.threads thread = mine) (several : 0 < C) (going : Going n data pool) (shows : later = .verdict ok) :
    ok = true := by
  cases executed with
  | consumersJoined all =>
    obtain rfl := Local.verdict.inj shows
    exact decide_eq_true (going.counted several here all)
  | _ => cases shows

theorem Going.step {data : ℕ → ℕ} {next : Pool (Option (Worker P C)) (Test P C) Local}
    {label : Option (Worker P C) × Unit} (several : 0 < C) (going : Going n data pool)
    (stepped : step n pool label = some next) : Going n data next := by
  obtain ⟨after, later, ran, rfl⟩ := Pool.step_eq_some.mp stepped
  have executed := exec_eq_some (going.works label.1) ran
  have moved := executed.moved
  have accounts := executed.accounts
  obtain ⟨labels, run⟩ := going.viewed
  obtain ⟨more, goes⟩ := executed.view rfl
  refine ⟨⟨labels ++ more, Replay.replay_trans run goes⟩, fun t => ?_, ?_, ?_, fun value => ?_, ?_,
    fun c left => executed.drained rfl going c left⟩
  · by_cases same : t = label.1
    · subst same
      dsimp only
      rw [Function.update_self]
      exact executed.works (going.works _) fun ok shows => executed.verdict rfl several going shows
    · dsimp only
      rw [Function.update_of_ne same]
      exact (going.works t).stable same moved
  · exact executed.done going.done
  · exact fun c => (moved.pushes _ fun _ absurd => by cases absurd).trans (going.outside c)
  · have sum := Pool.sum_update (Local.holding value) pool.threads label.1 later
    have count := accounts.seen value
    have before := going.seen value
    dsimp only
    omega
  · have sum := Pool.sum_update Local.uncounted pool.threads label.1 later
    have count := accounts.poppedCount
    have before := going.poppedCount
    dsimp only
    omega

theorem Works.stored {p : Fin P} (works : Works n test (some (.inl p)) mine) : ∃ i ≤ n,
    (pushes (.inl p) test.queue.log).map Prod.snd = ((List.range i).map fun i => p * n + i).reverse := by
  match mine with
  | .pushing i call => exact ⟨i, works.1, works.2.2.2⟩
  | .ended => exact ⟨n, le_rfl, works⟩
  | .popping _ _ | .asking | .counting _ | .counted | .joinProducers | .joinConsumers | .verdict _ => exact works.elim

theorem Works.pushed_lt {w : Worker P C} {value : ℕ} (works : Works n test (some w) mine)
    (inside : mine.call.pushed = some value) : value < P * n := by
  match w, mine with
  | .inl p, .pushing i call =>
    rcases works.2.1 with rfl | ⟨bound, here⟩
    · cases inside
    · exact value_lt p bound (Option.some.inj (inside.symm.trans here))
  | .inr c, .popping again call =>
    rcases works.1 with rfl | within
    · cases inside
    · cases call <;> first | exact absurd within Bool.false_ne_true | cases inside
  | .inl p, .popping _ _ | .inr c, .pushing _ _ => exact works.elim
  | _, .asking | _, .counting _ | _, .counted | _, .ended | _, .joinProducers | _, .joinConsumers | _, .verdict _ =>
    cases inside

theorem Going.claimed_lt {data : ℕ → ℕ} (going : Going n data pool) {w : Worker P C} {q value : ℕ}
    (claimed : .pushClaimed w q value ∈ pool.shared.queue.log) : value < P * n := by
  obtain ⟨labels, run⟩ := going.viewed
  have annotated := LockFreeQueue.run_annotated (by decide) run
  have works := going.works (some w)
  rcases (LockFreeQueue.run_returned (by decide) run w).pushes _ _ claimed with returned | pushing
  · have pushed := mem_pushes.mpr returned
    rcases w with p | c
    · obtain ⟨i, most, stored⟩ := works.stored
      obtain ⟨j, bound, here⟩ := (mem_pushes_stored stored).mp ⟨q, pushed⟩
      exact value_lt p (bound.trans_le most) here
    · exact absurd (going.outside c ▸ pushed) List.not_mem_nil
  · have point := (annotated.threads w).point
    refine works.pushed_lt ?_
    change ((view pool).threads w).pushed = some value
    cases here : (view pool).threads w with
    | pushStoreData held ticket | pushStoreSeq held ticket =>
      rw [here] at point pushing
      obtain rfl := Option.some.inj pushing
      obtain ⟨-, rfl⟩ := annotated.shared.tickets.pushUnique _ _ _ _ _ claimed point.1
      rfl
    | _ =>
      rw [here] at pushing
      cases pushing

/-- Whatever the interleaving, when the test comes to its verdict it has succeeded, and no value is ever counted outside
the table. -/
theorem testLockFreeQueue_succeeds {producerCount consumerCount : ℕ} (consumers : 0 < consumerCount) (countPerThread : ℕ)
    (data : ℕ → ℕ) (labels : List (Option (Worker producerCount consumerCount) × Unit))
    (pool : Pool (Option (Worker producerCount consumerCount)) (Test producerCount consumerCount) Local)
    (run : Replay.replay (step countPerThread) (start producerCount consumerCount data) labels = some pool) :
    (∀ ok, pool.threads none = .verdict ok → ok = true) ∧
      ∀ w value, pool.threads (some w) = .counting value → value < producerCount * countPerThread := by
  have going : Going countPerThread data pool := Replay.invariant_of_step (Going countPerThread data)
    (fun _ _ _ going stepped => going.step consumers stepped) (going_start countPerThread data) run
  refine ⟨fun ok shows => ?_, fun w value holds => ?_⟩
  · have works := going.works none
    rw [shows] at works
    exact works
  · have held : 1 ≤ (pool.threads (some w)).holding value := by rw [holds, Local.holding, if_pos rfl]
    have sum := Finset.single_le_sum (fun t _ => Nat.zero_le ((pool.threads t).holding value)) (Finset.mem_univ (some w))
    have count := going.seen value
    have present : 0 < (values pool.shared.queue.log).count value := by omega
    obtain ⟨⟨q, _⟩, out, rfl⟩ := List.mem_map.mp (List.count_pos_iff.mp present)
    obtain ⟨t, logged⟩ := mem_delivered.mp out
    obtain ⟨labels, run⟩ := going.viewed
    obtain ⟨-, ⟨u, claimed⟩, -⟩ := (LockFreeQueue.run_annotated (by decide) run).shared.tickets.popReturned _ _ _ logged
    exact going.claimed_lt claimed

/-- One producer, one consumer, one value: the consumer takes it, then finds the queue empty before and after the
producer is joined. -/
def oneValue : List (Option (Worker 1 1) × Unit) :=
  let producer : Option (Worker 1 1) := some (.inl ⟨0, Nat.one_pos⟩)
  let consumer : Option (Worker 1 1) := some (.inr ⟨0, Nat.one_pos⟩)
  (List.replicate 7 producer ++ List.replicate 11 consumer ++ none :: List.replicate 4 consumer ++ [none]).map
    fun t => (t, ())

theorem testLockFreeQueue_succeeds_one :
    let pool := (Replay.replay (step 1) (start 1 1 fun _ => 0) oneValue).get (by decide +kernel)
    (∀ ok, pool.threads none = .verdict ok → ok = true) ∧
      ∀ w value, pool.threads (some w) = .counting value → value < 1 * 1 :=
  testLockFreeQueue_succeeds (by decide) 1 (fun _ => 0) oneValue _ (Option.some_get _).symm

end LockFreeCore.QueueTest
