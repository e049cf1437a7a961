import LockFreeCore.Proofs.LockFreeQueue.Stalls
import Mathlib.Data.List.Sort

/-! # Successful calls take effect at their claims

In the order of their compare-and-swaps the successful calls are those of a bounded first-in-first-out queue: a
push appends when there is room, and a pop returns what stood in front. A thread finishes a call before
it claims the next ticket, so what one consumer gets of one producer comes in the order of the pushes.
-/

namespace LockFreeCore.LockFreeQueue

variable {τ T : Type*} {cap : ℕ} {queue next : Queue τ T}

/-- The bounded queue after the claims of a log, which has the newest first; `none` when a push
finds no room or a pop finds another ticket in front. -/
def contents (capacity : ℕ) : List (Event τ T) → Option (List (ℕ × T))
  | [] => some []
  | .pushClaimed _ p v :: log => (contents capacity log).bind fun stored =>
      if stored.length < capacity then some (stored ++ [(p, v)]) else none
  | .popClaimed _ p :: log => (contents capacity log).bind fun stored =>
      if stored.head?.map Prod.fst = some p then some stored.tail else none
  | _ :: log => contents capacity log

/-- The claims make up a bounded queue, which holds the tickets between the two counters. -/
structure Linear (cap : ℕ) (queue : Queue τ T) (stored : List (ℕ × T)) : Prop where
  replays : contents cap queue.log = some stored
  tickets : stored.map Prod.fst = List.range' queue.m_dequeuePos (queue.m_enqueuePos - queue.m_dequeuePos)

theorem Took.linear {thread : τ} {mine after : Local T} {stored : List (ℕ × T)} (sound : Sound cap queue)
    (asserted : Thread queue thread mine) (linear : Linear cap queue stored)
    (took : Took queue thread mine next after) : ∃ stored, Linear cap next stored := by
  have point := asserted.point
  have behind := sound.behind
  obtain ⟨replays, tickets⟩ := linear
  have length := congrArg List.length tickets
  rw [List.length_map, List.length_range'] at length
  cases took with
  | pushClaim value pos same =>
    have reach := (sound.pushClaim_free same point.2).inReach
    refine ⟨stored ++ [(pos, value)], ?_, ?_⟩
    · rw [Queue.record_log, contents, replays, Option.bind_some, if_pos (by omega)]
    · have more : pos + 1 - queue.m_dequeuePos = (queue.m_enqueuePos - queue.m_dequeuePos) + 1 := by omega
      have last : queue.m_dequeuePos + (queue.m_enqueuePos - queue.m_dequeuePos) = pos := by omega
      change _ = List.range' queue.m_dequeuePos (pos + 1 - queue.m_dequeuePos)
      rw [more, List.range'_1_concat, List.map_append, tickets, last]
      rfl
  | popClaim pos same =>
    have claimed := (sound.popClaim_full same point.2).claimed
    obtain ⟨count, more⟩ : ∃ count, queue.m_enqueuePos - queue.m_dequeuePos = count + 1 :=
      ⟨queue.m_enqueuePos - queue.m_dequeuePos - 1, by omega⟩
    rw [more, List.range'_succ, same] at tickets
    obtain ⟨front, rest, rfl, ticket, later⟩ := List.map_eq_cons_iff.mp tickets
    refine ⟨rest, ?_, ?_⟩
    · rw [Queue.record_log, contents, replays, Option.bind_some, if_pos (by simp [ticket])]
      rfl
    · have less : queue.m_enqueuePos - (pos + 1) = count := by omega
      change _ = List.range' (pos + 1) (queue.m_enqueuePos - (pos + 1))
      rw [less, later]
  | _ => exact ⟨stored, replays, tickets⟩

/-- A log that replays replays up to each of its events. -/
theorem contents_suffix {later earlier : List (Event τ T)} {stored : List (ℕ × T)}
    (replays : contents cap (later ++ earlier) = some stored) : ∃ before, contents cap earlier = some before := by
  induction later generalizing stored with
  | nil => exact ⟨stored, replays⟩
  | cons event rest ih =>
    cases event with
    | pushClaimed t p v | popClaimed t p =>
      obtain ⟨middle, held, -⟩ := Option.bind_eq_some_iff.mp replays
      exact ih held
    | _ => exact ih replays

/-- What is stored was pushed. -/
theorem mem_log_of_contents {log : List (Event τ T)} {stored : List (ℕ × T)} (replays : contents cap log = some stored)
    {p : ℕ} {v : T} (inside : (p, v) ∈ stored) : ∃ t, .pushClaimed t p v ∈ log := by
  induction log generalizing stored with
  | nil =>
    obtain rfl := Option.some.inj replays
    cases inside
  | cons event rest ih =>
    have older {before : List (ℕ × T)} (held : contents cap rest = some before) (inside : (p, v) ∈ before) :
        ∃ t, .pushClaimed t p v ∈ event :: rest :=
      (ih held inside).imp fun _ => List.mem_cons_of_mem _
    cases event with
    | pushClaimed t q w =>
      obtain ⟨before, held, added⟩ := Option.bind_eq_some_iff.mp replays
      split_ifs at added
      obtain rfl := Option.some.inj added
      rcases List.mem_append.mp inside with inside | here
      · exact older held inside
      · cases List.mem_singleton.mp here
        exact ⟨t, List.mem_cons_self⟩
    | popClaimed t q =>
      obtain ⟨before, held, taken⟩ := Option.bind_eq_some_iff.mp replays
      split_ifs at taken
      obtain rfl := Option.some.inj taken
      exact older held (List.mem_of_mem_tail inside)
    | _ => exact older replays inside

variable [DecidableEq τ]

theorem run_linear {k : ℕ} (several : 1 ≤ k) {data : ℕ → T} {labels : List (τ × Call T)}
    {pool : Pool τ (Queue τ T) (Local T)} (run : Replay.replay step (start (2 ^ k) data) labels = some pool) :
    ∃ stored, Linear (2 ^ k) pool.shared stored := by
  refine (Replay.invariant_of_step
    (fun pool => Pool.Annotated (Sound (2 ^ k)) Thread pool ∧ ∃ stored, Linear (2 ^ k) pool.shared stored)
    ?_ ⟨start_annotated several data, [], rfl, rfl⟩ run).2
  rintro pool label after ⟨annotated, stored, linear⟩ stepped
  refine ⟨step_annotated annotated stepped, ?_⟩
  obtain ⟨shared, mine, ran, rfl⟩ := Pool.step_eq_some.mp stepped
  exact (exec_took ran).linear annotated.shared (annotated.threads label.1) linear

/-- In every interleaving the claims, in their order, are successful calls on a queue that holds `2 ^ k` values at most,
and every pop returns what stood in front when it claimed its ticket. -/
theorem successful_calls_linearize {k : ℕ} (several : 1 ≤ k) (data : ℕ → T) (labels : List (τ × Call T))
    (pool : Pool τ (Queue τ T) (Local T)) (run : Replay.replay step (start (2 ^ k) data) labels = some pool) :
    (∃ stored, contents (2 ^ k) pool.shared.log = some stored ∧
      stored.length = pool.shared.m_enqueuePos - pool.shared.m_dequeuePos) ∧
    (∀ t p v, .pushReturned t p v ∈ pool.shared.log → .pushClaimed t p v ∈ pool.shared.log) ∧
    ∀ t p v, .popReturned t p v ∈ pool.shared.log → ∃ later earlier rest,
      pool.shared.log = later ++ .popClaimed t p :: earlier ∧ contents (2 ^ k) earlier = some ((p, v) :: rest) := by
  have tickets := (run_annotated several run).shared.tickets
  obtain ⟨stored, replays, between⟩ := run_linear several run
  refine ⟨⟨stored, replays, ?_⟩, tickets.pushReturned, fun t p v returned => ?_⟩
  · simpa using congrArg List.length between
  · obtain ⟨claim, ⟨u, pushed⟩, -⟩ := tickets.popReturned t p v returned
    obtain ⟨later, earlier, split⟩ := List.append_of_mem claim
    rw [split] at replays
    obtain ⟨after, claimed⟩ := contents_suffix replays
    obtain ⟨before, held, taken⟩ := Option.bind_eq_some_iff.mp claimed
    split_ifs at taken with front
    obtain ⟨⟨q, w⟩, first, rfl⟩ := Option.map_eq_some_iff.mp front
    obtain ⟨rest, rfl⟩ := List.head?_eq_some_iff.mp first
    -- the value in front is the one that was pushed with this ticket
    obtain ⟨u', pushed'⟩ := mem_log_of_contents held List.mem_cons_self
    have logged : .pushClaimed u' q w ∈ pool.shared.log :=
      split ▸ List.mem_append_right _ (List.mem_cons_of_mem _ pushed')
    obtain ⟨-, rfl⟩ := tickets.pushUnique _ _ _ _ _ pushed logged
    exact ⟨later, earlier, rest, split, held⟩

/-- A thread gives three values to another through a queue of two cells. -/
def threeThrough : List (Bool × Call ℕ) :=
  let pushed (value : ℕ) : List (Bool × Call ℕ) := (true, .push value) :: List.replicate 5 (true, .go)
  let popped : List (Bool × Call ℕ) := (false, .pop) :: List.replicate 5 (false, .go)
  pushed 7 ++ pushed 8 ++ popped ++ pushed 9 ++ popped

theorem successful_calls_linearize_three :
    let pool := (Replay.replay step (start (2 ^ 1) fun _ => 0) threeThrough).get (by decide)
    (∃ stored, contents (2 ^ 1) pool.shared.log = some stored ∧
      stored.length = pool.shared.m_enqueuePos - pool.shared.m_dequeuePos) ∧
    (∀ t p v, .pushReturned t p v ∈ pool.shared.log → .pushClaimed t p v ∈ pool.shared.log) ∧
    ∀ t p v, .popReturned t p v ∈ pool.shared.log → ∃ later earlier rest,
      pool.shared.log = later ++ .popClaimed t p :: earlier ∧ contents (2 ^ 1) earlier = some ((p, v) :: rest) :=
  successful_calls_linearize (le_refl 1) (fun _ => 0) threeThrough _ (Option.some_get _).symm

/-! ## What one consumer gets of one producer -/

/-- The pushes of a thread that have returned, newest first. -/
def pushes (thread : τ) (log : List (Event τ T)) : List (ℕ × T) :=
  log.filterMap fun
    | .pushReturned t p v => if t = thread then some (p, v) else none
    | _ => none

/-- The pops of a thread that have returned a value, newest first. -/
def pops (thread : τ) (log : List (Event τ T)) : List (ℕ × T) :=
  log.filterMap fun
    | .popReturned t p v => if t = thread then some (p, v) else none
    | _ => none

theorem mem_pushes {thread : τ} {log : List (Event τ T)} {p : ℕ} {v : T} :
    (p, v) ∈ pushes thread log ↔ .pushReturned thread p v ∈ log := by
  rw [pushes, List.mem_filterMap]
  constructor
  · rintro ⟨event, logged, here⟩
    cases event <;> simp only [reduceCtorEq, Option.ite_none_right_eq_some, Option.some.injEq, Prod.mk.injEq] at here
    obtain ⟨rfl, rfl, rfl⟩ := here
    exact logged
  · exact fun logged => ⟨_, logged, if_pos rfl⟩

theorem mem_pops {thread : τ} {log : List (Event τ T)} {p : ℕ} {v : T} :
    (p, v) ∈ pops thread log ↔ .popReturned thread p v ∈ log := by
  rw [pops, List.mem_filterMap]
  constructor
  · rintro ⟨event, logged, here⟩
    cases event <;> simp only [reduceCtorEq, Option.ite_none_right_eq_some, Option.some.injEq, Prod.mk.injEq] at here
    obtain ⟨rfl, rfl, rfl⟩ := here
    exact logged
  · exact fun logged => ⟨_, logged, if_pos rfl⟩

/-- A thread's calls have returned in the order of their tickets, and the ticket it holds comes after them. -/
structure InOrder (queue : Queue τ T) (thread : τ) (mine : Local T) : Prop where
  pushes : (pushes thread queue.log).Pairwise fun a b => b.1 < a.1
  pops : (pops thread queue.log).Pairwise fun a b => b.1 < a.1
  pushing : ∀ p, mine.pushing = some p → ∀ a ∈ LockFreeQueue.pushes thread queue.log, a.1 < p
  popping : ∀ p, mine.popping = some p → ∀ a ∈ LockFreeQueue.pops thread queue.log, a.1 < p

theorem Took.inOrder {thread : τ} {mine after : Local T} (tickets : Tickets cap queue)
    (inOrder : InOrder queue thread mine) (took : Took queue thread mine next after) : InOrder next thread after := by
  obtain ⟨pushed, popped, pushing, popping⟩ := inOrder
  cases took with
  | pushFull | popEmpty => exact ⟨pushed, popped, fun _ held => (by cases held), fun _ held => (by cases held)⟩
  | pushClaim value pos same =>
    refine ⟨pushed, popped, fun p held a inside => ?_, fun _ held => (by cases held)⟩
    obtain rfl := Option.some.inj held
    exact (tickets.pushBound _ _ _ (tickets.pushReturned _ _ _ (mem_pushes.mp inside))).trans_eq same
  | pushPublish value pos =>
    have shape : LockFreeQueue.pushes thread (.pushReturned thread pos value :: queue.log) =
        (pos, value) :: LockFreeQueue.pushes thread queue.log := by simp [LockFreeQueue.pushes]
    refine ⟨?_, popped, fun _ held => (by cases held), fun _ held => (by cases held)⟩
    change (LockFreeQueue.pushes thread (.pushReturned thread pos value :: queue.log)).Pairwise _
    rw [shape]
    exact List.pairwise_cons.mpr ⟨pushing pos rfl, pushed⟩
  | popClaim pos same =>
    refine ⟨pushed, popped, fun _ held => (by cases held), fun p held a inside => ?_⟩
    obtain rfl := Option.some.inj held
    exact (tickets.popBound _ _ (tickets.popReturned _ _ _ (mem_pops.mp inside)).1).trans_eq same
  | popRelease pos value =>
    have shape : LockFreeQueue.pops thread (.popReturned thread pos value :: queue.log) =
        (pos, value) :: LockFreeQueue.pops thread queue.log := by simp [LockFreeQueue.pops]
    refine ⟨pushed, ?_, fun _ held => (by cases held), fun _ held => (by cases held)⟩
    change (LockFreeQueue.pops thread (.popReturned thread pos value :: queue.log)).Pairwise _
    rw [shape]
    exact List.pairwise_cons.mpr ⟨popping pos rfl, popped⟩
  | pushData value pos => exact ⟨pushed, popped, pushing, fun _ held => (by cases held)⟩
  | popData pos => exact ⟨pushed, popped, fun _ held => (by cases held), popping⟩
  | _ => exact ⟨pushed, popped, fun _ held => (by cases held), fun _ held => (by cases held)⟩

/-- What another thread does changes nothing about it. -/
theorem Took.inOrder_other {thread other : τ} {mine after theirs : Local T} (apart : other ≠ thread)
    (inOrder : InOrder queue other theirs) (took : Took queue thread mine next after) : InOrder next other theirs := by
  have same : LockFreeQueue.pushes other next.log = LockFreeQueue.pushes other queue.log ∧
      LockFreeQueue.pops other next.log = LockFreeQueue.pops other queue.log := by
    cases took <;> simp [LockFreeQueue.pushes, LockFreeQueue.pops, apart.symm]
  obtain ⟨pushed, popped, pushing, popping⟩ := inOrder
  rw [← same.1] at pushed pushing
  rw [← same.2] at popped popping
  exact ⟨pushed, popped, pushing, popping⟩

theorem run_inOrder {k : ℕ} (several : 1 ≤ k) {data : ℕ → T} {labels : List (τ × Call T)}
    {pool : Pool τ (Queue τ T) (Local T)} (run : Replay.replay step (start (2 ^ k) data) labels = some pool) (t : τ) :
    InOrder pool.shared t (pool.threads t) := by
  have initial (t : τ) : InOrder (initial (2 ^ k) data) t .idle :=
    ⟨.nil, .nil, fun _ held => (by cases held), fun _ held => (by cases held)⟩
  refine (Replay.invariant_of_step (fun pool => Pool.Annotated (Sound (2 ^ k)) Thread pool ∧
    Pool.Annotated (fun _ => True) InOrder pool) ?_ ⟨start_annotated several data, trivial, initial⟩ run).2.threads t
  rintro pool label after ⟨annotated, ordered⟩ stepped
  refine ⟨step_annotated annotated stepped,
    ordered.step (fun _ _ ran => ⟨trivial, ?_⟩) (fun _ _ ran u apart theirs => ?_) stepped⟩
  · exact (exec_took ran).inOrder annotated.shared.tickets (ordered.threads label.1)
  · exact (exec_took ran).inOrder_other apart theirs

/-- What a consumer has got of a producer's values came in the order in which the producer pushed them. -/
theorem order_kept [DecidableEq T] {k : ℕ} (several : 1 ≤ k) (data : ℕ → T) (labels : List (τ × Call T))
    (pool : Pool τ (Queue τ T) (Local T)) (run : Replay.replay step (start (2 ^ k) data) labels = some pool)
    (consumer producer : τ) :
    ((pops consumer pool.shared.log).filter (· ∈ pushes producer pool.shared.log)).Sublist
      (pushes producer pool.shared.log) := by
  have popped := (run_inOrder several run consumer).pops
  have pushed := (run_inOrder several run producer).pushes
  have antisymm : Std.Antisymm fun a b : ℕ × T => b.1 < a.1 :=
    ⟨fun a b before after => absurd (before.trans after) (lt_irrefl _)⟩
  have ordered : ((pops consumer pool.shared.log).filter (· ∈ pushes producer pool.shared.log)).Pairwise
      fun a b => b.1 < a.1 := popped.sublist List.filter_sublist
  have once : ((pops consumer pool.shared.log).filter (· ∈ pushes producer pool.shared.log)).Nodup :=
    ordered.imp fun later same => later.ne (congrArg Prod.fst same.symm)
  exact List.sublist_of_subperm_of_pairwise (List.subperm_of_subset once fun a inside => by simpa using
    (List.mem_filter.mp inside).2) ordered pushed

theorem order_kept_three :
    let pool := (Replay.replay step (start (2 ^ 1) fun _ => 0) threeThrough).get (by decide)
    ((pops false pool.shared.log).filter (· ∈ pushes true pool.shared.log)).Sublist (pushes true pool.shared.log) :=
  order_kept (le_refl 1) (fun _ => 0) threeThrough _ (Option.some_get _).symm false true

end LockFreeCore.LockFreeQueue
