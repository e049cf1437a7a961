import LockFreeCore.Model.LockFreeQueue
import LockFreeCore.Model.Map
import LockFreeCore.Model.HashTable
import LockFreeCore.ToMathlib.LittleEndian

/-! # The programs that exercise the queue, a spin lock and the tables

`testLockFreeQueue` and `benchIncrementWithSpinlock`, with the threads they start. A thread takes one access of
what it shares with others at a time, inside the queue and outside; `join` waits until its thread has ended.
Times, `yield` and output are left out, and the `int`s are far from overflow. `testMap` and `testHashTable` run
in one thread, and are `none` where the table is.
-/

namespace LockFreeCore

namespace QueueTest

variable {producerCount consumerCount : ℕ}

/-- The threads that the test starts. -/
abbrev Worker (producerCount consumerCount : ℕ) := Fin producerCount ⊕ Fin consumerCount

/-- What the threads share, and which of them have ended. -/
structure Test (producerCount consumerCount : ℕ) where
  queue : LockFreeQueue.Queue (Worker producerCount consumerCount) ℕ
  seen : ℕ → ℕ
  poppedCount : ℕ
  producersDone : Bool
  ended : Worker producerCount consumerCount → Bool

/-- Where a thread is, with its local variables; `call` is where it is inside the queue. The thread that has
started the others is joining them, and in the end has its verdict. -/
inductive Local where
  | pushing (i : ℕ) (call : LockFreeQueue.Local ℕ)
  | popping (again : Bool) (call : LockFreeQueue.Local ℕ)
  | asking
  | counting (value : ℕ)
  | counted
  | ended
  | joinProducers
  | joinConsumers
  | verdict (ok : Bool)
deriving DecidableEq, Repr

/-- The result of the `push` that has just returned: its return is the last event. -/
def pushed {τ T : Type*} (queue : LockFreeQueue.Queue τ T) : Bool :=
  match queue.log.head? with
  | some (.pushReturned _ _ _) => true
  | _ => false

/-- The result of the `pop` that has just returned, and the value it has stored. -/
def popped {τ T : Type*} (queue : LockFreeQueue.Queue τ T) : Option T :=
  match queue.log.head? with
  | some (.popReturned _ _ value) => some value
  | _ => none

/-- A producer before or inside the `push` of its `i`-th value. -/
def produce (countPerThread : ℕ) (test : Test producerCount consumerCount) (p : Fin producerCount) (i : ℕ) :
    LockFreeQueue.Local ℕ → Option (Test producerCount consumerCount × Local)
  | .idle =>
    if i < countPerThread then
      (LockFreeQueue.exec test.queue (.inl p) .idle (.push (p * countPerThread + i))).map fun (queue, call) =>
        ({ test with queue }, .pushing i call)
    else some ({ test with ended := Function.update test.ended (.inl p) true }, .ended)
  | call =>
    (LockFreeQueue.exec test.queue (.inl p) call .go).map fun (queue, call) =>
      ({ test with queue }, .pushing (if call = .idle ∧ pushed queue then i + 1 else i) call)

/-- A consumer before or inside a `pop`; `again` is set for the one after `producersDone` was seen. -/
def consume (test : Test producerCount consumerCount) (c : Fin consumerCount) (again : Bool) :
    LockFreeQueue.Local ℕ → Option (Test producerCount consumerCount × Local)
  | .idle =>
    (LockFreeQueue.exec test.queue (.inr c) .idle .pop).map fun (queue, call) => ({ test with queue }, .popping again call)
  | call =>
    (LockFreeQueue.exec test.queue (.inr c) call .go).map fun (queue, call) =>
      if call = .idle then
        match popped queue with
        | some value => ({ test with queue }, .counting value)
        | none =>
          if again then ({ test with queue, ended := Function.update test.ended (.inr c) true }, .ended)
          else ({ test with queue }, .asking)
      else ({ test with queue }, .popping again call)

/-- One step of a thread; `none` is the thread that has started the others. -/
def exec (countPerThread : ℕ) (test : Test producerCount consumerCount)
    (thread : Option (Worker producerCount consumerCount)) (mine : Local) (_ : Unit) :
    Option (Test producerCount consumerCount × Local) :=
  let total := producerCount * countPerThread
  match thread, mine with
  | some (.inl p), .pushing i call => produce countPerThread test p i call
  | some (.inr c), .popping again call => consume test c again call
  | some (.inr _), .asking => some (test, .popping test.producersDone .idle)
  | some (.inr _), .counting value =>
      if value < total then some ({ test with seen := Function.update test.seen value (test.seen value + 1) }, .counted)
      else none
  | some (.inr _), .counted => some ({ test with poppedCount := test.poppedCount + 1 }, .popping false .idle)
  | none, .joinProducers =>
      if ∀ p, test.ended (.inl p) then some ({ test with producersDone := true }, .joinConsumers) else none
  | none, .joinConsumers =>
      if ∀ c, test.ended (.inr c) then
        some (test, .verdict (test.poppedCount = total ∧ ∀ i < total, test.seen i = 1))
      else none
  | _, _ => none

/-- The threads at their start, with a queue of 1024 cells; `data` is what these were allocated with. -/
def start (producerCount consumerCount : ℕ) (data : ℕ → ℕ) :
    Pool (Option (Worker producerCount consumerCount)) (Test producerCount consumerCount) Local where
  shared := ⟨LockFreeQueue.initial 1024 data, fun _ => 0, 0, false, fun _ => false⟩
  threads
    | some (.inl _) => .pushing 0 .idle
    | some (.inr _) => .popping false .idle
    | none => .joinProducers

abbrev step (countPerThread : ℕ) :
    Pool (Option (Worker producerCount consumerCount)) (Test producerCount consumerCount) Local →
    Option (Worker producerCount consumerCount) × Unit →
    Option (Pool (Option (Worker producerCount consumerCount)) (Test producerCount consumerCount) Local) :=
  Pool.step (exec countPerThread)

end QueueTest

namespace Spinlock

/-- The flag of the lock and the counter that it protects. -/
structure Shared where
  lockFlag : ℕ
  counter : ℕ
deriving DecidableEq, Repr

/-- Where a thread is in its round `i`: `counter++` reads and writes. -/
inductive Local where
  | acquiring (i : ℕ)
  | reading (i : ℕ)
  | writing (i value : ℕ)
  | releasing (i : ℕ)
  | ended
deriving DecidableEq, Repr

/-- One access of a thread. -/
def exec {τ : Type*} (perThread : ℕ) (shared : Shared) (_ : τ) (mine : Local) (_ : Unit) : Option (Shared × Local) :=
  match mine with
  | .acquiring i =>
      if i < perThread then
        if shared.lockFlag = 0 then some ({ shared with lockFlag := 1 }, .reading i) else some (shared, .acquiring i)
      else some (shared, .ended)
  | .reading i => some (shared, .writing i shared.counter)
  | .writing i value => some ({ shared with counter := value + 1 }, .releasing i)
  | .releasing i => some ({ shared with lockFlag := 0 }, .acquiring (i + 1))
  | .ended => none

def start (τ : Type*) : Pool τ Shared Local := ⟨⟨0, 0⟩, fun _ => .acquiring 0⟩

abbrev step (τ : Type*) [DecidableEq τ] (perThread : ℕ) : Pool τ Shared Local → τ × Unit → Option (Pool τ Shared Local) :=
  Pool.step (exec perThread)

end Spinlock

namespace MapTest

/-- What the test calls of the table under test. -/
structure Table (σ K : Type) where
  insert : σ → K → ℤ → Option σ
  erase : σ → K → Option (σ × Bool)
  find : σ → K → Option (Option ℤ)
  getCount : σ → ℤ

/-- The value stored under key `i`. -/
def stored (i : ℕ) : ℤ := i * 7 + 1

variable {σ K : Type} (table : Table σ K) (key : ℕ → K)

/-- A loop of lookups: none is made any more once one of them has not found what it should. -/
def lookups (state : σ) (expected : ℕ → Option ℤ) (count : ℕ) (ok : Bool) : Option Bool :=
  Replay.replay (fun ok i => if ok then (table.find state (key i)).map fun found => found = expected i else some false)
    ok (List.range' 0 count)

/-- The body of `testMap` and `testHashTable`; `rounds` are those of a loop up to `count`. -/
def test (fresh : σ) (count : ℤ) : Option Bool := do
  let rounds := count.toNat
  let state ← Replay.replay (fun state i => table.insert state (key i) (stored i)) fresh (List.range' 0 rounds)
  let ok := decide (table.getCount state = count)
  let ok ← lookups table key state (fun i => some (stored i)) rounds ok
  let state ← Replay.replay (fun state i => (table.erase state (key i)).map Prod.fst) state
    (List.range' 0 ((rounds + 1) / 2) 2)
  let expectedCount := count - (count + 1).tdiv 2
  let ok := if table.getCount state ≠ expectedCount then false else ok
  lookups table key state (fun i => if i % 2 = 0 then none else some (stored i)) rounds ok

def testMap (count : ℤ) : Option Bool :=
  test (K := ℤ) ⟨fun map => map.insert, fun map => map.erase, fun map => map.find, Map.getCount⟩ (fun i => i) Map.empty
    count

def testHashTable (count : ℤ) : Option Bool :=
  test ⟨HashTable.insert LittleEndian.store, HashTable.erase LittleEndian.store, HashTable.find LittleEndian.store,
    HashTable.getCount⟩ (fun i => BitVec.ofNat (8 * 8) i) (HashTable.create 4099) count

end MapTest

end LockFreeCore
