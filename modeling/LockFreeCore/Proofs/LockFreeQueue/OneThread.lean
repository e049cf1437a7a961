import LockFreeCore.Proofs.LockFreeQueue
import LockFreeCore.ToMathlib.Fifo

/-! # The queue under one thread

Calls made one after the other find each cell either holding a value for the ticket of its place or free
for the push of that ticket. From capacity 2 on the sequence numbers tell these apart, and the queue
answers like a bounded list. With one cell, the number a push publishes is the number the next push waits
for, so that push goes through as well.
-/

namespace LockFreeCore.LockFreeQueue

variable {τ T : Type*} {cap : ℕ} {queue next : Queue τ T} {thread : τ} {stored : List T}

def Event.outcome : Event τ T → Option (Fifo.Outcome T)
  | .pushReturned _ _ _ => some .pushed
  | .pushFull _ _ => some .full
  | .popReturned _ _ value => some (.popped value)
  | .popEmpty _ => some .empty
  | _ => none

def entry : Fifo.Call T → Call T
  | .push value => .push value
  | .pop => .pop

/-- A call of the thread returns when only it takes steps, with an outcome as its last event. -/
def Serves (thread : τ) (queue : Queue τ T) (call : Fifo.Call T) (outcome : Fifo.Outcome T)
    (next : Queue τ T) : Prop :=
  ∃ entered mine, exec queue thread .idle (entry call) = some (entered, mine) ∧
    Pool.Finishes exec thread .go (· = .idle) next entered mine ∧
    next.log.head?.bind Event.outcome = some outcome

/-- Calls made one after the other all return, each with the outcome of a list of at most `cap` values;
a call that returns false changes nothing. -/
def Behaves (thread : τ) (cap : ℕ) : Queue τ T → List T → List (Fifo.Call T) → Prop
  | _, _, [] => True
  | queue, stored, call :: rest => ∃ next, Serves thread queue call (Fifo.outcome cap stored call) next ∧
      (Fifo.outcome cap stored call = .full ∨ Fifo.outcome cap stored call = .empty →
        next = { queue with log := next.log }) ∧
      Behaves thread cap next (Fifo.after cap stored call) rest

/-- The values stored are those of the cells from the dequeue position up to the enqueue position, and
the other cells are free for the pushes that follow. -/
structure Holds (cap : ℕ) (queue : Queue τ T) (stored : List T) : Prop where
  mask : queue.m_mask + 1 = cap
  slot : ∀ pos, queue.slot pos = pos % cap
  enqueuePos : queue.m_enqueuePos = queue.m_dequeuePos + stored.length
  fits : stored.length ≤ cap
  taken : ∀ i (bound : i < stored.length),
    queue.cell (queue.m_dequeuePos + i) = ⟨queue.m_dequeuePos + i + 1, stored[i]⟩
  free : ∀ i, stored.length ≤ i → i < cap →
    (queue.cell (queue.m_dequeuePos + i)).sequence = queue.m_dequeuePos + i

theorem initial_holds (k : ℕ) (data : ℕ → T) : Holds (2 ^ k) (initial (τ := τ) (2 ^ k) data) [] where
  mask := Nat.sub_add_cancel Nat.one_le_two_pow
  slot _ := Nat.and_two_pow_sub_one_eq_mod ..
  enqueuePos := rfl
  fits := Nat.zero_le _
  taken _ bound := absurd bound (Nat.not_lt_zero _)
  free i _ bound := by
    have home : (0 + i) &&& (2 ^ k - 1) = i := by
      rw [Nat.zero_add, Nat.and_two_pow_sub_one_eq_mod, Nat.mod_eq_of_lt bound]
    exact home.trans (Nat.zero_add i).symm

/-- The queue after a push has found its turn. -/
def pushed (queue : Queue τ T) (thread : τ) (value : T) : Queue τ T :=
  ((({ queue with m_enqueuePos := queue.m_enqueuePos + 1 }.record
    (.pushClaimed thread queue.m_enqueuePos value)).storeData queue.m_enqueuePos value).storeSeq
      queue.m_enqueuePos (queue.m_enqueuePos + 1)).record (.pushReturned thread queue.m_enqueuePos value)

/-- The queue after a pop has found its turn. -/
def popped (queue : Queue τ T) (thread : τ) : Queue τ T :=
  (({ queue with m_dequeuePos := queue.m_dequeuePos + 1 }.record
    (.popClaimed thread queue.m_dequeuePos)).storeSeq queue.m_dequeuePos
      (queue.m_dequeuePos + queue.m_mask + 1)).record
    (.popReturned thread queue.m_dequeuePos (queue.cell queue.m_dequeuePos).data)

theorem serves_pushed (thread : τ) (value : T)
    (turn : (queue.cell queue.m_enqueuePos).sequence = queue.m_enqueuePos) :
    Serves thread queue (.push value) .pushed (pushed queue thread value) := by
  have load : exec queue thread (.pushLoadSeq value queue.m_enqueuePos) .go =
      some (queue, .pushCas value queue.m_enqueuePos) := by
    have diff : ((queue.cell queue.m_enqueuePos).sequence : ℤ) - queue.m_enqueuePos = 0 := by omega
    simp only [exec, push, if_pos diff, Option.orElse]
  have claim : exec queue thread (.pushCas value queue.m_enqueuePos) .go =
      some ({ queue with m_enqueuePos := queue.m_enqueuePos + 1 }.record
        (.pushClaimed thread queue.m_enqueuePos value), .pushStoreData value queue.m_enqueuePos) := by
    simp only [exec, push, if_true, Option.orElse]
  exact ⟨queue, .pushLoadPos value, rfl,
    .goes rfl (.goes load (.goes claim (.goes rfl (.goes rfl (.done rfl))))), rfl⟩

theorem serves_full (thread : τ) (value : T)
    (behind : (queue.cell queue.m_enqueuePos).sequence < queue.m_enqueuePos) :
    Serves thread queue (.push value) .full (queue.record (.pushFull thread value)) := by
  have load : exec queue thread (.pushLoadSeq value queue.m_enqueuePos) .go =
      some (queue.record (.pushFull thread value), .idle) := by
    have diff : ¬ ((queue.cell queue.m_enqueuePos).sequence : ℤ) - queue.m_enqueuePos = 0 := by omega
    have less : ((queue.cell queue.m_enqueuePos).sequence : ℤ) - queue.m_enqueuePos < 0 := by omega
    simp only [exec, push, if_neg diff, if_pos less, Option.orElse]
  exact ⟨queue, .pushLoadPos value, rfl, .goes rfl (.goes load (.done rfl)), rfl⟩

theorem serves_popped (thread : τ)
    (turn : (queue.cell queue.m_dequeuePos).sequence = queue.m_dequeuePos + 1) :
    Serves thread queue .pop (.popped (queue.cell queue.m_dequeuePos).data) (popped queue thread) := by
  have load : exec queue thread (.popLoadSeq queue.m_dequeuePos) .go =
      some (queue, .popCas queue.m_dequeuePos) := by
    have diff : ((queue.cell queue.m_dequeuePos).sequence : ℤ) - (queue.m_dequeuePos + 1) = 0 := by omega
    simp only [exec, push, pop, if_pos diff, Option.orElse]
  have claim : exec queue thread (.popCas queue.m_dequeuePos) .go =
      some ({ queue with m_dequeuePos := queue.m_dequeuePos + 1 }.record
        (.popClaimed thread queue.m_dequeuePos), .popLoadData queue.m_dequeuePos) := by
    simp only [exec, push, pop, if_true, Option.orElse]
  exact ⟨queue, .popLoadPos, rfl,
    .goes rfl (.goes load (.goes claim (.goes rfl (.goes rfl (.done rfl))))), rfl⟩

theorem serves_empty (thread : τ)
    (behind : (queue.cell queue.m_dequeuePos).sequence ≤ queue.m_dequeuePos) :
    Serves thread queue .pop .empty (queue.record (.popEmpty thread)) := by
  have load : exec queue thread (.popLoadSeq queue.m_dequeuePos) .go =
      some (queue.record (.popEmpty thread), .idle) := by
    have diff : ¬ ((queue.cell queue.m_dequeuePos).sequence : ℤ) - (queue.m_dequeuePos + 1) = 0 := by omega
    have less : ((queue.cell queue.m_dequeuePos).sequence : ℤ) - (queue.m_dequeuePos + 1) < 0 := by omega
    simp only [exec, push, pop, if_neg diff, if_pos less, Option.orElse]
  exact ⟨queue, .popLoadPos, rfl, .goes rfl (.goes load (.done rfl)), rfl⟩

/-- A call has one outcome and leaves one queue. -/
theorem Serves.unique {call : Fifo.Call T} {outcome other : Fifo.Outcome T} {next' : Queue τ T}
    (serves : Serves thread queue call outcome next) (again : Serves thread queue call other next') :
    outcome = other ∧ next = next' := by
  obtain ⟨entered, mine, enters, finishes, last⟩ := serves
  obtain ⟨entered', mine', enters', finishes', last'⟩ := again
  cases Option.some.inj (enters.symm.trans enters')
  obtain rfl := finishes.unique (fun _ _ idle => by rw [idle]; rfl) finishes'
  exact ⟨Option.some.inj (last.symm.trans last'), rfl⟩

/-! ## Each call on a queue that holds a list -/

/-- Data and then a sequence number stored into the cell of a ticket. -/
theorem stores_cell (slot : ∀ pos, queue.slot pos = pos % cap) (value : T) (pos sequence other : ℕ) :
    ((queue.storeData pos value).storeSeq pos sequence).cell other =
      if other ≡ pos [MOD cap] then ⟨sequence, value⟩ else queue.cell other := by
  rw [Queue.storeSeq, @Queue.setCell_cell _ _ _ (queue.storeData pos value) slot, Queue.storeData_self]
  split_ifs with same
  · rfl
  · rw [Queue.storeData, Queue.setCell_cell slot, if_neg same]

theorem pushed_cell (slot : ∀ pos, queue.slot pos = pos % cap) (value : T) (other : ℕ) :
    (pushed queue thread value).cell other =
      if other ≡ queue.m_enqueuePos [MOD cap] then ⟨queue.m_enqueuePos + 1, value⟩ else queue.cell other :=
  @stores_cell _ _ _ (Queue.record { queue with m_enqueuePos := queue.m_enqueuePos + 1 } _) slot _ _ _ _

theorem popped_cell (slot : ∀ pos, queue.slot pos = pos % cap) (other : ℕ) :
    (popped queue thread).cell other =
      if other ≡ queue.m_dequeuePos [MOD cap] then
        ⟨queue.m_dequeuePos + queue.m_mask + 1, (queue.cell queue.m_dequeuePos).data⟩
      else queue.cell other :=
  @Queue.setCell_cell _ _ _ (Queue.record { queue with m_dequeuePos := queue.m_dequeuePos + 1 } _) slot _ _ _

namespace Holds

/-- With room left, the next cell is free, and a push puts its value there. -/
theorem push (holds : Holds cap queue stored) (thread : τ) (value : T) (room : stored.length < cap) :
    Serves thread queue (.push value) .pushed (pushed queue thread value) ∧
      Holds cap (pushed queue thread value) (stored ++ [value]) := by
  have turn := holds.free stored.length le_rfl room
  rw [← holds.enqueuePos] at turn
  have apart {i : ℕ} (bound : i < cap) (other : i ≠ stored.length) :
      ¬ queue.m_dequeuePos + i ≡ queue.m_enqueuePos [MOD cap] := by
    rw [holds.enqueuePos]
    intro same
    rcases Nat.lt_or_ge i stored.length with below | above
    · have := modEq_eq same (by omega) (by omega)
      omega
    · have := modEq_eq same.symm (by omega) (by omega)
      omega
  refine ⟨serves_pushed thread value turn, holds.mask, holds.slot, ?_, ?_, fun i bound => ?_, fun i low high => ?_⟩
  · rw [List.length_append, List.length_singleton, ← Nat.add_assoc]
    exact congrArg (· + 1) holds.enqueuePos
  · rw [List.length_append, List.length_singleton]
    exact room
  · rw [List.length_append, List.length_singleton] at bound
    change (pushed queue thread value).cell (queue.m_dequeuePos + i) = _
    rw [pushed_cell holds.slot]
    rcases Nat.lt_succ_iff_lt_or_eq.mp bound with before | rfl
    · rw [if_neg (apart (by omega) (by omega)), holds.taken i before, List.getElem_append_left before]
      rfl
    · rw [← holds.enqueuePos, if_pos (Nat.ModEq.refl _), List.getElem_concat_length rfl, holds.enqueuePos]
      rfl
  · rw [List.length_append, List.length_singleton] at low
    change ((pushed queue thread value).cell (queue.m_dequeuePos + i)).sequence = _
    rw [pushed_cell holds.slot, if_neg (apart high (by omega))]
    exact holds.free i (by omega) high

/-- With two cells or more, the oldest value stands in the cell of the next push and turns it away. -/
theorem pushFull (holds : Holds cap queue stored) (wide : 2 ≤ cap) (thread : τ) (value : T)
    (full : stored.length = cap) :
    Serves thread queue (.push value) .full (queue.record (.pushFull thread value)) ∧
      Holds cap (queue.record (.pushFull thread value)) stored := by
  have oldest := congrArg Cell.sequence (holds.taken 0 (by omega))
  have around : queue.cell queue.m_enqueuePos = queue.cell (queue.m_dequeuePos + 0) := by
    simp only [Queue.cell, holds.slot, holds.enqueuePos, full, Nat.add_mod_right, Nat.add_zero]
  refine ⟨serves_full thread value ?_, holds.mask, holds.slot, holds.enqueuePos, holds.fits, holds.taken, holds.free⟩
  rw [around, oldest, holds.enqueuePos]
  dsimp only
  omega

theorem pop {value : T} (holds : Holds cap queue (value :: stored)) (thread : τ) :
    Serves thread queue .pop (.popped value) (popped queue thread) ∧ Holds cap (popped queue thread) stored := by
  have oldest := holds.taken 0 (Nat.succ_pos _)
  have fits := holds.fits
  have mask := holds.mask
  rw [Nat.add_zero, List.getElem_cons_zero] at oldest
  rw [List.length_cons] at fits
  have apart {i : ℕ} (low : 0 < i) (bound : i < cap) :
      ¬ queue.m_dequeuePos + i ≡ queue.m_dequeuePos [MOD cap] := by
    intro same
    have := modEq_eq same.symm (by omega) (by omega)
    omega
  have turn : (queue.cell queue.m_dequeuePos).sequence = queue.m_dequeuePos + 1 := by rw [oldest]
  have served := serves_popped thread turn
  rw [oldest] at served
  refine ⟨served, holds.mask, holds.slot, ?_, by omega, fun i bound => ?_, fun i low high => ?_⟩
  · have := holds.enqueuePos
    rw [List.length_cons] at this
    change queue.m_enqueuePos = queue.m_dequeuePos + 1 + stored.length
    omega
  · change (popped queue thread).cell (queue.m_dequeuePos + 1 + i) = _
    rw [Nat.add_assoc, Nat.add_comm 1 i, popped_cell holds.slot, if_neg (apart (by omega) (by omega)),
      holds.taken (i + 1) (Nat.succ_lt_succ bound), List.getElem_cons_succ]
    congr 1
    change queue.m_dequeuePos + (i + 1) + 1 = queue.m_dequeuePos + 1 + i + 1
    omega
  · change ((popped queue thread).cell (queue.m_dequeuePos + 1 + i)).sequence = queue.m_dequeuePos + 1 + i
    rw [Nat.add_assoc, Nat.add_comm 1 i, popped_cell holds.slot]
    rcases Nat.lt_or_ge (i + 1) cap with inside | last
    · rw [if_neg (apart (by omega) inside)]
      exact holds.free (i + 1) (Nat.succ_le_succ low) inside
    · obtain rfl : cap = i + 1 := by omega
      rw [if_pos (Nat.add_modEq_right ..)]
      dsimp only
      omega

theorem popEmpty (holds : Holds cap queue []) (some_cell : 1 ≤ cap) (thread : τ) :
    Serves thread queue .pop .empty (queue.record (.popEmpty thread)) ∧
      Holds cap (queue.record (.popEmpty thread)) [] :=
  ⟨serves_empty thread (holds.free 0 le_rfl some_cell).le, holds.mask, holds.slot, holds.enqueuePos,
    holds.fits, holds.taken, holds.free⟩

/-- With one cell, a push finds its turn at a cell that holds a value. -/
theorem pushOverruns (holds : Holds 1 queue stored) (thread : τ) (value : T) (full : stored.length = 1) :
    Serves thread queue (.push value) .pushed (pushed queue thread value) := by
  have oldest := congrArg Cell.sequence (holds.taken 0 (by omega))
  have around : queue.cell queue.m_enqueuePos = queue.cell (queue.m_dequeuePos + 0) := by
    simp only [Queue.cell, holds.slot, Nat.mod_one]
  refine serves_pushed thread value ?_
  rw [around, oldest, holds.enqueuePos]
  dsimp only
  omega

end Holds

/-- A call is served like on a list, unless it is a push on a full queue of one cell. -/
theorem Holds.serves (holds : Holds cap queue stored) (one : 1 ≤ cap) (thread : τ) (call : Fifo.Call T)
    (kept : 2 ≤ cap ∨ Fifo.outcome cap stored call ≠ .full) :
    ∃ next, Serves thread queue call (Fifo.outcome cap stored call) next ∧
      (Fifo.outcome cap stored call = .full ∨ Fifo.outcome cap stored call = .empty →
        next = { queue with log := next.log }) ∧
      Holds cap next (Fifo.after cap stored call) := by
  cases call with
  | push value =>
    by_cases room : stored.length < cap
    · obtain ⟨served, after⟩ := holds.push thread value room
      simp only [Fifo.outcome, Fifo.after, room, if_true]
      exact ⟨_, served, by simp, after⟩
    · have full : stored.length = cap := Nat.le_antisymm holds.fits (Nat.le_of_not_lt room)
      simp only [Fifo.outcome, Fifo.after, room, if_false] at kept ⊢
      obtain ⟨served, after⟩ := holds.pushFull (kept.resolve_right fun other => other rfl) thread value full
      exact ⟨_, served, fun _ => rfl, after⟩
  | pop =>
    cases stored with
    | nil =>
      obtain ⟨served, after⟩ := holds.popEmpty one thread
      exact ⟨_, served, fun _ => rfl, after⟩
    | cons value rest =>
      obtain ⟨served, after⟩ := holds.pop thread
      exact ⟨_, served, by simp [Fifo.outcome], after⟩

/-- On a queue that holds a list, calls behave like calls on a list of at most `cap` values exactly when
there are two cells or more, or no push comes when the one cell is taken. -/
theorem Holds.behaves_iff (holds : Holds cap queue stored) (one : 1 ≤ cap) (thread : τ)
    (calls : List (Fifo.Call T)) :
    Behaves thread cap queue stored calls ↔ 2 ≤ cap ∨ Fifo.NoOverflow cap stored calls := by
  induction calls generalizing queue stored with
  | nil => exact iff_of_true trivial (.inr trivial)
  | cons call rest ih =>
    by_cases kept : 2 ≤ cap ∨ Fifo.outcome cap stored call ≠ .full
    · obtain ⟨next, served, quiet, after⟩ := holds.serves one thread call kept
      have tail := ih after
      constructor
      · rintro ⟨next', served', -, behaves⟩
        obtain ⟨-, rfl⟩ := served.unique served'
        exact (tail.mp behaves).elim .inl fun others => kept.imp_right fun first => ⟨first, others⟩
      · intro allowed
        exact ⟨next, served, quiet, tail.mpr (allowed.imp_right And.right)⟩
    · obtain ⟨narrow, full⟩ := not_or.mp kept
      rw [not_not] at full
      refine iff_of_false ?_ ?_
      · -- the one cell is taken, and the push goes through
        rintro ⟨next, served, -⟩
        obtain rfl : cap = 1 := by omega
        cases call with
        | push value =>
          have taken : stored.length = 1 := by
            have fits := holds.fits
            simp only [Fifo.outcome] at full
            split_ifs at full
            omega
          rw [full] at served
          exact absurd ((holds.pushOverruns thread value taken).unique served).1 (by simp)
        | pop => cases stored <;> cases full
      · rintro (wide | ⟨first, -⟩)
        · exact narrow wide
        · exact first full

/-- Under one thread the queue is a bounded queue in every run at capacity 2 and above, and at capacity
1 in the runs that never push when the cell is taken. -/
theorem one_thread_fifo_iff (k : ℕ) (data : ℕ → T) (thread : τ) (calls : List (Fifo.Call T)) :
    Behaves thread (2 ^ k) (initial (2 ^ k) data) [] calls ↔
      1 ≤ k ∨ Fifo.NoOverflow (2 ^ k) [] calls := by
  have wide : 2 ≤ 2 ^ k ↔ 1 ≤ k := by
    cases k with
    | zero => decide
    | succ k => exact iff_of_true (Nat.pow_succ' ▸ Nat.le_mul_of_pos_right 2 Nat.one_le_two_pow) (Nat.succ_pos k)
  rw [(initial_holds k data).behaves_iff Nat.one_le_two_pow thread calls, wide]

/-- With one cell the second of two pushes returns true. -/
theorem second_push_overruns :
    ¬ Behaves () (2 ^ 0) (initial (2 ^ 0) fun _ => 0) [] [.push 1, .push 2] := by
  rw [(initial_holds 0 fun _ => 0).behaves_iff le_rfl]
  simp [Fifo.NoOverflow, Fifo.outcome, Fifo.after]

end LockFreeCore.LockFreeQueue
