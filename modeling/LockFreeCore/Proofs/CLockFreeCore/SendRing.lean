import LockFreeCore.Proofs.CLockFreeCore.Packets

/-! # The send ring as a queue of packets

As long as every `enqueue` has room for a whole pointer the ring holds whole pointers, so it is read
as a list of packets; the log tells which of them were enqueued and posted for a session.
-/

namespace LockFreeCore.CLockFreeCore

/-- The bytes of a ring that holds whole pointers. -/
def pointers (queue : List Packet) : List Fragment := queue.flatMap pointer

section Pointers

variable {queue : List Packet} {packet : Packet} {n : ℕ} {input : Input}

@[simp] theorem pointers_nil : pointers [] = [] := rfl

@[simp] theorem pointers_cons : pointers (packet :: queue) = pointer packet ++ pointers queue := rfl

theorem pointers_append (first second : List Packet) :
    pointers (first ++ second) = pointers first ++ pointers second := List.flatMap_append

@[simp] theorem length_pointer (packet : Packet) : (pointer packet).length = pointerSize := by
  simp [pointer]

@[simp] theorem length_pointers (queue : List Packet) : (pointers queue).length = pointerSize * queue.length := by
  induction queue with
  | nil => rfl
  | cons packet queue ih =>
    rw [pointers_cons, List.length_append, length_pointer, ih, List.length_cons, Nat.mul_succ, Nat.add_comm]

@[simp] theorem decode_pointer (packet : Packet) : decode (pointer packet) = some packet := by
  have whole : pointer packet = ⟨packet, 0⟩ :: (pointer packet).tail := rfl
  rw [whole, decode, ← whole, if_pos rfl]

theorem enqueue_pointers (room : pointerSize ≤ capacity - (pointers queue).length) :
    enqueue (pointers queue) packet = pointers (queue ++ [packet]) := by
  rw [enqueue, List.take_of_length_le (by rwa [length_pointer]), pointers_append, pointers_cons, pointers_nil,
    List.append_nil]

theorem dequeue_pointers : dequeue (pointers (packet :: queue)) input = (some packet, pointers queue) := by
  have enough : pointerSize ≤ (pointers (packet :: queue)).length := by simp
  unfold dequeue
  rw [if_pos enough, pointers_cons, List.take_left' (length_pointer _), List.drop_left' (length_pointer _),
    decode_pointer]

theorem drop_pointers (n : ℕ) : (pointers queue).drop (pointerSize * n) = pointers (queue.drop n) := by
  induction n generalizing queue with
  | zero => rfl
  | succ n ih =>
    cases queue with
    | nil => simp
    | cons packet queue =>
      have length : pointerSize * (n + 1) = (pointer packet).length + pointerSize * n := by
        rw [length_pointer, Nat.mul_succ, Nat.add_comm]
      rw [pointers_cons, length, List.drop_length_add_append, ih, List.drop_succ_cons]

theorem peek_pointers (enough : n ≤ queue.length) : peek (pointers queue) n input = (queue.take n).map some := by
  have filled : pointerSize * n ≤ (pointers queue).length := by
    rw [length_pointers]
    exact Nat.mul_le_mul_left _ enough
  unfold peek
  rw [if_pos filled]
  apply List.ext_getElem
  · simp [enough]
  · intro i bound _
    have inside : i < queue.length := Nat.lt_of_lt_of_le (by simpa using bound) enough
    rw [List.getElem_map, List.getElem_range, drop_pointers, List.drop_eq_getElem_cons inside, pointers_cons,
      List.take_left' (length_pointer _), decode_pointer, List.getElem_map, List.getElem_take]

end Pointers

/-- The event is about the sending side of the session `id` on slot `k`. -/
def Event.isTraffic (k : ℕ) (id : ℤ) : Event → Bool
  | .enqueued slot owner _ | .posted slot owner _ _ => slot = k ∧ owner = id
  | _ => false

def Event.packet? : Event → Option Packet
  | .enqueued _ _ packet => some packet
  | _ => none

def Event.batch? : Event → Option (List (Option Packet))
  | .posted _ _ _ batch => some batch
  | _ => none

/-- What happened on the sending side of a session, the last event first. -/
def traffic (k : ℕ) (id : ℤ) (log : List Event) : List Event := log.filter (Event.isTraffic k id)

/-- The packets that `sendPacket` returned true for, in order. -/
def enqueuedOn (k : ℕ) (id : ℤ) (log : List Event) : List Packet :=
  (traffic k id log).reverse.filterMap Event.packet?

/-- The packets that were posted, in order. -/
def postedOn (k : ℕ) (id : ℤ) (log : List Event) : List (Option Packet) :=
  ((traffic k id log).reverse.filterMap Event.batch?).flatten

/-- What was posted last. -/
def lastPosted (k : ℕ) (id : ℤ) (log : List Event) : Option (List (Option Packet)) :=
  (traffic k id log).findSome? Event.batch?

section Traffic

variable {k : ℕ} {id : ℤ} {log : List Event} {event : Event}

theorem traffic_cons_of_not (other : event.isTraffic k id = false) : traffic k id (event :: log) = traffic k id log :=
  List.filter_cons_of_neg (by rw [other]; exact Bool.false_ne_true)

theorem traffic_cons (own : event.isTraffic k id) : traffic k id (event :: log) = event :: traffic k id log :=
  List.filter_cons_of_pos own

@[simp] theorem enqueuedOn_enqueued (packet : Packet) :
    enqueuedOn k id (.enqueued k id packet :: log) = enqueuedOn k id log ++ [packet] := by
  rw [enqueuedOn, traffic_cons (by simp [Event.isTraffic])]
  simp [enqueuedOn, Event.packet?]

@[simp] theorem enqueuedOn_posted (socket : ℕ) (batch : List (Option Packet)) :
    enqueuedOn k id (.posted k id socket batch :: log) = enqueuedOn k id log := by
  rw [enqueuedOn, traffic_cons (by simp [Event.isTraffic])]
  simp [enqueuedOn, Event.packet?]

@[simp] theorem postedOn_enqueued (packet : Packet) :
    postedOn k id (.enqueued k id packet :: log) = postedOn k id log := by
  rw [postedOn, traffic_cons (by simp [Event.isTraffic])]
  simp [postedOn, Event.batch?]

@[simp] theorem postedOn_posted (socket : ℕ) (batch : List (Option Packet)) :
    postedOn k id (.posted k id socket batch :: log) = postedOn k id log ++ batch := by
  rw [postedOn, traffic_cons (by simp [Event.isTraffic])]
  simp [postedOn, Event.batch?]

@[simp] theorem lastPosted_enqueued (packet : Packet) :
    lastPosted k id (.enqueued k id packet :: log) = lastPosted k id log := by
  rw [lastPosted, traffic_cons (by simp [Event.isTraffic])]
  rfl

@[simp] theorem lastPosted_posted (socket : ℕ) (batch : List (Option Packet)) :
    lastPosted k id (.posted k id socket batch :: log) = some batch := by
  rw [lastPosted, traffic_cons (by simp [Event.isTraffic])]
  rfl

end Traffic

end LockFreeCore.CLockFreeCore
