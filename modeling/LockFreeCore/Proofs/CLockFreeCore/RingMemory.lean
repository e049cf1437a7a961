import LockFreeCore.Proofs.CLockFreeCore.OneSession
import LockFreeCore.Proofs.CLockFreeCore.SendRing
import LockFreeCore.Proofs.CRingBuff.Fifo
import LockFreeCore.Proofs.SendPacket

/-! # The send ring in memory

A send ring is a `CRingBuff` that holds the bytes of the parts of pointers. What the server does with the parts its
calls do to the ring buffer, as long as no `dequeue` finds less than a whole pointer, and what it reads there are the
bytes of the pointers.
-/

namespace LockFreeCore.CLockFreeCore

open Replay
open LittleEndian (store)
open SendPacket (Pointer bufferSize source linear_source)

/-- The bytes of parts of pointers, for packets at these addresses. -/
def image (address : Packet → Pointer) (parts : List Fragment) : List UInt8 :=
  parts.map fun part => (store (address part.packet)).getD part.byte 0

/-- The ring buffer holds these parts. -/
structure Stores (address : Packet → Pointer) (ring : CRingBuff) (parts : List Fragment) : Prop where
  valid : ring.Valid
  size : ring.m_size = bufferSize
  contents : ring.contents = image address parts

/-- A call that changes a send ring. -/
inductive RingCall where
  | init (allocated : ℤ → UInt8)
  | enqueue (packet : Packet)
  | dequeue

/-- The ring buffer after a call. -/
def RingCall.onRing (address : Packet → Pointer) (ring : CRingBuff) : RingCall → Option CRingBuff
  | .init allocated => some (CRingBuff.init bufferSize allocated)
  | .enqueue packet => (ring.enqueue (some (source (address packet))) pointerSize).map Prod.snd
  | .dequeue => (ring.dequeue pointerSize).map Prod.snd

/-- The parts after a call. -/
def RingCall.onParts (parts : List Fragment) (input : Input) : RingCall → List Fragment
  | .init _ => []
  | .enqueue packet => CLockFreeCore.enqueue parts packet
  | .dequeue => (CLockFreeCore.dequeue parts input).2

/-- The call that a step of the frame makes on the ring of slot `k`; a fresh buffer may hold anything. -/
def Frame.ringCall (allocated : ℤ → UInt8) (k : ℕ) : Frame → Option RingCall
  | .accepting client _ .ring => if client.slot = k then some (.init allocated) else none
  | .sendPacket session packet .enqueue => if session.slot = k then some (.enqueue packet) else none
  | .worker client (.sentTake _) => if client.slot = k then some .dequeue else none
  | .removeSession session _ .take => if session.slot = k then some .dequeue else none
  | _ => none

/-- The one that a step of the machine makes. -/
def ringCalled (allocated : ℤ → UInt8) (k : ℕ) (m : Machine) (label : ℕ × Input) : Option RingCall :=
  (m.top label.1).bind (Frame.ringCall allocated k)

section Image

variable {address : Packet → Pointer} {parts : List Fragment}

@[simp] theorem length_image : (image address parts).length = parts.length := List.length_map _

theorem image_append (first second : List Fragment) :
    image address (first ++ second) = image address first ++ image address second := List.map_append

theorem image_take (n : ℕ) : image address (parts.take n) = (image address parts).take n := List.map_take

theorem image_drop (n : ℕ) : image address (parts.drop n) = (image address parts).drop n := List.map_drop

@[simp] theorem image_pointer (packet : Packet) : image address (pointer packet) = store (address packet) := by
  refine List.ext_getElem (by simp [pointer, pointerSize]) fun i _ inside => ?_
  simp [image, pointer, List.getElem?_eq_getElem inside]

/-- Whole pointers lie in the ring one behind the other. -/
theorem image_pointers (queue : List Packet) : image address (pointers queue) = (queue.map address).flatMap store := by
  induction queue with
  | nil => rfl
  | cons packet queue ih => rw [pointers_cons, image_append, image_pointer, ih, List.map_cons, List.flatMap_cons]

/-- Parts that are a pointer have its bytes. -/
theorem image_of_decode {packet : Packet} (whole : decode parts = some packet) :
    image address parts = store (address packet) := by
  cases parts with
  | nil => cases whole
  | cons first rest =>
    rw [decode] at whole
    split_ifs at whole with same
    rw [same, Option.some.inj whole, image_pointer]

end Image

section Calls

variable {address : Packet → Pointer} {ring : CRingBuff} {parts : List Fragment} {input : Input}

namespace Stores

theorem init (allocated : ℤ → UInt8) : Stores address (CRingBuff.init bufferSize allocated) [] :=
  ⟨CRingBuff.init_valid (by decide) allocated, rfl, CRingBuff.init_contents _ _⟩

theorem useSize (stores : Stores address ring parts) : ring.getUseSize = parts.length := by
  rw [← stores.valid.length_contents, stores.contents, length_image]

theorem length_le (stores : Stores address ring parts) : parts.length ≤ capacity := by
  have bounds := stores.valid.useSize_bounds
  have size : ring.m_size = capacity + 1 := stores.size
  have use := stores.useSize
  omega

theorem freeSize (stores : Stores address ring parts) : ring.getFreeSize = (capacity - parts.length : ℕ) := by
  have most := stores.length_le
  rw [CRingBuff.getFreeSize, stores.size, stores.useSize, Nat.cast_sub most]
  rfl

/-- `enqueue` puts the bytes of a pointer behind the others, as many as there is room for. -/
theorem enqueue (stores : Stores address ring parts) (packet : Packet) :
    ∃ next, ring.enqueue (some (source (address packet))) pointerSize =
        some (min (pointerSize : ℤ) ring.getFreeSize, next) ∧
      Stores address next (CLockFreeCore.enqueue parts packet) := by
  have large : ¬ (ring.m_front = 0 ∧ ring.m_rear = 0 ∧ ring.m_size ≤ pointerSize) := by
    rw [stores.size]
    exact fun small => absurd small.2.2 (by decide)
  obtain ⟨next, ran, contents, -⟩ := stores.valid.enqueue (source (address packet)) (Int.natCast_nonneg _) large
  have called : ring.call (.enqueue (source (address packet)) pointerSize) = some next := by
    rw [CRingBuff.call, ran]
    rfl
  obtain ⟨valid, size⟩ := CRingBuff.call_valid stores.valid called
  have long : (store (address packet)).length = 8 := LittleEndian.length_store _
  have part : (store (address packet)).take (min 8 (capacity - parts.length)) =
      (store (address packet)).take (capacity - parts.length) := by
    rw [← List.take_take, List.take_of_length_le (by rw [List.length_take]; omega)]
  have stored : (min (pointerSize : ℤ) ring.getFreeSize).toNat = min 8 (capacity - parts.length) := by
    rw [stores.freeSize, ← Nat.cast_min, Int.toNat_natCast]
    rfl
  refine ⟨next, ran, valid, size.trans stores.size, ?_⟩
  rw [contents, stores.contents, stored, CLockFreeCore.enqueue, image_append, image_take, image_pointer]
  have copied : Circular.linear (source (address packet)) (0 : ℕ) (min 8 (capacity - parts.length)) =
      ((store (address packet)).drop 0).take (min 8 (capacity - parts.length)) := linear_source (by omega)
  rw [Nat.cast_zero, List.drop_zero] at copied
  rw [copied, part]

/-- `dequeue` takes the bytes of the pointer in front. -/
theorem dequeue (stores : Stores address ring parts) (enough : pointerSize ≤ parts.length) (input : Input) :
    ∃ left, ring.dequeue pointerSize = some (image address (parts.take pointerSize), left) ∧
      Stores address left (CLockFreeCore.dequeue parts input).2 ∧
      ∀ packet, (CLockFreeCore.dequeue parts input).1 = some packet →
        image address (parts.take pointerSize) = store (address packet) := by
  have use := stores.useSize
  obtain ⟨left, ran, valid, size, contents, -⟩ := stores.valid.dequeue (show (pointerSize : ℤ) ≤ ring.getUseSize by omega)
  refine ⟨left, ?_, ?_, ?_⟩
  · rw [ran, stores.contents, image_take]
  · unfold CLockFreeCore.dequeue
    rw [if_pos enough]
    exact ⟨valid, size.trans stores.size, by rw [contents, stores.contents, image_drop]⟩
  · unfold CLockFreeCore.dequeue
    rw [if_pos enough]
    exact fun packet whole => image_of_decode whole

/-- `peek` of `n` pointers reads the bytes of each that it is said to read. -/
theorem peek (stores : Stores address ring parts) {n : ℕ} (enough : pointerSize * n ≤ parts.length) (input : Input) :
    ∃ bytes, ring.peek (pointerSize * n) = some bytes ∧
      ∀ i packet, (CLockFreeCore.peek parts n input)[i]? = some (some packet) →
        (bytes.drop (pointerSize * i)).take pointerSize = store (address packet) := by
  have use := stores.useSize
  have ran := stores.valid.peek (show ((pointerSize * n : ℕ) : ℤ) ≤ ring.getUseSize by omega)
  rw [Nat.cast_mul] at ran
  refine ⟨_, ran, fun i packet read => ?_⟩
  unfold CLockFreeCore.peek at read
  rw [if_pos enough, List.getElem?_map, Option.map_eq_some_iff] at read
  obtain ⟨j, found, whole⟩ := read
  obtain ⟨inside, rfl⟩ := List.getElem?_eq_some_iff.mp found
  rw [List.getElem_range] at whole
  rw [List.length_range] at inside
  rw [stores.contents, ← image_of_decode whole, image_take, image_drop, List.drop_take, List.take_take]
  have room : pointerSize ≤ pointerSize * n - pointerSize * i := by
    rw [← Nat.mul_sub]
    exact Nat.le_mul_of_pos_right _ (Nat.sub_pos_of_lt inside)
  rw [Nat.min_eq_left room]

/-- A call that does not dequeue less than a pointer does the same to the ring buffer and to the parts. -/
theorem call (stores : Stores address ring parts) (made : RingCall) (input : Input)
    (enough : made = .dequeue → pointerSize ≤ parts.length) :
    ∃ next, made.onRing address ring = some next ∧ Stores address next (made.onParts parts input) := by
  cases made with
  | init allocated => exact ⟨_, rfl, .init allocated⟩
  | enqueue packet =>
    obtain ⟨next, ran, stores⟩ := stores.enqueue packet
    exact ⟨next, by rw [RingCall.onRing, ran]; rfl, stores⟩
  | dequeue =>
    obtain ⟨left, ran, stores, -⟩ := stores.dequeue (enough rfl) input
    exact ⟨left, by rw [RingCall.onRing, ran]; rfl, stores⟩

end Stores

end Calls

section Runs

variable {s s' : CLockFreeCore} {frame : Frame} {input : Input} {left : List Frame} {allocated : ℤ → UInt8} {k : ℕ}

/-- The frames that call a ring buffer, each with its call. -/
theorem Frame.ringCall_cases {made : RingCall} (calls : frame.ringCall allocated k = some made) :
    (∃ client socket, frame = .accepting client socket .ring ∧ client.slot = k ∧ made = .init allocated) ∨
    (∃ session packet, frame = .sendPacket session packet .enqueue ∧ session.slot = k ∧ made = .enqueue packet) ∨
    (∃ client i, frame = .worker client (.sentTake i) ∧ client.slot = k ∧ made = .dequeue) ∨
    ∃ session cause, frame = .removeSession session cause .take ∧ session.slot = k ∧ made = .dequeue := by
  unfold Frame.ringCall at calls
  split at calls
  case h_5 => cases calls
  all_goals
    split_ifs at calls with here
    cases calls
  · exact .inl ⟨_, _, rfl, here, rfl⟩
  · exact .inr (.inl ⟨_, _, rfl, here, rfl⟩)
  · exact .inr (.inr (.inl ⟨_, _, rfl, here, rfl⟩))
  · exact .inr (.inr (.inr ⟨_, _, rfl, here, rfl⟩))

/-- A step that makes no call on a ring leaves it alone. -/
theorem exec_ring_of_none (ran : exec s frame input = some (s', left)) (quiet : frame.ringCall allocated k = none) :
    (s'.slots k).m_sendRingBuff = (s.slots k).m_sendRingBuff := by
  by_cases own : frame.slot = some k
  · have writes := exec_writes ran own
    generalize source : s.slots k = x at writes ⊢
    generalize target : s'.slots k = y at writes ⊢
    cases writes with
    | issue slot socket =>
      cases Option.some.inj own
      cases ran
      rw [← target, ← source]
      simp
    | prepare client socket pc _ _ early =>
      cases Option.some.inj own
      rw [← target, ← source]
      cases pc with
      | ring | insert | join | post => simp at early
      | _ =>
        cases ran
        simp
    | ring | enqueue | sentTake | take => exact absurd quiet (by simp [Frame.ringCall, Option.some.inj own])
    | _ => rfl
  · rw [(exec_spec ran).1.slots k own]

/-- A step that makes one does that to the parts. -/
theorem exec_ring_of_some {made : RingCall} (ran : exec s frame input = some (s', left))
    (calls : frame.ringCall allocated k = some made) :
    (s'.slots k).m_sendRingBuff = made.onParts (s.slots k).m_sendRingBuff input := by
  rcases Frame.ringCall_cases calls with ⟨client, socket, rfl, rfl, rfl⟩ | ⟨session, packet, rfl, rfl, rfl⟩ |
    ⟨client, i, rfl, rfl, rfl⟩ | ⟨session, cause, rfl, rfl, rfl⟩
  · cases ran
    simp [RingCall.onParts]
  · cases ran
    simp [record, RingCall.onParts]
  · simp only [exec, worker] at ran
    simp only [RingCall.onParts]
    generalize dequeue (s.slots client.slot).m_sendRingBuff input = taken at ran ⊢
    cases ran
    simp
  · simp only [exec, removeSession] at ran
    simp only [RingCall.onParts]
    generalize dequeue (s.slots session.slot).m_sendRingBuff input = taken at ran ⊢
    cases ran
    simp

variable {address : Packet → Pointer} {ring : CRingBuff} {m target : Machine} {labels : List (ℕ × Input)}

/-- The calls that a run makes on a ring keep a ring buffer that holds its parts, as long as none of them dequeues less
than a pointer. -/
theorem stores_along (stores : Stores address ring (m.shared.slots k).m_sendRingBuff)
    (whole : Along step (fun m label => ringCalled allocated k m label = some .dequeue →
      pointerSize ≤ (m.shared.slots k).m_sendRingBuff.length) m labels)
    (run : replay step m labels = some target) :
    ∃ final, replay (RingCall.onRing address) ring (observed step (ringCalled allocated k) m labels) = some final ∧
      Stores address final (target.shared.slots k).m_sendRingBuff := by
  have initial : ∃ final, replay (RingCall.onRing address) ring [] = some final ∧
      Stores address final (m.shared.slots k).m_sendRingBuff := ⟨ring, rfl, stores⟩
  refine invariant_observed (fun m seen => ∃ final, replay (RingCall.onRing address) ring seen = some final ∧
    Stores address final (m.shared.slots k).m_sendRingBuff) ?_ initial whole run
  rintro m label next seen ⟨final, ran, stores⟩ enough stepped
  obtain ⟨frame, left, others, top, moved, -⟩ := Stacks.step_frames stepped
  have called : ringCalled allocated k m label = frame.ringCall allocated k := by rw [ringCalled, top]; rfl
  rw [called] at enough ⊢
  cases calls : frame.ringCall allocated k with
  | none => exact ⟨final, by rwa [Option.toList_none, List.append_nil], exec_ring_of_none moved calls ▸ stores⟩
  | some made =>
    obtain ⟨last, made', stores⟩ := stores.call made label.2 fun takes => enough (takes ▸ calls)
    exact ⟨last, replay_concat.mpr ⟨final, ran, made'⟩, exec_ring_of_some moved calls ▸ stores⟩

/-- Who dequeues in the life of a session has seen a whole pointer in the ring. -/
theorem Frame.Knows.enough {id : ℤ} (knows : frame.Knows (s.slots k) k id)
    (takes : frame.ringCall allocated k = some .dequeue) : pointerSize ≤ (s.slots k).m_sendRingBuff.length := by
  rcases Frame.ringCall_cases takes with ⟨client, socket, -, -, none⟩ | ⟨session, packet, -, -, none⟩ |
    ⟨client, i, rfl, here, -⟩ | ⟨session, cause, rfl, here, -⟩
  · cases none
  · cases none
  · obtain ⟨more, covers⟩ := knows here
    exact (Nat.le_mul_of_pos_right _ (Nat.sub_pos_of_lt more)).trans covers
  · exact knows here rfl

/-- From the moment its slot is opened the ring of a session is a fresh ring buffer after the calls of the run. -/
theorem Opened.stores {slots : ℕ → Session} {sessionMax workerMax apps socket : ℕ} {first : List (ℕ × Input)} {id : ℤ}
    (reached : replay step (start slots sessionMax workerMax apps) first = some m)
    (opened : Opened m k id socket) (kept : Along step (fun m label => popped m label ≠ some k) m labels)
    (run : replay step m labels = some target) :
    ∃ ring, replay (RingCall.onRing address) (CRingBuff.init bufferSize allocated)
        (observed step (ringCalled allocated k) m labels) = some ring ∧
      Stores address ring (target.shared.slots k).m_sendRingBuff := by
  refine stores_along (opened.ring ▸ .init allocated) (kept.strengthen (fun m => InSession m k id socket)
    (fun _ _ _ inside kept stepped => inside.step kept stepped) (fun m label inside _ takes => ?_)
    (opened.inSession reached)) run
  obtain ⟨frame, top, calls⟩ := Option.bind_eq_some_iff.mp takes
  exact (inside.sends.threads frame (Stacks.mem_frames_of_top top)).enough calls

end Runs

end LockFreeCore.CLockFreeCore
