import LockFreeCore.Model.SendPacket
import LockFreeCore.Proofs.CRingBuff
import Mathlib.Data.Fintype.Basic

/-! # What unlocked sends keep

Nothing orders the senders of a session against each other, so the ring keeps its pointers only in
runs where every copy of a pointer meets three conditions: the bytes go where `m_rear` stands, they
go to free cells, and no other sender has bytes there that `m_rear` does not cover yet. Under these
the stale indexes that a sender may have read before do no harm, and the ring is the queue of the
pointers that were enqueued and not dequeued.
-/

namespace LockFreeCore.SendPacket

open LittleEndian (store)

/-! ## Reading the indexes -/

/-- A place of a pointer in the ring. -/
def Aligned (index : ℤ) : Prop := 0 ≤ index ∧ index < 30000 ∧ 8 ∣ index

/-- Undisturbed, the reads of `isFull` give `isFull`. -/
theorem run_isFull (ring : CRingBuff) : (isFull ring.m_size).run (indexes ring) = ring.isFull := by
  simp only [isFull, m_front, m_rear, Reads.run_read, Reads.run_ite, Reads.run_done]
  change (if ring.m_front = ring.m_rear + 1 then true
    else if ring.m_front = 0 then decide (ring.m_rear = ring.m_size - 1) else false) = ring.isFull
  rw [CRingBuff.isFull]
  split_ifs with next home
  · simp [next]
  · have := next
    rw [home] at this
    simp [home, this]
  · simp [next, home]

theorem run_isEmpty (ring : CRingBuff) : isEmpty.run (indexes ring) = ring.isEmpty := rfl

theorem run_getFreeSize (ring : CRingBuff) :
    (getFreeSize ring.m_size).run (indexes ring) = ring.getFreeSize := by
  simp only [getFreeSize, getUseSize, m_front, m_rear, Reads.run_bind, Reads.run_ite, Reads.run_read,
    Reads.run_done]
  simp only [run_isEmpty, run_isFull]
  rfl

theorem run_getDirectWriteSize (ring : CRingBuff) :
    (getDirectWriteSize ring.m_size).run (indexes ring) = ring.getDirectWriteSize := by
  simp only [getDirectWriteSize, m_front, m_rear, Reads.run_bind, Reads.run_ite, Reads.run_read,
    Reads.run_done]
  simp only [run_isEmpty, run_isFull]
  rfl

/-- A ring of pointers never looks full, whatever indexes are read: one cell stays free. -/
theorem isFull_all : (isFull 30000).All Aligned (· = false) := by
  intro front ⟨_, _, _⟩ rear ⟨_, _, _⟩
  beta_reduce
  rw [if_neg (by omega)]
  intro front ⟨_, _, _⟩
  beta_reduce
  split_ifs
  · intro rear ⟨_, _, _⟩
    exact decide_eq_false (by omega)
  · rfl

theorem getDirectWriteSize_all : (getDirectWriteSize 30000).All Aligned (0 ≤ ·) := by
  have rest : (m_rear fun rear => .done (30000 - rear)).All Aligned ((0 : ℤ) ≤ ·) := by
    intro rear ⟨_, _, _⟩
    exact (by omega : (0 : ℤ) ≤ 30000 - rear)
  refine isFull_all.bind fun full _ => ?_
  cases full with
  | true => exact Int.le_refl 0
  | false =>
    refine isEmpty.all_true.bind fun empty _ => ?_
    cases empty with
    | true => exact rest
    | false =>
      intro front _ rear _
      dsimp only
      split_ifs with below home past past' back
      · exact Int.le_refl 0
      · exact Int.not_lt.mp past
      · exact Int.le_refl 0
      · exact Int.not_lt.mp past'
      · refine isEmpty.all_true.bind fun empty _ => ?_
        cases empty with
        | true => exact rest
        | false => exact Int.le_refl 0
      · exact Int.not_lt.mp back

/-! ## Threads -/

/-- How many bytes of its pointer a sender has in the ring that `m_rear` does not cover yet. -/
def Thread.copied : Thread → ℤ
  | .sendPacket _ (.tmp_rear writeSize) => writeSize
  | .sendPacket _ (.stops writeSize _ _) => writeSize
  | .sendPacket _ (.curWriteSize writeSize _) => writeSize
  | .sendPacket _ (.copyRest writeSize _ _) => writeSize
  | .sendPacket _ (.moveRearPos size) => size
  | .sendPacket _ (.setRear size _) => size
  | _ => 0

/-- The thread is the one that set `m_isSendPending`. -/
def Thread.holds : Thread → Prop
  | .sendPost .exchange => False
  | .sendPost _ => True
  | .worker (.sent _) => True
  | .worker .done => True
  | _ => False

/-- How many of the stored bytes the thread is still to peek or dequeue. -/
def Thread.wants (count : ℕ) : Thread → ℕ
  | .sendPost .cap => 8 * count
  | .sendPost .peek => 8 * count
  | .sendPost .call => 8 * count
  | .worker (.sent i) => 8 * (count - i)
  | _ => 0

def Thread.bytes : Thread → List UInt8
  | .sendPacket pack _ => store pack
  | _ => []

/-- What a sender knows of its own values, whatever the others do. -/
def Thread.Ready : Thread → Prop
  | .sendPacket _ (.full reads) => reads.All Aligned (· = false)
  | .sendPacket _ (.writeSize reads) => reads.All Aligned (0 ≤ ·)
  | .sendPacket _ (.startindex writeSize) => 0 ≤ writeSize
  | .sendPacket _ (.copyFirst writeSize startindex) => 0 ≤ writeSize ∧ writeSize < 8 ∧ Aligned startindex
  | .sendPacket _ (.tmp_rear writeSize) => 0 ≤ writeSize ∧ writeSize < 8
  | .sendPacket _ (.stops writeSize _ _) => 0 ≤ writeSize ∧ writeSize < 8
  | .sendPacket _ (.curWriteSize writeSize _) => 0 ≤ writeSize ∧ writeSize < 8
  | .sendPacket _ (.copyRest writeSize _ _) => 0 ≤ writeSize ∧ writeSize < 8
  | .sendPacket _ (.moveRearPos size) => size = 8
  | .sendPacket _ (.setRear size _) => size = 8
  | _ => True

section Conditions

variable {τ : Type} (pool : Pool τ Session Thread) (t : τ)

/-- The `size` bytes from `offset` on of the next pointer belong at `index`, the cells up to there
are free, and no other sender has bytes in them. -/
def Vacant (index offset size : ℤ) : Prop :=
  index = (pool.shared.m_sendRingBuff.m_rear + offset).tmod pool.shared.m_sendRingBuff.m_size ∧
  offset + size ≤ pool.shared.m_sendRingBuff.getFreeSize ∧
  ∀ u, u ≠ t → (pool.threads u).copied = 0

/-- A copy goes to vacant cells, and none stops in the middle of a pointer. -/
def Clear (label : τ × Input) : Prop :=
  match pool.threads label.1 with
  | .sendPacket _ (.copy startindex) => Vacant pool label.1 startindex 0 8
  | .sendPacket _ (.copyFirst writeSize startindex) =>
      writeSize = 0 ∨ Vacant pool label.1 startindex 0 writeSize
  | .sendPacket _ (.stops _ _ (.done stops)) => stops = false
  | .sendPacket _ (.copyRest writeSize curindex curWriteSize) =>
      writeSize + curWriteSize = 8 ∧ Vacant pool label.1 curindex writeSize curWriteSize
  | _ => True

variable [DecidableEq τ] [Fintype τ]

instance (index offset size : ℤ) : Decidable (Vacant pool t index offset size) :=
  inferInstanceAs (Decidable (_ ∧ _ ∧ _))

instance (label : τ × Input) : Decidable (Clear pool label) := by
  unfold Clear
  split <;> infer_instance

end Conditions

/-! ## The ring -/

/-- No copy went wrong; the pointers that were enqueued are those that were dequeued, in order, and
then those that the ring holds, each in its own eight bytes; and every peek returned pointers that
were enqueued. -/
structure Kept (s : Session) : Prop where
  defined : s.undefined = false
  stored : ∃ taken left, s.enqueued = taken ++ left ∧ s.dequeued = taken.map store ∧
    s.m_sendRingBuff.contents = left.flatMap store
  peeked : ∀ bytes ∈ s.peeked, ∃ before batch after, s.enqueued = before ++ batch ++ after ∧
    bytes = batch.flatMap store

structure Stored (s : Session) : Prop where
  size : s.m_sendRingBuff.m_size = 30000
  front : Aligned s.m_sendRingBuff.m_front
  rear : Aligned s.m_sendRingBuff.m_rear
  kept : Kept s
  posted : s.inFlight = true → s.m_isSendPending = true ∧
    8 * (s.m_sendPacketCount : ℤ) ≤ s.m_sendRingBuff.getUseSize

structure Local (s : Session) (thread : Thread) : Prop where
  ready : thread.Ready
  /-- The copied bytes lie in free cells behind the rear. -/
  fits : thread.copied ≤ s.m_sendRingBuff.getFreeSize
  copied : Circular.linear s.m_sendRingBuff.m_buffer s.m_sendRingBuff.m_rear thread.copied.toNat =
    thread.bytes.take thread.copied.toNat
  aims : ∀ pack size rear, thread = .sendPacket pack (.setRear size rear) →
    rear = (s.m_sendRingBuff.m_rear + size).tmod s.m_sendRingBuff.m_size
  wants : (thread.wants s.m_sendPacketCount : ℤ) ≤ s.m_sendRingBuff.getUseSize
  holds : thread.holds → s.m_isSendPending = true ∧ s.inFlight = false

variable {s : Session} {thread : Thread}

theorem Stored.valid (stored : Stored s) : s.m_sendRingBuff.Valid := by
  obtain ⟨size, ⟨_, _, _⟩, ⟨_, _, _⟩, _, _⟩ := stored
  constructor <;> omega

theorem Stored.freeSize (stored : Stored s) : 0 ≤ s.m_sendRingBuff.getFreeSize := by
  have := stored.valid.useSize_bounds
  rw [CRingBuff.getFreeSize]
  omega

theorem Thread.wants_of_not_holds {count : ℕ} (free : ¬ thread.holds) : thread.wants count = 0 := by
  unfold Thread.wants
  split <;> first | rfl | exact absurd trivial free

theorem Thread.Ready.not_setRear {pack : Pointer} {size rear : ℤ} (ready : thread.Ready)
    (none : thread.copied = 0) : thread ≠ .sendPacket pack (.setRear size rear) := by
  rintro rfl
  have : size = 8 := ready
  have : size = 0 := none
  omega

/-- A thread with nothing copied and nothing to take. -/
theorem Local.ofReady (stored : Stored s) (ready : thread.Ready) (none : thread.copied = 0)
    (free : ¬ thread.holds) : Local s thread where
  ready := ready
  fits := none ▸ stored.freeSize
  copied := by rw [none]; rfl
  aims := fun _ _ _ at_ => absurd at_ (ready.not_setRear none)
  wants := by
    rw [Thread.wants_of_not_holds free]
    exact stored.valid.useSize_bounds.1
  holds held := absurd held free

/-- What the step of one thread may do to the others: it touches cells behind the rear, or the rear,
only with bytes of its own there, and what the holder of `m_isSendPending` relies on only as that
holder. -/
structure Change (s : Session) (thread : Thread) (s' : Session) (thread' : Thread) : Prop where
  still : thread.copied = 0 → thread'.copied = 0 →
    s'.m_sendRingBuff.m_rear = s.m_sendRingBuff.m_rear ∧
      s'.m_sendRingBuff.m_buffer = s.m_sendRingBuff.m_buffer ∧
      s.m_sendRingBuff.getFreeSize ≤ s'.m_sendRingBuff.getFreeSize
  steady : ¬ thread.holds → s.m_sendRingBuff.getUseSize ≤ s'.m_sendRingBuff.getUseSize ∧
    s'.m_sendPacketCount = s.m_sendPacketCount ∧
    (s.m_isSendPending = true → s'.m_isSendPending = true) ∧ (s'.inFlight = true → s.inFlight = true) ∧
    (thread'.holds → s.m_isSendPending = false ∨ s.inFlight = true)

variable {s' : Session} {thread' other : Thread}

/-- A step that only moves its thread on. -/
theorem Change.same (keeps : thread'.holds → thread.holds) : Change s thread s thread' where
  still _ _ := ⟨rfl, rfl, Int.le_refl _⟩
  steady free := ⟨Int.le_refl _, rfl, id, id, fun held => absurd (keeps held) free⟩

/-- The steps of the others disturb nothing that a thread relies on. -/
theorem Local.undisturbed (stored : Stored s) (stored' : Stored s') (held : Local s other)
    (change : Change s thread s' thread')
    (alone : other.copied = 0 ∨ (thread.copied = 0 ∧ thread'.copied = 0))
    (apart : other.holds → ¬ thread.holds) : Local s' other := by
  have size : s'.m_sendRingBuff.m_size = s.m_sendRingBuff.m_size := stored'.size.trans stored.size.symm
  have room : other.copied ≤ s'.m_sendRingBuff.getFreeSize := by
    rcases alone with none | ⟨before, after⟩
    · rw [none]
      exact stored'.freeSize
    · exact Int.le_trans held.fits (change.still before after).2.2
  refine ⟨held.ready, room, ?_, ?_, ?_, ?_⟩
  · rcases alone with none | ⟨before, after⟩
    · rw [none]
      rfl
    · obtain ⟨rear, buffer, _⟩ := change.still before after
      rw [rear, buffer]
      exact held.copied
  · intro pack n rear at_
    rcases alone with none | ⟨before, after⟩
    · exact absurd at_ (held.ready.not_setRear none)
    · rw [(change.still before after).1, size]
      exact held.aims pack n rear at_
  · by_cases holder : other.holds
    · obtain ⟨use, count, _⟩ := change.steady (apart holder)
      rw [count]
      exact Int.le_trans held.wants use
    · rw [Thread.wants_of_not_holds holder]
      exact stored'.valid.useSize_bounds.1
  · intro holder
    obtain ⟨_, _, pending, flight, _⟩ := change.steady (apart holder)
    obtain ⟨set, none⟩ := held.holds holder
    exact ⟨pending set, Bool.eq_false_iff.mpr fun inFlight => Bool.eq_false_iff.mp none (flight inFlight)⟩

/-! ## Copies -/

theorem linear_source {pack : Pointer} {offset size : ℕ} (whole : offset + size ≤ 8) :
    Circular.linear (source pack) offset size = ((store pack).drop offset).take size := by
  have length : (store pack).length = 8 := LittleEndian.length_store pack
  apply List.ext_getElem
  · simp only [Circular.length_linear, List.length_take, List.length_drop, length]
    omega
  · intro i bound bound'
    rw [Circular.length_linear] at bound
    have index : ((offset : ℤ) + i).toNat = offset + i := by omega
    simp only [Circular.linear, source, List.getElem_map, List.getElem_range, List.getElem_take,
      List.getElem_drop, index]
    rw [List.getD_eq_getElem?_getD, List.getElem?_eq_getElem (by omega), Option.getD_some]

/-- A copy of the bytes from `offset` on, to where they belong. -/
theorem copy_eq (stored : Stored s) (pack : Pointer) {offset size : ℕ} (whole : offset + size ≤ 8) :
    copy s pack (s.m_sendRingBuff.m_rear + offset) size offset = { s with
      m_sendRingBuff := s.m_sendRingBuff.written (s.m_sendRingBuff.m_rear + offset)
        (((store pack).drop offset).take size) } := by
  obtain ⟨_, _, _⟩ := stored.rear
  have inside : s.m_sendRingBuff.m_rear + offset + size ≤ s.m_sendRingBuff.m_size := by
    rw [stored.size]
    omega
  rw [copy, CRingBuff.store, if_pos ⟨by omega, by omega, inside⟩, Int.toNat_natCast, linear_source whole]
  rfl

theorem copy_zero (stored : Stored s) (pack : Pointer) {index : ℤ} (inside : Aligned index) :
    copy s pack index 0 0 = s := by
  obtain ⟨_, _, _⟩ := inside
  have low : index + 0 ≤ s.m_sendRingBuff.m_size := by
    rw [stored.size]
    omega
  rw [copy, CRingBuff.store, if_pos ⟨Int.le_refl 0, by omega, low⟩]
  simp

/-! ## One step of one thread -/

/-- The step keeps the ring and what its thread knows, and a thread that begins to copy is alone. -/
structure Outcome (s : Session) (thread : Thread) (others : Prop) (next : Session × Thread) : Prop where
  stored : Stored next.1
  own : Local next.1 next.2
  change : Change s thread next.1 next.2
  fresh : next.2.copied ≠ 0 → thread.copied ≠ 0 ∨ others

variable {others : Prop}

/-- The thread moves on with nothing copied. -/
theorem Outcome.move (stored : Stored s) (ready : thread'.Ready) (none : thread'.copied = 0)
    (free : ¬ thread'.holds) : Outcome s thread others (s, thread') where
  stored := stored
  own := .ofReady stored ready none free
  change := .same fun held => absurd held free
  fresh some := absurd none some

/-- The thread moves on, its bytes where they were. -/
theorem Outcome.carry (stored : Stored s) (held : Local s thread) (ready : thread'.Ready)
    (same : thread'.copied = thread.copied) (bytes : thread'.bytes = thread.bytes)
    (free : ¬ thread'.holds) (aims : ∀ pack size rear, thread' = .sendPacket pack (.setRear size rear) →
      rear = (s.m_sendRingBuff.m_rear + size).tmod s.m_sendRingBuff.m_size) :
    Outcome s thread others (s, thread') where
  stored := stored
  own := {
    ready := ready
    fits := same ▸ held.fits
    copied := by rw [same, bytes]; exact held.copied
    aims := aims
    wants := by
      rw [Thread.wants_of_not_holds free]
      exact stored.valid.useSize_bounds.1
    holds := fun holder => absurd holder free }
  change := .same fun holder => absurd holder free
  fresh some := .inl (same ▸ some)

/-- The next bytes of the pointer are copied to vacant cells. -/
theorem Outcome.copy (stored : Stored s) (held : Local s thread) {pack : Pointer} {index : ℤ}
    {offset size : ℕ} (whole : offset + size ≤ 8) (before : thread.copied = offset)
    (bytes : 0 < offset → thread.bytes = store pack)
    (place : index = (s.m_sendRingBuff.m_rear + offset).tmod s.m_sendRingBuff.m_size)
    (room : (offset : ℤ) + size ≤ s.m_sendRingBuff.getFreeSize) (alone : others)
    (some : 0 < offset + size) (ready : thread'.Ready) (after : thread'.copied = offset + size)
    (bytes' : thread'.bytes = store pack) (free : ¬ thread'.holds)
    (aims : ∀ pack size rear, thread' ≠ .sendPacket pack (.setRear size rear)) (short : offset < 8) :
    Outcome s thread others (SendPacket.copy s pack index size offset, thread') := by
  have valid := stored.valid
  have length : (store pack).length = 8 := LittleEndian.length_store pack
  have straight : index = s.m_sendRingBuff.m_rear + offset := by
    obtain ⟨_, _, _⟩ := stored.rear
    rw [place, stored.size]
    exact Int.tmod_eq_of_lt (by omega) (by omega)
  set chunk := ((store pack).drop offset).take size
  have long : chunk.length = size := by
    simp only [chunk, List.length_take, List.length_drop, length]
    omega
  rw [straight, copy_eq stored pack whole]
  have contents : (s.m_sendRingBuff.written (s.m_sendRingBuff.m_rear + offset) chunk).contents =
      s.m_sendRingBuff.contents := CRingBuff.written_contents valid (by omega) (by rw [long]; exact room)
  refine ⟨⟨stored.size, stored.front, stored.rear, ⟨stored.kept.defined, ?_, stored.kept.peeked⟩,
      stored.posted⟩, ⟨ready, ?_, ?_, fun pack size rear at_ => absurd at_ (aims pack size rear), ?_,
      fun holder => absurd holder free⟩, ⟨fun _ none => ?_, fun _ => ?_⟩, fun _ => .inr alone⟩
  · obtain ⟨taken, left, enqueued, dequeued, holds⟩ := stored.kept.stored
    exact ⟨taken, left, enqueued, dequeued, contents.trans holds⟩
  · rw [after]
    exact room
  · -- the cells below are as before, and then come those just written
    have count : thread'.copied.toNat = offset + size := by omega
    have below : Circular.linear (Circular.write s.m_sendRingBuff.m_buffer
        (s.m_sendRingBuff.m_rear + offset) chunk) s.m_sendRingBuff.m_rear offset =
        (store pack).take offset := by
      have old := held.copied
      rw [before, Int.toNat_natCast] at old
      have same : Circular.linear (Circular.write s.m_sendRingBuff.m_buffer
          (s.m_sendRingBuff.m_rear + offset) chunk) s.m_sendRingBuff.m_rear offset =
          Circular.linear s.m_sendRingBuff.m_buffer s.m_sendRingBuff.m_rear offset :=
        Circular.linear_congr fun i bound => Circular.write_of_lt (by omega)
      rw [same, old]
      rcases Nat.eq_zero_or_pos offset with zero | positive
      · rw [zero, List.take_zero, List.take_zero]
      · rw [bytes positive]
    have above : Circular.linear (Circular.write s.m_sendRingBuff.m_buffer
        (s.m_sendRingBuff.m_rear + offset) chunk) (s.m_sendRingBuff.m_rear + offset) size = chunk := by
      rw [← long]
      exact Circular.linear_write
    have both : Circular.linear (Circular.write s.m_sendRingBuff.m_buffer
        (s.m_sendRingBuff.m_rear + offset) chunk) s.m_sendRingBuff.m_rear (offset + size) =
        (store pack).take (offset + size) := by
      rw [Circular.linear_add, below, above, List.take_add]
    rw [count, bytes']
    exact both
  · rw [Thread.wants_of_not_holds free]
    exact valid.useSize_bounds.1
  · have none' : thread'.copied = 0 := none
    omega
  · exact ⟨Int.le_refl _, rfl, id, id, fun holder => absurd holder free⟩

/-- The first bytes of a pointer are copied. -/
theorem Outcome.copyStart (stored : Stored s) (held : Local s thread) {pack : Pointer} {index : ℤ}
    {size : ℕ} (some : 0 < size) (short : size ≤ 8) (before : thread.copied = 0)
    (place : index = (s.m_sendRingBuff.m_rear + 0).tmod s.m_sendRingBuff.m_size)
    (room : 0 + size ≤ s.m_sendRingBuff.getFreeSize) (alone : others) (ready : thread'.Ready)
    (after : thread'.copied = size) (bytes' : thread'.bytes = store pack) (free : ¬ thread'.holds)
    (aims : ∀ pack size rear, thread' ≠ .sendPacket pack (.setRear size rear)) :
    Outcome s thread others (SendPacket.copy s pack index size 0, thread') :=
  @Outcome.copy s thread thread' others stored held pack index 0 size (by omega) before
    (fun positive => absurd positive (Nat.lt_irrefl 0)) place room alone (by omega) ready
    (by rw [after, Int.ofNat_zero, zero_add]) bytes' free aims (by omega)

/-- The rear moves over the eight bytes that were copied. -/
theorem Outcome.setRear (stored : Stored s) {pack : Pointer} {size rear : ℤ}
    (held : Local s (.sendPacket pack (.setRear size rear))) :
    Outcome s (.sendPacket pack (.setRear size rear)) others
      (sendPacket s pack (.setRear size rear)) := by
  have valid := stored.valid
  have eight : size = (8 : ℕ) := held.ready
  have long : ((8 : ℕ) : ℤ).toNat = 8 := rfl
  have room : ((8 : ℕ) : ℤ) ≤ s.m_sendRingBuff.getFreeSize := eight ▸ held.fits
  have copied : Circular.linear s.m_sendRingBuff.m_buffer s.m_sendRingBuff.m_rear 8 = store pack := by
    have bytes := held.copied
    change Circular.linear _ _ size.toNat = (store pack).take size.toNat at bytes
    rwa [eight, long, List.take_of_length_le (LittleEndian.length_store pack).le] at bytes
  obtain ⟨_, _, _⟩ := id stored.rear
  have inside : s.m_sendRingBuff.m_rear + (8 : ℕ) ≤ s.m_sendRingBuff.m_size := by
    rw [stored.size]
    omega
  have moved : { s.m_sendRingBuff with m_rear := rear } = s.m_sendRingBuff.moveRearPos (8 : ℕ) := by
    rw [held.aims pack size rear rfl, eight]
    rfl
  have use := CRingBuff.moveRearPos_useSize valid room
  have contents := CRingBuff.moveRearPos_contents valid inside room
  rw [copied] at contents
  rw [SendPacket.sendPacket, moved]
  have stored' : Stored { s with
      m_sendRingBuff := s.m_sendRingBuff.moveRearPos (8 : ℕ), enqueued := s.enqueued ++ [pack] } := by
    refine ⟨stored.size, stored.front, ?_, ⟨stored.kept.defined, ?_, fun bytes member => ?_⟩, fun flight => ?_⟩
    · change Aligned ((s.m_sendRingBuff.m_rear + 8).tmod s.m_sendRingBuff.m_size)
      rw [stored.size, Int.tmod_eq_emod_of_nonneg (by omega)]
      exact ⟨by omega, by omega, by omega⟩
    · obtain ⟨taken, left, enqueued, dequeued, holds⟩ := stored.kept.stored
      refine ⟨taken, left ++ [pack], by rw [enqueued, List.append_assoc], dequeued, ?_⟩
      rw [contents, holds, List.flatMap_append, List.flatMap_singleton]
    · obtain ⟨before, batch, after, enqueued, rfl⟩ := stored.kept.peeked bytes member
      exact ⟨before, batch, after ++ [pack], by rw [enqueued, List.append_assoc], rfl⟩
    · obtain ⟨pending, posted⟩ := stored.posted flight
      refine ⟨pending, Int.le_trans posted ?_⟩
      change _ ≤ (s.m_sendRingBuff.moveRearPos (8 : ℕ)).getUseSize
      omega
  refine ⟨stored', .ofReady stored' trivial rfl id, ⟨fun covered => ?_, fun _ => ?_⟩, absurd rfl⟩
  · have none : size = 0 := covered
    omega
  · refine ⟨?_, rfl, id, id, False.elim⟩
    change _ ≤ (s.m_sendRingBuff.moveRearPos (8 : ℕ)).getUseSize
    omega

/-- The holder of `m_isSendPending` takes a step that leaves the cells behind the rear alone. -/
theorem Outcome.holding (stored' : Stored s') (holder : thread.holds)
    (still : s'.m_sendRingBuff.m_rear = s.m_sendRingBuff.m_rear ∧
      s'.m_sendRingBuff.m_buffer = s.m_sendRingBuff.m_buffer ∧
      s.m_sendRingBuff.getFreeSize ≤ s'.m_sendRingBuff.getFreeSize)
    (ready : thread'.Ready) (none : thread'.copied = 0)
    (wants : (thread'.wants s'.m_sendPacketCount : ℤ) ≤ s'.m_sendRingBuff.getUseSize)
    (holds : thread'.holds → s'.m_isSendPending = true ∧ s'.inFlight = false) :
    Outcome s thread others (s', thread') where
  stored := stored'
  own := ⟨ready, none ▸ stored'.freeSize, by rw [none]; rfl,
    fun _ _ _ at_ => absurd at_ (ready.not_setRear none), wants, holds⟩
  change := ⟨fun _ _ => still, fun free => absurd holder free⟩
  fresh some := absurd none some

theorem length_flatMap_store (pointers : List Pointer) : (pointers.flatMap store).length = 8 * pointers.length := by
  induction pointers with
  | nil => rfl
  | cons pack rest ih =>
    have length : (store pack).length = 8 := LittleEndian.length_store pack
    rw [List.flatMap_cons, List.length_append, ih, length, List.length_cons]
    omega

/-- The bytes of the first pointers are those of the ring up to there. -/
theorem flatMap_store_take (pointers : List Pointer) (n : ℕ) :
    (pointers.flatMap store).take (8 * n) = (pointers.take n).flatMap store := by
  induction n generalizing pointers with
  | zero => rfl
  | succ n ih =>
    cases pointers with
    | nil => simp
    | cons pack rest =>
      have length : (store pack).length = 8 := LittleEndian.length_store pack
      have split : 8 * (n + 1) = (store pack).length + 8 * n := by omega
      rw [List.flatMap_cons, split, List.take_append, List.take_of_length_le (by omega),
        Nat.add_sub_cancel_left, ih, List.take_succ_cons, List.flatMap_cons]

theorem sendPost_step {pc : PostPc} (stored : Stored s) (held : Local s (.sendPost pc)) :
    Outcome s (.sendPost pc) others (sendPost s pc) := by
  have same : s.m_sendRingBuff.m_rear = s.m_sendRingBuff.m_rear ∧
      s.m_sendRingBuff.m_buffer = s.m_sendRingBuff.m_buffer ∧
      s.m_sendRingBuff.getFreeSize ≤ s.m_sendRingBuff.getFreeSize := ⟨rfl, rfl, Int.le_refl _⟩
  have kept := stored.kept
  have bounds := stored.valid.useSize_bounds
  have wants := held.wants
  cases pc with
  | exchange =>
    have stored' : Stored { s with m_isSendPending := true } :=
      ⟨stored.size, stored.front, stored.rear, ⟨kept.defined, kept.stored, kept.peeked⟩,
        fun flight => ⟨rfl, (stored.posted flight).2⟩⟩
    rw [sendPost]
    split_ifs with idle
    · have landed : s.inFlight = false := Bool.eq_false_iff.mpr fun flight =>
        Bool.eq_false_iff.mp idle (stored.posted flight).1
      exact ⟨stored', ⟨trivial, stored'.freeSize, rfl, by rintro _ _ _ ⟨⟩, bounds.1, fun _ => ⟨rfl, landed⟩⟩,
        ⟨fun _ _ => same, fun _ => ⟨Int.le_refl _, rfl, fun _ => rfl, id, fun _ => .inl idle⟩⟩, absurd rfl⟩
    · exact ⟨stored', .ofReady stored' trivial rfl id,
        ⟨fun _ _ => same, fun _ => ⟨Int.le_refl _, rfl, fun _ => rfl, id, False.elim⟩⟩, absurd rfl⟩
  | count =>
    obtain ⟨pending, landed⟩ := held.holds trivial
    have fits : 8 * (s.m_sendRingBuff.getUseSize / pointerSize).toNat ≤ s.m_sendRingBuff.getUseSize := by
      rw [pointerSize]
      omega
    refine .holding ⟨stored.size, stored.front, stored.rear, ⟨kept.defined, kept.stored, kept.peeked⟩,
      fun flight => ?_⟩ trivial same trivial rfl ?_ fun _ => ⟨pending, landed⟩
    · exact absurd flight (Bool.eq_false_iff.mp landed)
    · exact_mod_cast fits
  | cap =>
    obtain ⟨pending, landed⟩ := held.holds trivial
    have fits : ((8 * s.m_sendPacketCount : ℕ) : ℤ) ≤ s.m_sendRingBuff.getUseSize := wants
    rw [sendPost]
    split_ifs with many
    · refine .holding ⟨stored.size, stored.front, stored.rear, ⟨kept.defined, kept.stored, kept.peeked⟩,
        fun flight => ?_⟩ trivial same trivial rfl ?_ fun _ => ⟨pending, landed⟩
      · exact absurd flight (Bool.eq_false_iff.mp landed)
      · change ((8 * 1000 : ℕ) : ℤ) ≤ s.m_sendRingBuff.getUseSize
        omega
    · exact .holding stored trivial same trivial rfl fits fun _ => ⟨pending, landed⟩
  | peek =>
    obtain ⟨pending, landed⟩ := held.holds trivial
    have fits : ((8 * s.m_sendPacketCount : ℕ) : ℤ) ≤ s.m_sendRingBuff.getUseSize := wants
    obtain ⟨taken, left, enqueued, dequeued, contents⟩ := kept.stored
    have size : pointerSize * s.m_sendPacketCount = (8 * s.m_sendPacketCount : ℕ) := by
      rw [pointerSize]
      omega
    rw [sendPost, size, stored.valid.peek fits]
    refine .holding ⟨stored.size, stored.front, stored.rear,
      ⟨kept.defined, ⟨taken, left, enqueued, dequeued, contents⟩, fun bytes member => ?_⟩,
      stored.posted⟩ trivial same trivial rfl fits fun _ => ⟨pending, landed⟩
    rcases List.mem_append.mp member with old | new
    · exact kept.peeked bytes old
    · obtain rfl := List.mem_singleton.mp new
      refine ⟨taken, left.take s.m_sendPacketCount, left.drop s.m_sendPacketCount, ?_, ?_⟩
      · rw [List.append_assoc, List.take_append_drop]
        exact enqueued
      · rw [contents, flatMap_store_take]
  | call =>
    obtain ⟨pending, landed⟩ := held.holds trivial
    have fits : ((8 * s.m_sendPacketCount : ℕ) : ℤ) ≤ s.m_sendRingBuff.getUseSize := wants
    refine .holding ⟨stored.size, stored.front, stored.rear, ⟨kept.defined, kept.stored, kept.peeked⟩,
      fun _ => ⟨pending, ?_⟩⟩ trivial same trivial rfl bounds.1 False.elim
    exact_mod_cast fits

/-- A completion takes the oldest pointer off. -/
theorem Stored.dequeue (stored : Stored s) (landed : s.inFlight = false)
    (room : ((8 : ℕ) : ℤ) ≤ s.m_sendRingBuff.getUseSize) :
    Stored { s with
      m_sendRingBuff := s.m_sendRingBuff.moveFrontPos (8 : ℕ)
      dequeued := s.dequeued ++ [s.m_sendRingBuff.contents.take 8] } := by
  have kept := stored.kept
  obtain ⟨taken, left, enqueued, dequeued, contents⟩ := kept.stored
  have length := stored.valid.length_contents
  rw [contents, length_flatMap_store] at length
  refine ⟨stored.size, ?_, stored.rear, ⟨kept.defined, ?_, kept.peeked⟩, fun flight => ?_⟩
  · obtain ⟨_, _, _⟩ := stored.front
    change Aligned ((s.m_sendRingBuff.m_front + 8).tmod s.m_sendRingBuff.m_size)
    rw [stored.size, Int.tmod_eq_emod_of_nonneg (by omega)]
    exact ⟨by omega, by omega, by omega⟩
  · cases left with
    | nil =>
      rw [List.length_nil] at length
      omega
    | cons pack rest =>
      have whole : (store pack).length = 8 := LittleEndian.length_store pack
      refine ⟨taken ++ [pack], rest, ?_, ?_, ?_⟩
      · rw [List.append_assoc]
        exact enqueued
      · rw [contents, List.flatMap_cons, List.take_left' whole, dequeued, List.map_append, List.map_singleton]
      · rw [stored.valid.moveFrontPos_contents room, contents, List.flatMap_cons, List.drop_left' whole]
  · exact absurd flight (Bool.eq_false_iff.mp landed)

theorem worker_step {pc : SentPc} (stored : Stored s) (held : Local s (.worker pc)) :
    Outcome s (.worker pc) others (worker s pc) := by
  have same : s.m_sendRingBuff.m_rear = s.m_sendRingBuff.m_rear ∧
      s.m_sendRingBuff.m_buffer = s.m_sendRingBuff.m_buffer ∧
      s.m_sendRingBuff.getFreeSize ≤ s.m_sendRingBuff.getFreeSize := ⟨rfl, rfl, Int.le_refl _⟩
  have kept := stored.kept
  have bounds := stored.valid.useSize_bounds
  cases pc with
  | sent i =>
    obtain ⟨pending, landed⟩ := held.holds trivial
    have fits : ((8 * (s.m_sendPacketCount - i) : ℕ) : ℤ) ≤ s.m_sendRingBuff.getUseSize := held.wants
    rw [worker]
    split_ifs with more
    · have room : ((8 : ℕ) : ℤ) ≤ s.m_sendRingBuff.getUseSize := by omega
      have use := stored.valid.moveFrontPos_useSize room
      have took := stored.valid.dequeue_eq room
      have eight : pointerSize = (8 : ℕ) := rfl
      rw [eight, took]
      refine .holding (stored.dequeue landed room) trivial ⟨rfl, rfl, ?_⟩ trivial rfl ?_ fun _ => ⟨pending, landed⟩
      · rw [CRingBuff.getFreeSize, CRingBuff.getFreeSize, use]
        change _ ≤ s.m_sendRingBuff.m_size - 1 - _
        omega
      · change ((8 * (s.m_sendPacketCount - (i + 1)) : ℕ) : ℤ) ≤ (s.m_sendRingBuff.moveFrontPos (8 : ℕ)).getUseSize
        omega
    · exact .holding stored trivial same trivial rfl bounds.1 fun _ => ⟨pending, landed⟩
  | done =>
    obtain ⟨pending, landed⟩ := held.holds trivial
    exact .holding ⟨stored.size, stored.front, stored.rear, ⟨kept.defined, kept.stored, kept.peeked⟩,
      fun flight => absurd flight (Bool.eq_false_iff.mp landed)⟩ trivial same trivial rfl bounds.1 False.elim
  | more =>
    rw [worker]
    split_ifs
    · exact .move stored trivial rfl id
    · exact .move stored trivial rfl id
  | idle =>
    rw [worker]
    split_ifs
    · exact .move stored trivial rfl id
    · exact .move stored trivial rfl id

theorem Stored.cells (stored : Stored s) (name : Index) : Aligned (indexes s.m_sendRingBuff name) := by
  cases name with
  | front => exact stored.front
  | rear => exact stored.rear

section Steps

variable {τ : Type} {pool : Pool τ Session Thread} {t : τ} {input : Input}

/-- No two senders have uncovered bytes in the ring, and no two threads hold `m_isSendPending`. -/
structure Apart (threads : τ → Thread) : Prop where
  copying : ∀ t u, t ≠ u → (threads t).copied = 0 ∨ (threads u).copied = 0
  holding : ∀ t u, t ≠ u → (threads t).holds → ¬ (threads u).holds

theorem sendPacket_step {pack : Pointer} {pc : PacketPc} (stored : Stored pool.shared)
    (held : Local pool.shared (.sendPacket pack pc)) (at_ : pool.threads t = .sendPacket pack pc)
    (clear : Clear pool (t, input)) :
    Outcome pool.shared (.sendPacket pack pc) (∀ u, u ≠ t → (pool.threads u).copied = 0)
      (sendPacket pool.shared pack pc) := by
  have ready := held.ready
  rw [Clear, at_] at clear
  cases pc with
  | free reads =>
    rw [sendPacket]
    refine Reads.All.goOn (R := Outcome _ _ _) stored.cells reads.all_true (fun left _ => .move stored trivial rfl id) fun free _ => ?_
    split_ifs
    · refine .move stored ?_ rfl id
      change (isFull pool.shared.m_sendRingBuff.m_size).All Aligned (· = false)
      rw [stored.size]
      exact isFull_all
    · exact .move stored trivial rfl id
  | full reads =>
    rw [sendPacket]
    refine Reads.All.goOn (R := Outcome _ _ _) stored.cells ready (fun left all => .move stored all rfl id) fun full looks => ?_
    rw [looks]
    refine .move stored ?_ rfl id
    change (getDirectWriteSize pool.shared.m_sendRingBuff.m_size).All Aligned (0 ≤ ·)
    rw [stored.size]
    exact getDirectWriteSize_all
  | writeSize reads =>
    rw [sendPacket]
    exact Reads.All.goOn (R := Outcome _ _ _) stored.cells ready (fun left all => .move stored all rfl id)
      fun writeSize low => .move stored low rfl id
  | startindex writeSize =>
    have low : 0 ≤ writeSize := ready
    rw [sendPacket]
    split_ifs with once
    · exact .move stored trivial rfl id
    · refine .move stored ⟨low, by rw [pointerSize] at once; omega, ?_⟩ rfl id
      rw [stored.valid.tmod_rear]
      exact stored.rear
  | copy startindex =>
    obtain ⟨place, room, alone⟩ := clear
    exact .copyStart stored held (show 0 < 8 by omega) (Nat.le_refl 8) rfl place room alone rfl rfl rfl id
      (by rintro _ _ _ ⟨⟩)
  | copyFirst writeSize startindex =>
    obtain ⟨low, short, inside⟩ := ready
    obtain ⟨size, rfl⟩ := Int.eq_ofNat_of_zero_le low
    rw [sendPacket]
    by_cases none : size = 0
    · subst none
      rw [Int.ofNat_zero, copy_zero stored pack inside]
      exact .move stored ⟨by omega, by omega⟩ rfl id
    · obtain ⟨place, room, alone⟩ := clear.resolve_left (by omega)
      exact .copyStart stored held (by omega) (by omega) rfl place room alone ⟨low, short⟩ rfl rfl id
        (by rintro _ _ _ ⟨⟩)
  | tmp_rear writeSize => exact .carry stored held ready rfl rfl id (by rintro _ _ _ ⟨⟩)
  | stops writeSize tmp_rear reads =>
    cases reads with
    | done stops =>
      obtain rfl : stops = false := clear
      exact .carry stored held ready rfl rfl id (by rintro _ _ _ ⟨⟩)
    | read name rest => exact .carry stored held ready rfl rfl id (by rintro _ _ _ ⟨⟩)
  | curWriteSize writeSize tmp_rear => exact .carry stored held ready rfl rfl id (by rintro _ _ _ ⟨⟩)
  | copyRest writeSize curindex curWriteSize =>
    obtain ⟨low, short⟩ := ready
    obtain ⟨whole, place, room, alone⟩ := clear
    obtain ⟨offset, rfl⟩ := Int.eq_ofNat_of_zero_le low
    obtain ⟨size, rfl⟩ := Int.eq_ofNat_of_zero_le (show 0 ≤ curWriteSize by omega)
    have total : (size : ℤ) + offset = 8 := by omega
    exact .copy stored held (by omega) rfl (fun _ => rfl) place room alone (by omega) total
      (add_comm _ _) rfl id (by rintro _ _ _ ⟨⟩) (by omega)
  | moveRearPos size =>
    refine .carry stored held ready rfl rfl id ?_
    rintro _ _ _ ⟨⟩
    rfl
  | setRear size rear => exact .setRear stored held
  | pending =>
    rw [sendPacket]
    split_ifs
    · exact .move stored trivial rfl id
    · exact .move stored trivial rfl id

theorem exec_step {mine : Thread} {shared : Session} (stored : Stored pool.shared)
    (held : Local pool.shared (pool.threads t)) (clear : Clear pool (t, input))
    (ran : exec pool.shared t (pool.threads t) input = some (shared, mine)) :
    Outcome pool.shared (pool.threads t) (∀ u, u ≠ t → (pool.threads u).copied = 0) (shared, mine) := by
  generalize at_ : pool.threads t = thread at held ran
  cases thread with
  | idle =>
    cases input with
    | go => contradiction
    | sendPacket pack =>
      obtain ⟨rfl, rfl⟩ := Prod.mk.inj (Option.some.inj ran)
      exact .move stored trivial rfl id
    | complete =>
      simp only [exec] at ran
      split_ifs at ran with flight
      obtain ⟨rfl, rfl⟩ := Prod.mk.inj (Option.some.inj ran)
      obtain ⟨pending, posted⟩ := stored.posted flight
      have kept := stored.kept
      have stored' : Stored { pool.shared with inFlight := false } :=
        ⟨stored.size, stored.front, stored.rear, ⟨kept.defined, kept.stored, kept.peeked⟩, Bool.noConfusion⟩
      refine ⟨stored', ⟨trivial, stored'.freeSize, rfl, by rintro _ _ _ ⟨⟩, ?_, fun _ => ⟨pending, rfl⟩⟩,
        ⟨fun _ _ => ⟨rfl, rfl, Int.le_refl _⟩, fun _ => ⟨Int.le_refl _, rfl, id, Bool.noConfusion,
          fun _ => .inr flight⟩⟩, absurd rfl⟩
      change ((8 * (pool.shared.m_sendPacketCount - 0) : ℕ) : ℤ) ≤ pool.shared.m_sendRingBuff.getUseSize
      omega
  | sendPacket pack pc =>
    have next := sendPacket_step stored held at_ clear
    rwa [Option.some.inj ran] at next
  | sendPost pc =>
    have next : Outcome pool.shared _ (∀ u, u ≠ t → (pool.threads u).copied = 0) _ := sendPost_step stored held
    rwa [Option.some.inj ran] at next
  | worker pc =>
    have next : Outcome pool.shared _ (∀ u, u ≠ t → (pool.threads u).copied = 0) _ := worker_step stored held
    rwa [Option.some.inj ran] at next

/-! ## Runs -/

/-- The ring holds the pointers that it should, and every thread knows what it relies on. -/
structure Safe (pool : Pool τ Session Thread) : Prop where
  annotated : Pool.Annotated Stored (fun s _ thread => Local s thread) pool
  apart : Apart pool.threads

theorem start_safe (τ : Type) (allocated : ℤ → UInt8) (m_sendPacketCount : ℕ) :
    Safe (start τ allocated m_sendPacketCount) := by
  have origin : Aligned 0 := ⟨by decide, by decide, by decide⟩
  have stored : Stored (start τ allocated m_sendPacketCount).shared :=
    ⟨rfl, origin, origin, ⟨rfl, ⟨[], [], rfl, rfl, rfl⟩, fun _ member => absurd member List.not_mem_nil⟩, Bool.noConfusion⟩
  exact ⟨⟨stored, fun _ => .ofReady stored trivial rfl id⟩, ⟨fun _ _ _ => .inl rfl, fun _ _ _ held => held.elim⟩⟩

variable [DecidableEq τ]

theorem Apart.update {threads : τ → Thread} (apart : Apart threads) {mine : Thread}
    (copying : mine.copied ≠ 0 → ∀ u, u ≠ t → (threads u).copied = 0)
    (holding : mine.holds → ∀ u, u ≠ t → ¬ (threads u).holds) :
    Apart (Function.update threads t mine) := by
  constructor
  · intro u v differ
    by_cases first : u = t
    · subst first
      rw [Function.update_self, Function.update_of_ne differ.symm]
      exact or_iff_not_imp_left.mpr fun some => copying some v differ.symm
    · rw [Function.update_of_ne first]
      by_cases second : v = t
      · subst second
        rw [Function.update_self]
        exact or_iff_not_imp_right.mpr fun some => copying some u first
      · rw [Function.update_of_ne second]
        exact apart.copying u v differ
  · intro u v differ held held'
    by_cases first : u = t
    · subst first
      rw [Function.update_self] at held
      rw [Function.update_of_ne differ.symm] at held'
      exact holding held v differ.symm held'
    · rw [Function.update_of_ne first] at held
      by_cases second : v = t
      · subst second
        rw [Function.update_self] at held'
        exact holding held' u first held
      · rw [Function.update_of_ne second] at held'
        exact apart.holding u v differ held held'

theorem Safe.step {next : Pool τ Session Thread} {label : τ × Input} (safe : Safe pool)
    (clear : Clear pool label) (stepped : SendPacket.step pool label = some next) : Safe next := by
  have outcome {shared : Session} {mine : Thread}
      (ran : exec pool.shared label.1 (pool.threads label.1) label.2 = some (shared, mine)) :=
    exec_step safe.annotated.shared (safe.annotated.threads label.1) clear ran
  refine ⟨safe.annotated.step ?_ ?_ stepped, ?_⟩
  · intro shared mine ran
    exact ⟨(outcome ran).stored, (outcome ran).own⟩
  · intro shared mine ran u differ held
    have next := outcome ran
    refine held.undisturbed safe.annotated.shared next.stored next.change ?_
      (safe.apart.holding u label.1 differ)
    rcases safe.apart.copying u label.1 differ with none | before
    · exact .inl none
    · by_cases after : mine.copied = 0
      · exact .inr ⟨before, after⟩
      · exact .inl ((next.fresh after).resolve_left (absurd before) u differ)
  · obtain ⟨shared, mine, ran, rfl⟩ := Pool.step_eq_some.mp stepped
    have next := outcome ran
    apply safe.apart.update
    · intro some u differ
      rcases next.fresh some with before | alone
      · exact (safe.apart.copying u label.1 differ).resolve_right before
      · exact alone u differ
    · intro held u differ other
      by_cases holder : (pool.threads label.1).holds
      · exact safe.apart.holding u label.1 differ other holder
      · obtain ⟨_, _, _, _, took⟩ := next.change.steady holder
        obtain ⟨pending, landed⟩ := (safe.annotated.threads u).holds other
        rcases took held with idle | flight
        · exact Bool.eq_false_iff.mp idle pending
        · exact Bool.eq_false_iff.mp landed flight

/-- However many senders and completions interleave: in a run whose copies all go to vacant cells,
and stop nowhere in the middle of a pointer, the ring holds every pointer that was enqueued and not
dequeued, and nothing else is ever peeked or dequeued. -/
theorem sends_kept (τ : Type) [DecidableEq τ] (allocated : ℤ → UInt8) (m_sendPacketCount : ℕ) (labels : List (τ × Input))
    {target : Pool τ Session Thread}
    (clear : Replay.Along step Clear (start τ allocated m_sendPacketCount) labels)
    (run : Replay.replay step (start τ allocated m_sendPacketCount) labels = some target) :
    Kept target.shared :=
  (Replay.invariant Safe (fun _ _ _ safe clear stepped => safe.step clear stepped)
    (start_safe τ allocated m_sendPacketCount) clear run).annotated.shared.kept

end Steps

/-- The second sender reads the sizes before the first one copies, and its start index after the first
has moved the rear. -/
def overlapping : List (Bool × Input) :=
  (false, .sendPacket 1) :: List.replicate 17 (false, .go) ++
    (true, .sendPacket 2) :: List.replicate 16 (true, .go) ++
    List.replicate 9 (false, .go) ++ List.replicate 5 (true, .go) ++
    (false, .complete) :: List.replicate 4 (false, .go)

theorem sends_kept_overlapping : Kept
    ((Replay.replay step (start Bool (fun _ => 0) 0) overlapping).get (by decide)).shared :=
  sends_kept Bool (fun _ => 0) 0 overlapping (by decide) (Option.some_get _).symm

/-- Two senders on an empty ring, both up to the index that `enqueue` starts at. -/
def bothStarted : List (Bool × Input) :=
  (false, .sendPacket 1) :: List.replicate 17 (false, .go) ++
    (true, .sendPacket 2) :: List.replicate 17 (true, .go)

/-- Two senders that both started at index 0: the second pointer is written over the first, and the
ring ends up with a pointer that no one enqueued. -/
theorem senders_overwrite : ∃ labels target,
    Replay.replay step (start Bool (fun _ => 0) 0) labels = some target ∧ ¬ Kept target.shared := by
  let labels := bothStarted ++ List.replicate 4 (false, .go) ++ List.replicate 4 (true, .go)
  have ran : ((Replay.replay step (start Bool (fun _ => 0) 0) labels).map fun pool =>
      (pool.shared.enqueued, pool.shared.dequeued, pool.shared.m_sendRingBuff.contents)) =
      some ([1, 2], [], [2, 0, 0, 0, 0, 0, 0, 0, 0, 0, 0, 0, 0, 0, 0, 0]) := by decide
  obtain ⟨target, run, shows⟩ := Option.map_eq_some_iff.mp ran
  simp only [Prod.mk.injEq] at shows
  obtain ⟨enqueued, dequeued, contents⟩ := shows
  refine ⟨labels, target, run, fun kept => ?_⟩
  obtain ⟨taken, left, split, took, holds⟩ := kept.stored
  rw [dequeued] at took
  obtain rfl := List.map_eq_nil_iff.mp took.symm
  rw [enqueued, List.nil_append] at split
  rw [contents, ← split] at holds
  exact absurd holds (by decide)

end LockFreeCore.SendPacket
