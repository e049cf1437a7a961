import LockFreeCore.Model.CRingBuff
import LockFreeCore.ToMathlib.Replay

/-! # The ring buffer as a bounded queue of bytes

A ring is valid when both indexes lie inside a buffer of at least two cells; its contents are the
used bytes in order, from the front around the end. Each operation within its guard is a queue
operation on the contents. A receive straight into the buffer is one as well, except that on an
empty ring with both indexes at 0 it may fill the whole buffer, which then looks empty.
-/

namespace LockFreeCore.CRingBuff

/-- Both indexes point into a buffer of at least two cells. -/
structure Valid (ring : CRingBuff) : Prop where
  size : 2 ≤ ring.m_size
  frontLow : 0 ≤ ring.m_front
  frontHigh : ring.m_front < ring.m_size
  rearLow : 0 ≤ ring.m_rear
  rearHigh : ring.m_rear < ring.m_size

/-- The stored bytes, oldest first. -/
def contents (ring : CRingBuff) : List UInt8 :=
  Circular.segment ring.m_buffer ring.m_size ring.m_front ring.getUseSize.toNat

variable {ring : CRingBuff}

theorem init_valid {BuffSize : ℤ} (size : 2 ≤ BuffSize) (allocated : ℤ → UInt8) :
    (init BuffSize allocated).Valid := by
  constructor <;> simp only [init] <;> omega

@[simp] theorem init_contents (BuffSize : ℤ) (allocated : ℤ → UInt8) :
    (init BuffSize allocated).contents = [] := by
  simp [contents, getUseSize, isEmpty, init]

/-- A straight copy out of the buffer, when it stays inside. -/
theorem load_eq {index : ℤ} {count : ℕ} (low : 0 ≤ index)
    (high : index + count ≤ ring.m_size) :
    ring.load index count = some (Circular.segment ring.m_buffer ring.m_size index count) := by
  rw [CRingBuff.load, if_pos ⟨by omega, low, high⟩, Int.toNat_natCast,
    Circular.segment_eq_linear low high]

namespace Valid

theorem useSize (valid : ring.Valid) : ring.getUseSize =
    if ring.m_front ≤ ring.m_rear then ring.m_rear - ring.m_front
    else ring.m_size - (ring.m_front - ring.m_rear) := by
  obtain ⟨_, _, _, _, _⟩ := valid
  simp only [getUseSize, isEmpty, isFull, decide_eq_true_eq]
  split_ifs <;> omega

theorem useSize_bounds (valid : ring.Valid) : 0 ≤ ring.getUseSize ∧ ring.getUseSize < ring.m_size := by
  have use := valid.useSize
  obtain ⟨_, _, _, _, _⟩ := valid
  split_ifs at use <;> omega

theorem directWriteSize (valid : ring.Valid) : ring.getDirectWriteSize =
    if ring.m_front = ring.m_rear then ring.m_size - ring.m_rear
    else if ring.m_front < ring.m_rear then
      if ring.m_front = 0 then ring.m_size - 1 - ring.m_rear else ring.m_size - ring.m_rear
    else ring.m_front - 1 - ring.m_rear := by
  obtain ⟨_, _, _, _, _⟩ := valid
  have next : ring.m_rear + 1 < ring.m_size → (ring.m_rear + 1).tmod ring.m_size = ring.m_rear + 1 :=
    fun inside => Int.tmod_eq_of_lt (by omega) inside
  simp only [getDirectWriteSize, isEmpty, isFull, decide_eq_true_eq]
  split_ifs <;> omega

theorem directReadSize (valid : ring.Valid) : ring.getDirectReadSize =
    if ring.m_front ≤ ring.m_rear then ring.m_rear - ring.m_front else ring.m_size - ring.m_front := by
  obtain ⟨_, _, _, _, _⟩ := valid
  simp only [getDirectReadSize, isEmpty, decide_eq_true_eq]
  split_ifs <;> omega

theorem length_contents (valid : ring.Valid) : (ring.contents.length : ℤ) = ring.getUseSize := by
  rw [contents, Circular.length_segment]
  exact Int.toNat_of_nonneg valid.useSize_bounds.1

/-- The used bytes end where the rear stands. -/
theorem front_add_useSize (valid : ring.Valid) :
    (ring.m_front + ring.getUseSize) % ring.m_size = ring.m_rear := by
  have use := valid.useSize
  obtain ⟨_, _, _, _, _⟩ := valid
  rw [Circular.emod_of_lt_two (by split_ifs at use <;> omega) (by split_ifs at use <;> omega)]
  split_ifs at use ⊢ <;> omega

theorem tmod_front (valid : ring.Valid) : ring.m_front.tmod ring.m_size = ring.m_front :=
  Int.tmod_eq_of_lt valid.frontLow valid.frontHigh

theorem tmod_rear (valid : ring.Valid) : ring.m_rear.tmod ring.m_size = ring.m_rear :=
  Int.tmod_eq_of_lt valid.rearLow valid.rearHigh

theorem moveRearPos (valid : ring.Valid) {n : ℤ} (forward : 0 ≤ n) : (ring.moveRearPos n).Valid := by
  obtain ⟨_, _, _, _, _⟩ := valid
  have index : (ring.m_rear + n).tmod ring.m_size = (ring.m_rear + n) % ring.m_size :=
    Int.tmod_eq_emod_of_nonneg (by omega)
  refine ⟨by assumption, by assumption, by assumption, ?_, ?_⟩ <;>
    simp only [CRingBuff.moveRearPos, index]
  · exact Int.emod_nonneg _ (by omega)
  · exact Int.emod_lt_of_pos _ (by omega)

theorem moveFrontPos (valid : ring.Valid) {n : ℤ} (forward : 0 ≤ n) : (ring.moveFrontPos n).Valid := by
  obtain ⟨_, _, _, _, _⟩ := valid
  have index : (ring.m_front + n).tmod ring.m_size = (ring.m_front + n) % ring.m_size :=
    Int.tmod_eq_emod_of_nonneg (by omega)
  refine ⟨by assumption, ?_, ?_, by assumption, by assumption⟩ <;>
    simp only [CRingBuff.moveFrontPos, index]
  · exact Int.emod_nonneg _ (by omega)
  · exact Int.emod_lt_of_pos _ (by omega)

/-- `peek` of no more than is stored returns the oldest bytes. -/
theorem peek (valid : ring.Valid) {count : ℕ} (stored : (count : ℤ) ≤ ring.getUseSize) :
    ring.peek count = some (ring.contents.take count) := by
  have split : ring.contents.take count =
      Circular.segment ring.m_buffer ring.m_size ring.m_front count := by
    have total : ring.getUseSize.toNat = count + (ring.getUseSize.toNat - count) := by omega
    rw [contents, total, Circular.segment_add, List.take_left' Circular.length_segment]
  have use := valid.useSize
  have direct := valid.directReadSize
  have wrapped := valid.tmod_front
  rw [split, CRingBuff.peek, direct, wrapped]
  obtain ⟨_, _, _, _, _⟩ := id valid
  simp only [isEmpty, decide_eq_true_eq]
  by_cases quiet : (count : ℤ) = 0 ∨ ring.m_front = ring.m_rear
  · rw [if_pos quiet]
    obtain rfl : count = 0 := by split_ifs at use <;> omega
    rfl
  · rw [if_neg quiet]
    by_cases once : (count : ℤ) ≤
        if ring.m_front ≤ ring.m_rear then ring.m_rear - ring.m_front else ring.m_size - ring.m_front
    · rw [if_pos once]
      exact load_eq (by omega) (by split_ifs at once <;> omega)
    · -- the bytes wrap: up to the end of the buffer, then on from its start
      rw [if_neg once]
      have turned : ¬ ring.m_front ≤ ring.m_rear := by
        intro straight
        rw [if_pos straight] at once use
        omega
      rw [if_neg turned] at once use ⊢
      obtain ⟨head, toEnd⟩ := Int.eq_ofNat_of_zero_le (show 0 ≤ ring.m_size - ring.m_front by omega)
      have rest : (count : ℤ) - head = (count - head : ℕ) := by omega
      have home : (ring.m_front + head).tmod ring.m_size = 0 := by
        rw [show ring.m_front + head = ring.m_size by omega, Int.tmod_self]
      rw [toEnd, load_eq (by omega) (by omega), Option.bind_some, home, if_pos (by omega), rest,
        load_eq (by omega) (by omega), Option.map_some,
        show count = head + (count - head) by omega, Circular.segment_add,
        show ring.m_front + (head : ℤ) = ring.m_size by omega, Circular.segment_self,
        Nat.add_sub_cancel_left]

theorem dequeue_eq (valid : ring.Valid) {count : ℕ} (stored : (count : ℤ) ≤ ring.getUseSize) :
    ring.dequeue count = some (ring.contents.take count, ring.moveFrontPos count) := by
  have long : (ring.contents.take count).length = count := by
    have := valid.length_contents
    rw [List.length_take]
    omega
  rw [CRingBuff.dequeue, valid.peek stored, Option.map_some, long]

theorem moveFrontPos_useSize (valid : ring.Valid) {count : ℕ} (stored : (count : ℤ) ≤ ring.getUseSize) :
    (ring.moveFrontPos count).getUseSize = ring.getUseSize - count := by
  have moved := valid.moveFrontPos (n := count) (by omega)
  have use := valid.useSize
  have index : (ring.moveFrontPos count).m_front = (ring.m_front + count) % ring.m_size :=
    Int.tmod_eq_emod_of_nonneg (by have := valid.frontLow; omega)
  have rear : (ring.moveFrontPos count).m_rear = ring.m_rear := rfl
  have size : (ring.moveFrontPos count).m_size = ring.m_size := rfl
  rw [moved.useSize, index, rear, size]
  obtain ⟨_, _, _, _, _⟩ := valid
  rw [Circular.emod_of_lt_two (by omega) (by split_ifs at use <;> omega)]
  split_ifs at use ⊢ <;> omega

theorem moveFrontPos_contents (valid : ring.Valid) {count : ℕ} (stored : (count : ℤ) ≤ ring.getUseSize) :
    (ring.moveFrontPos count).contents = ring.contents.drop count := by
  have index : (ring.moveFrontPos count).m_front = (ring.m_front + count) % ring.m_size :=
    Int.tmod_eq_emod_of_nonneg (by have := valid.frontLow; omega)
  have size : (ring.moveFrontPos count).m_size = ring.m_size := rfl
  have total : ring.getUseSize.toNat = count + (ring.getUseSize - count).toNat := by omega
  rw [contents, valid.moveFrontPos_useSize stored, index, size, Circular.segment_emod, contents, total,
    Circular.segment_add, List.drop_left' Circular.length_segment]
  rfl

/-- `dequeue` of no more than is stored takes the oldest bytes off. -/
theorem dequeue (valid : ring.Valid) {count : ℕ} (stored : (count : ℤ) ≤ ring.getUseSize) :
    ∃ left, ring.dequeue count = some (ring.contents.take count, left) ∧ left.Valid ∧
      left.m_size = ring.m_size ∧ left.contents = ring.contents.drop count ∧
      left.getUseSize = ring.getUseSize - count :=
  ⟨ring.moveFrontPos count, valid.dequeue_eq stored, valid.moveFrontPos (by omega), rfl,
    valid.moveFrontPos_contents stored, valid.moveFrontPos_useSize stored⟩

end Valid

/-- The ring after bytes are written at an index. -/
def written (ring : CRingBuff) (index : ℤ) (bytes : List UInt8) : CRingBuff :=
  { ring with m_buffer := Circular.write ring.m_buffer index bytes }

theorem Valid.written (valid : ring.Valid) (index : ℤ) (bytes : List UInt8) :
    (ring.written index bytes).Valid := ⟨valid.1, valid.2, valid.3, valid.4, valid.5⟩

@[simp] theorem written_m_front (index : ℤ) (bytes : List UInt8) :
    (ring.written index bytes).m_front = ring.m_front := rfl

@[simp] theorem written_m_rear (index : ℤ) (bytes : List UInt8) :
    (ring.written index bytes).m_rear = ring.m_rear := rfl

@[simp] theorem written_m_size (index : ℤ) (bytes : List UInt8) :
    (ring.written index bytes).m_size = ring.m_size := rfl

@[simp] theorem written_getUseSize (index : ℤ) (bytes : List UInt8) :
    (ring.written index bytes).getUseSize = ring.getUseSize := rfl

/-- Bytes written behind the rear, where the ring is free, leave the contents alone. -/
theorem written_contents (valid : ring.Valid) {offset : ℤ} {bytes : List UInt8} (low : 0 ≤ offset)
    (room : offset + bytes.length ≤ ring.getFreeSize) :
    (ring.written (ring.m_rear + offset) bytes).contents = ring.contents := by
  refine Circular.segment_write fun i bound => ?_
  have use := valid.useSize
  rw [getFreeSize] at room
  rw [written_getUseSize] at bound
  obtain ⟨_, _, _, _, _⟩ := id valid
  simp only [CRingBuff.written]
  rw [Circular.emod_of_lt_two (by omega) (by split_ifs at use <;> omega)]
  split_ifs at use ⊢ <;> omega

theorem moveRearPos_useSize (valid : ring.Valid) {n : ℕ} (room : n ≤ ring.getFreeSize) :
    (ring.moveRearPos n).getUseSize = ring.getUseSize + n := by
  have moved := valid.moveRearPos (n := n) (by omega)
  have use := valid.useSize
  have index : (ring.moveRearPos n).m_rear = (ring.m_rear + n) % ring.m_size :=
    Int.tmod_eq_emod_of_nonneg (by have := valid.rearLow; omega)
  have front : (ring.moveRearPos n).m_front = ring.m_front := rfl
  have size : (ring.moveRearPos n).m_size = ring.m_size := rfl
  rw [getFreeSize] at room
  rw [moved.useSize, index, front, size]
  obtain ⟨_, _, _, _, _⟩ := valid
  rw [Circular.emod_of_lt_two (by omega) (by split_ifs at use <;> omega)]
  split_ifs at use ⊢ <;> omega

/-- Moving the rear over free cells appends what they hold. -/
theorem moveRearPos_contents (valid : ring.Valid) {n : ℕ} (inside : ring.m_rear + n ≤ ring.m_size)
    (room : n ≤ ring.getFreeSize) :
    (ring.moveRearPos n).contents = ring.contents ++ Circular.linear ring.m_buffer ring.m_rear n := by
  have bounds := valid.useSize_bounds
  have total : (ring.getUseSize + n).toNat = ring.getUseSize.toNat + n := by omega
  have start : ring.m_front + ring.getUseSize.toNat = ring.m_front + ring.getUseSize := by omega
  rw [contents, moveRearPos_useSize valid room, total, contents]
  change Circular.segment ring.m_buffer ring.m_size ring.m_front _ = _
  rw [Circular.segment_add, start, ← @Circular.segment_emod _ _ _ (_ + _), valid.front_add_useSize,
    Circular.segment_eq_linear valid.rearLow inside]

/-- The ring after bytes that stay inside the buffer are put behind the rear. -/
def appended (ring : CRingBuff) (bytes : List UInt8) : CRingBuff :=
  (ring.written ring.m_rear bytes).moveRearPos bytes.length

@[simp] theorem appended_m_front (bytes : List UInt8) : (ring.appended bytes).m_front = ring.m_front := rfl

@[simp] theorem appended_m_size (bytes : List UInt8) : (ring.appended bytes).m_size = ring.m_size := rfl

@[simp] theorem appended_m_rear (bytes : List UInt8) :
    (ring.appended bytes).m_rear = (ring.m_rear + bytes.length).tmod ring.m_size := rfl

namespace Valid

theorem appended (valid : ring.Valid) (bytes : List UInt8) : (ring.appended bytes).Valid :=
  (valid.written _ _).moveRearPos (by omega)

/-- Bytes put into free cells behind the rear follow the contents. -/
theorem appended_contents (valid : ring.Valid) {bytes : List UInt8}
    (inside : ring.m_rear + bytes.length ≤ ring.m_size) (room : (bytes.length : ℤ) ≤ ring.getFreeSize) :
    (ring.appended bytes).contents = ring.contents ++ bytes := by
  have kept : (ring.written ring.m_rear bytes).contents = ring.contents := by
    have := @written_contents ring valid 0 bytes (Int.le_refl 0) (by omega)
    rwa [add_zero] at this
  have stored : Circular.linear (ring.written ring.m_rear bytes).m_buffer ring.m_rear bytes.length = bytes :=
    Circular.linear_write
  calc (ring.appended bytes).contents
      = (ring.written ring.m_rear bytes).contents ++
          Circular.linear (ring.written ring.m_rear bytes).m_buffer ring.m_rear bytes.length :=
        moveRearPos_contents (valid.written _ _) inside room
    _ = ring.contents ++ bytes := by rw [kept, stored]

theorem appended_useSize (valid : ring.Valid) {bytes : List UInt8}
    (room : (bytes.length : ℤ) ≤ ring.getFreeSize) :
    (ring.appended bytes).getUseSize = ring.getUseSize + bytes.length :=
  moveRearPos_useSize (valid.written _ _) room

end Valid

/-- The ring after a receive of `bytes` that stays inside the buffer. -/
theorem directWrite_eq (valid : ring.Valid) {bytes : List UInt8}
    (fits : (bytes.length : ℤ) ≤ ring.getDirectWriteSize) :
    ring.directWrite bytes = some (ring.appended bytes) := by
  have direct := valid.directWriteSize
  have source : Circular.linear (fun i => bytes.getD i.toNat 0) 0 bytes.length = bytes := by
    apply List.ext_getElem (by simp)
    intro i _ bound
    simp [Circular.linear, bound]
  have inside : ring.m_rear + bytes.length ≤ ring.m_size := by
    obtain ⟨_, _, _, _, _⟩ := valid
    split_ifs at direct <;> omega
  rw [directWrite, getUseWriteBuffer, valid.tmod_rear, store,
    if_pos ⟨by omega, valid.rearLow, inside⟩, Int.toNat_natCast, source, Option.map_some]
  rfl

/-- A receive that leaves a cell unused appends its bytes to the contents. -/
theorem directWrite_contents (valid : ring.Valid) {bytes : List UInt8}
    (fits : (bytes.length : ℤ) ≤ ring.getDirectWriteSize) (room : (bytes.length : ℤ) ≤ ring.getFreeSize) :
    ∃ received, ring.directWrite bytes = some received ∧ received.Valid ∧
      received.m_size = ring.m_size ∧ received.contents = ring.contents ++ bytes ∧
      received.getUseSize = ring.getUseSize + bytes.length := by
  have direct := valid.directWriteSize
  have inside : ring.m_rear + bytes.length ≤ ring.m_size := by
    obtain ⟨_, _, _, _, _⟩ := valid
    split_ifs at direct <;> omega
  exact ⟨_, directWrite_eq valid fits, valid.appended bytes, rfl, valid.appended_contents inside room,
    valid.appended_useSize room⟩

end LockFreeCore.CRingBuff
