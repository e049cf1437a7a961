import LockFreeCore.Proofs.CRingBuff
import LockFreeCore.ToMathlib.Fifo

/-! # What `enqueue`, `peek` and `dequeue` make of any request

`enqueue` writes up to the end of the buffer and then, when more is asked for, from its start on.
It stores the bytes that fit and reports their number, except into a ring that is empty with both
indexes at 0, where a request of the whole buffer is let through. `peek` looks for its second part
at all of `getUseSize()` again, so it returns what is stored only to a request that is not larger.
Under the guards of the callers neither happens, and the ring is a bounded queue of bytes.
-/

namespace LockFreeCore.CRingBuff

open Replay

/-- A call on the ring, with any size. -/
inductive Call where
  | enqueue (source : ℤ → UInt8) (size : ℤ)
  | peek (size : ℤ)
  | dequeue (size : ℤ)

variable {ring : CRingBuff}

/-- The ring after a call. -/
def call (ring : CRingBuff) : Call → Option CRingBuff
  | .enqueue source size => (ring.enqueue (some source) size).map Prod.snd
  | .peek size => (ring.peek size).map fun _ => ring
  | .dequeue size => (ring.dequeue size).map Prod.snd

/-- A copy into the buffer, when it stays inside. -/
theorem store_eq {index : ℤ} {count : ℕ} (source : ℤ → UInt8) (offset : ℤ) (low : 0 ≤ index)
    (high : index + count ≤ ring.m_size) :
    ring.store index count source offset = some (ring.written index (Circular.linear source offset count)) := by
  rw [CRingBuff.store, if_pos ⟨by omega, low, high⟩, Int.toNat_natCast]
  rfl

theorem store_some {index size offset : ℤ} {source : ℤ → UInt8} {next : CRingBuff}
    (stored : ring.store index size source offset = some next) :
    0 ≤ size ∧ next = ring.written index (Circular.linear source offset size.toNat) := by
  rw [CRingBuff.store] at stored
  split_ifs at stored with inside
  exact ⟨inside.1, (Option.some.inj stored).symm⟩

namespace Valid

/-- `enqueue` of no more than can be written at once. -/
theorem enqueue_once (valid : ring.Valid) (source : ℤ → UInt8) {count : ℕ} (asked : count ≠ 0)
    (free : ring.isFull = false) (fits : (count : ℤ) ≤ ring.getDirectWriteSize) :
    ring.enqueue (some source) count = some ((count : ℤ), ring.appended (Circular.linear source 0 count)) := by
  have direct := valid.directWriteSize
  have inside : ring.m_rear + count ≤ ring.m_size := by
    obtain ⟨_, _, _, _, _⟩ := valid
    split_ifs at direct <;> omega
  have busy : ¬ ((count : ℤ) = 0 ∨ ring.isFull = true) := by simp [asked, free]
  simp only [CRingBuff.enqueue, busy, if_false, fits, if_true, valid.tmod_rear,
    store_eq source 0 valid.rearLow inside, Option.map_some]
  rw [CRingBuff.appended, Circular.length_linear]

/-- When more is asked for than can be written at once, the first part fills the ring or ends with
the buffer. -/
theorem first_part (valid : ring.Valid) {count head : ℕ} {bytes : List UInt8} (length : bytes.length = head)
    (free : ring.isFull = false) (direct : ring.getDirectWriteSize = head) (more : head < count)
    (partly : ¬ (ring.m_front = 0 ∧ ring.m_rear = 0 ∧ ring.m_size ≤ count)) :
    (ring.appended bytes).isFull = true ∨
      (ring.m_rear + head = ring.m_size ∧ (ring.appended bytes).m_rear = 0 ∧ 2 ≤ ring.m_front) := by
  have writeSize := valid.directWriteSize
  simp only [isFull, decide_eq_true_eq, appended_m_front, appended_m_rear, appended_m_size, length]
  by_cases ended : ring.m_rear + head = ring.m_size
  · rw [ended, Int.tmod_self]
    simp only [isFull, decide_eq_false_iff_not] at free
    obtain ⟨_, _, _, _, _⟩ := valid
    split_ifs at writeSize <;> omega
  · left
    have inside : ring.m_rear + head < ring.m_size := by
      obtain ⟨_, _, _, _, _⟩ := valid
      split_ifs at writeSize <;> omega
    rw [Int.tmod_eq_of_lt (by have := valid.rearLow; omega) inside]
    obtain ⟨_, _, _, _, _⟩ := valid
    split_ifs at writeSize <;> omega

/-- `enqueue` of more than can be written at once stops when that fills the ring, and goes on from
the start of the buffer otherwise. -/
theorem enqueue_twice (valid : ring.Valid) (source : ℤ → UInt8) {count head : ℕ}
    (free : ring.isFull = false) (direct : ring.getDirectWriteSize = head) (more : head < count)
    (partly : ¬ (ring.m_front = 0 ∧ ring.m_rear = 0 ∧ ring.m_size ≤ count)) :
    ring.enqueue (some source) count =
      if (ring.appended (Circular.linear source 0 head)).isFull then
        some ((head : ℤ), ring.appended (Circular.linear source 0 head))
      else
        let tail := min (count - head) (ring.m_front - 1).toNat
        some (((head + tail : ℕ) : ℤ),
          (ring.appended (Circular.linear source 0 head)).appended (Circular.linear source head tail)) := by
  have part := valid.first_part (@Circular.length_linear _ source 0 head) free direct more partly
  have inside : ring.m_rear + head ≤ ring.m_size := by
    have writeSize := valid.directWriteSize
    obtain ⟨_, _, _, _, _⟩ := valid
    split_ifs at writeSize <;> omega
  have busy : ¬ ((count : ℤ) = 0 ∨ ring.isFull = true) := by
    rintro (none | full)
    · omega
    · exact absurd (free.symm.trans full) (by decide)
  have large : ¬ (count : ℤ) ≤ head := by omega
  have full : ring.m_front = (ring.m_rear + head).tmod ring.m_size + 1 ∨
      (ring.m_front = 0 ∧ (ring.m_rear + head).tmod ring.m_size = ring.m_size - 1) ↔
      (ring.appended (Circular.linear source 0 head)).isFull = true := by simp [isFull]
  have first : (ring.written ring.m_rear (Circular.linear source 0 head)).moveRearPos head =
      ring.appended (Circular.linear source 0 head) := by rw [CRingBuff.appended, Circular.length_linear]
  simp only [CRingBuff.enqueue, busy, if_false, direct, large, valid.tmod_rear,
    store_eq source 0 valid.rearLow inside, Option.bind_some, first]
  rw [written_m_front, written_m_rear, written_m_size]
  simp only [full]
  by_cases whole : (ring.appended (Circular.linear source 0 head)).isFull = true
  · rw [if_pos whole, if_pos whole]
  · obtain ⟨ended, -, behind⟩ := part.resolve_left whole
    have bounds := valid.frontHigh
    have home : (ring.m_rear + head).tmod ring.m_size = 0 := by rw [ended, Int.tmod_self]
    obtain ⟨tail, room⟩ : ∃ tail : ℕ, tail = min (count - head) (ring.m_front - 1).toNat := ⟨_, rfl⟩
    have rest : (if (count : ℤ) - head ≤ ring.m_front - 1 then (count : ℤ) - head else ring.m_front - 1) =
        tail := by split_ifs <;> omega
    have around : (ring.m_rear + (tail + head)).tmod ring.m_size = (tail : ℤ).tmod ring.m_size := by
      rw [show ring.m_rear + ((tail : ℤ) + head) = ring.m_size + tail by omega,
        Int.tmod_eq_emod_of_nonneg (by omega), Int.tmod_eq_emod_of_nonneg (by omega), Int.add_emod_left]
    rw [if_neg whole, if_neg whole, rest, home, Int.zero_tmod,
      store_eq _ _ (Int.le_refl 0) (by rw [written_m_size]; omega), Option.map_some, ← room]
    simp only [CRingBuff.appended, CRingBuff.moveRearPos, CRingBuff.written, Circular.length_linear, home,
      around, zero_add, Int.natCast_add]

/-- `enqueue` stores the bytes that fit, unless it is asked for the whole buffer at index 0. -/
theorem enqueue (valid : ring.Valid) (source : ℤ → UInt8) {size : ℤ} (nonneg : 0 ≤ size)
    (partly : ¬ (ring.m_front = 0 ∧ ring.m_rear = 0 ∧ ring.m_size ≤ size)) :
    ∃ next, ring.enqueue (some source) size = some (min size ring.getFreeSize, next) ∧
      next.contents = ring.contents ++ Circular.linear source 0 (min size ring.getFreeSize).toNat ∧
      next.getUseSize = ring.getUseSize + min size ring.getFreeSize := by
  obtain ⟨count, rfl⟩ := Int.eq_ofNat_of_zero_le nonneg
  have bounds := valid.useSize_bounds
  have use := valid.useSize
  have room : ring.getFreeSize = ring.m_size - 1 - ring.getUseSize := rfl
  by_cases quiet : count = 0 ∨ ring.isFull = true
  · have nothing : min (count : ℤ) ring.getFreeSize = 0 := by
      rcases quiet with rfl | full
      · omega
      · simp only [isFull, decide_eq_true_eq] at full
        obtain ⟨_, _, _, _, _⟩ := valid
        split_ifs at use <;> omega
    refine ⟨ring, ?_, by simp [nothing], by rw [nothing, add_zero]⟩
    have idle : (count : ℤ) = 0 ∨ ring.isFull = true := quiet.imp_left fun none => by rw [none]; rfl
    simp only [CRingBuff.enqueue, idle, if_true, nothing]
  · obtain ⟨asked, free⟩ := not_or.mp quiet
    rw [Bool.not_eq_true] at free
    have writeSize := valid.directWriteSize
    by_cases fits : (count : ℤ) ≤ ring.getDirectWriteSize
    · have stored : (count : ℤ) ≤ ring.getFreeSize ∧ ring.m_rear + count ≤ ring.m_size := by
        obtain ⟨_, _, _, _, _⟩ := valid
        split_ifs at writeSize use <;> omega
      have all : min (count : ℤ) ring.getFreeSize = count := by omega
      have long : (Circular.linear source 0 count).length = count := Circular.length_linear
      rw [all, Int.toNat_natCast, valid.enqueue_once source asked free fits]
      refine ⟨_, rfl, valid.appended_contents (by omega) (by omega), ?_⟩
      rw [valid.appended_useSize (by omega), long]
    · obtain ⟨head, direct⟩ := Int.eq_ofNat_of_zero_le (show 0 ≤ ring.getDirectWriteSize by
        obtain ⟨_, _, _, _, _⟩ := valid
        split_ifs at writeSize <;> omega)
      have more : head < count := by omega
      have long : (Circular.linear source 0 head).length = head := Circular.length_linear
      have part := valid.first_part long free direct more partly
      have stored : (head : ℤ) ≤ ring.getFreeSize ∧ ring.m_rear + head ≤ ring.m_size := by
        obtain ⟨_, _, _, _, _⟩ := valid
        split_ifs at writeSize use <;> omega
      have next := valid.appended (Circular.linear source 0 head)
      have room : ((Circular.linear source 0 head).length : ℤ) ≤ ring.getFreeSize := by omega
      have grown := valid.appended_useSize room
      have after := valid.appended_contents (by omega) room
      have used := next.useSize
      rw [long] at grown
      rw [valid.enqueue_twice source free direct more partly]
      by_cases whole : (ring.appended (Circular.linear source 0 head)).isFull = true
      · have all : min (count : ℤ) ring.getFreeSize = head := by
          rw [isFull, decide_eq_true_iff, appended_m_front, appended_m_size] at whole
          rw [appended_m_front, appended_m_size] at used
          obtain ⟨_, _, _, _, _⟩ := valid
          split_ifs at used <;> omega
        rw [if_pos whole, all, Int.toNat_natCast]
        exact ⟨_, rfl, after, grown⟩
      · obtain ⟨ended, home, behind⟩ := part.resolve_left whole
        obtain ⟨tail, rest⟩ : ∃ tail : ℕ, tail = min (count - head) (ring.m_front - 1).toNat := ⟨_, rfl⟩
        have left : (ring.appended (Circular.linear source 0 head)).getFreeSize = ring.m_front - 1 := by
          rw [if_neg (by rw [home, appended_m_front]; omega), home, appended_m_size, appended_m_front] at used
          rw [getFreeSize, used, appended_m_size]
          omega
        have all : min (count : ℤ) ring.getFreeSize = (head + tail : ℕ) := by
          rw [getFreeSize, grown, appended_m_size] at left
          omega
        have second : (Circular.linear source head tail).length = tail := Circular.length_linear
        have low := valid.frontHigh
        rw [if_neg whole, all, ← rest, Int.toNat_natCast]
        refine ⟨_, rfl, ?_, ?_⟩
        · rw [next.appended_contents (by rw [home, second, appended_m_size]; omega) (by omega), after,
            List.append_assoc, Circular.linear_add, zero_add]
        · rw [next.appended_useSize (by omega), grown, second, Int.natCast_add, add_assoc]

end Valid

/-- A call with any size keeps the indexes inside the buffer. -/
theorem call_valid {made : Call} {next : CRingBuff} (valid : ring.Valid)
    (called : ring.call made = some next) : next.Valid ∧ next.m_size = ring.m_size := by
  cases made with
  | enqueue source size =>
    obtain ⟨⟨stored, _⟩, done, rfl⟩ := Option.map_eq_some_iff.mp called
    simp only [enqueue] at done
    split_ifs at done with idle once
    · cases done
      exact ⟨valid, rfl⟩
    · obtain ⟨_, written, same⟩ := Option.map_eq_some_iff.mp done
      obtain ⟨forward, rfl⟩ := store_some written
      cases same
      exact ⟨(valid.written _ _).moveRearPos forward, rfl⟩
    · obtain ⟨_, written, rest⟩ := Option.bind_eq_some_iff.mp done
      obtain ⟨forward, rfl⟩ := store_some written
      split_ifs at rest with full
      · cases rest
        exact ⟨(valid.written _ _).moveRearPos forward, rfl⟩
      all_goals
        obtain ⟨_, written', same⟩ := Option.map_eq_some_iff.mp rest
        obtain ⟨forward', rfl⟩ := store_some written'
        cases same
        exact ⟨((valid.written _ _).written _ _).moveRearPos (by omega), rfl⟩
  | peek size =>
    obtain ⟨_, _, rfl⟩ := Option.map_eq_some_iff.mp called
    exact ⟨valid, rfl⟩
  | dequeue size =>
    obtain ⟨_, done, rfl⟩ := Option.map_eq_some_iff.mp called
    obtain ⟨bytes, _, rfl⟩ := Option.map_eq_some_iff.mp done
    exact ⟨valid.moveFrontPos (by omega), rfl⟩

/-- What the callers check before a call: room for what is enqueued, and no more read than stored. -/
def Guarded (ring : CRingBuff) : Call → Prop
  | .enqueue _ size => 0 ≤ size ∧ size ≤ ring.getFreeSize
  | .peek size => 0 ≤ size ∧ size ≤ ring.getUseSize
  | .dequeue size => 0 ≤ size ∧ size ≤ ring.getUseSize

instance decidableGuarded (ring : CRingBuff) : (made : Call) → Decidable (ring.Guarded made)
  | .enqueue _ size => inferInstanceAs (Decidable (0 ≤ size ∧ size ≤ ring.getFreeSize))
  | .peek size => inferInstanceAs (Decidable (0 ≤ size ∧ size ≤ ring.getUseSize))
  | .dequeue size => inferInstanceAs (Decidable (0 ≤ size ∧ size ≤ ring.getUseSize))

/-- A call reports exactly the number of bytes it was asked for. -/
def Exact (ring : CRingBuff) : Call → Prop
  | .enqueue source size => ∃ next, ring.enqueue (some source) size = some (size, next)
  | .peek size => ∃ bytes, ring.peek size = some bytes ∧ bytes.length = size
  | .dequeue size => ∃ bytes left, ring.dequeue size = some (bytes, left) ∧ bytes.length = size

/-- The bytes of the source that a call reports as stored. -/
def enqueued (ring : CRingBuff) : Call → List UInt8
  | .enqueue source size =>
      ((ring.enqueue (some source) size).map fun done => Circular.linear source 0 done.1.toNat).getD []
  | .peek _ => []
  | .dequeue _ => []

/-- The bytes that a call takes out. -/
def dequeued (ring : CRingBuff) : Call → List UInt8
  | .enqueue _ _ => []
  | .peek _ => []
  | .dequeue size => ((ring.dequeue size).map Prod.fst).getD []

end LockFreeCore.CRingBuff
