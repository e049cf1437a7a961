import Mathlib.Data.List.Basic
import Mathlib.Data.List.Range
import Mathlib.Algebra.Group.Int.Defs

/-! # Linear and circular stretches of memory

A stretch of `count` cells read from a start, either straight or around a buffer of `size` cells.
A circular stretch splits at any point, is straight as long as it does not reach the end of the
buffer, and is not changed by a write to cells it does not visit.
-/

namespace Circular

variable {α : Type*}

/-- The `count` cells from `start` on. -/
def linear (cells : ℤ → α) (start : ℤ) (count : ℕ) : List α :=
  (List.range count).map fun i : ℕ => cells (start + i)

/-- The `count` cells from `front` on, around a buffer of `size` cells. -/
def segment (cells : ℤ → α) (size front : ℤ) (count : ℕ) : List α :=
  (List.range count).map fun i : ℕ => cells ((front + i) % size)

/-- Memory after the values are written from `start` on. -/
def write (cells : ℤ → α) (start : ℤ) (values : List α) : ℤ → α := fun i =>
  if start ≤ i then (values[(i - start).toNat]?).getD (cells i) else cells i

variable {cells : ℤ → α} {size front start : ℤ} {count : ℕ} {values : List α}

@[simp] theorem length_linear : (linear cells start count).length = count := by simp [linear]

@[simp] theorem length_segment : (segment cells size front count).length = count := by simp [segment]

@[simp] theorem linear_zero : linear cells start 0 = [] := rfl

@[simp] theorem segment_zero : segment cells size front 0 = [] := rfl

theorem linear_add (m n : ℕ) :
    linear cells start (m + n) = linear cells start m ++ linear cells (start + m) n := by
  simp [linear, List.range_add, Function.comp_def, add_assoc]

/-- A stretch around the buffer can be cut anywhere. -/
theorem segment_add (m n : ℕ) :
    segment cells size front (m + n) =
      segment cells size front m ++ segment cells size (front + m) n := by
  simp [segment, List.range_add, Function.comp_def, add_assoc]

@[simp] theorem segment_emod : segment cells size (front % size) count = segment cells size front count := by
  simp [segment]

/-- The end of the buffer is its start. -/
theorem segment_self : segment cells size size count = segment cells size 0 count := by
  rw [← segment_emod, Int.emod_self]

/-- Before the end of the buffer a circular stretch is a straight one. -/
theorem segment_eq_linear (low : 0 ≤ front) (high : front + count ≤ size) :
    segment cells size front count = linear cells front count := by
  refine List.map_congr_left fun i member => congrArg cells ?_
  have := List.mem_range.mp member
  exact Int.emod_eq_of_lt (by omega) (by omega)

theorem segment_congr {other : ℤ → α}
    (same : ∀ i : ℕ, i < count → cells ((front + i) % size) = other ((front + i) % size)) :
    segment cells size front count = segment other size front count :=
  List.map_congr_left fun i member => same i (List.mem_range.mp member)

theorem linear_congr {other : ℤ → α} {otherStart : ℤ}
    (same : ∀ i : ℕ, i < count → cells (start + i) = other (otherStart + i)) :
    linear cells start count = linear other otherStart count :=
  List.map_congr_left fun i member => same i (List.mem_range.mp member)

theorem write_of_lt {i : ℤ} (below : i < start) : write cells start values i = cells i :=
  if_neg (by omega)

theorem write_of_ge {i : ℤ} (above : start + values.length ≤ i) : write cells start values i = cells i := by
  rw [write, if_pos (by omega), List.getElem?_eq_none (by omega), Option.getD_none]

theorem write_at {i : ℕ} (bound : i < values.length) : write cells start values (start + i) = values[i] := by
  have index : (start + i - start).toNat = i := by omega
  rw [write, if_pos (by omega), index, List.getElem?_eq_getElem bound, Option.getD_some]

@[simp] theorem write_nil : write cells start [] = cells := by
  funext i
  rw [write, List.getElem?_nil, Option.getD_none, ite_self]

/-- Two writes next to each other are one. -/
theorem write_append (first second : List α) :
    write cells start (first ++ second) = write (write cells start first) (start + first.length) second := by
  funext i
  by_cases later : start + first.length ≤ i
  · have index : (i - start).toNat = first.length + (i - (start + first.length)).toNat := by omega
    rw [write, if_pos (by omega), index, List.getElem?_append_right (by omega), Nat.add_sub_cancel_left,
      write, if_pos later, write_of_ge later]
  · have early : write (write cells start first) (start + first.length) second i =
        write cells start first i := write_of_lt (by omega)
    rw [early]
    by_cases below : i < start
    · rw [write_of_lt below, write_of_lt below]
    · rw [write, write, if_pos (by omega), if_pos (by omega), List.getElem?_append_left (by omega)]

/-- What was written is read back. -/
theorem linear_write : linear (write cells start values) start values.length = values := by
  apply List.ext_getElem (by simp)
  intro i _ bound
  simp [linear, write_at bound]

theorem linear_write_of_length (length : values.length = count) :
    linear (write cells start values) start count = values := by
  subst length
  exact linear_write

/-- A write to cells outside a stretch does not change it. -/
theorem segment_write (apart : ∀ i : ℕ, i < count → (front + i) % size < start ∨
    start + values.length ≤ (front + i) % size) :
    segment (write cells start values) size front count = segment cells size front count :=
  segment_congr fun i bound => (apart i bound).elim write_of_lt write_of_ge

/-- The remainder of an index that passes the end of the buffer at most once. -/
theorem emod_of_lt_two {a : ℤ} (low : 0 ≤ a) (high : a < 2 * size) :
    a % size = if a < size then a else a - size := by
  split_ifs with below
  · exact Int.emod_eq_of_lt low below
  · rw [← Int.sub_emod_right, Int.emod_eq_of_lt (by omega) (by omega)]

end Circular
