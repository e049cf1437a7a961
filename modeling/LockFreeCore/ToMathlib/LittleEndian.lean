import Mathlib.Data.Nat.Digits.Defs

/-! # Little-endian words

A word of `n` bytes and its bytes in memory order, least significant first. The two directions are
inverse to each other at every width.
-/

namespace LittleEndian

/-- The first `n` bytes of a number. -/
def bytes : ℕ → ℕ → List UInt8
  | 0, _ => []
  | n + 1, value => UInt8.ofNat value :: bytes n (value / 256)

/-- The number that bytes stand for. -/
def value (stored : List UInt8) : ℕ := Nat.ofDigits 256 (stored.map UInt8.toNat)

/-- The bytes a word of `n` bytes occupies. -/
def store {n : ℕ} (word : BitVec (8 * n)) : List UInt8 := bytes n word.toNat

/-- The word of `n` bytes that bytes hold. -/
def load (n : ℕ) (stored : List UInt8) : BitVec (8 * n) := BitVec.ofNat (8 * n) (value stored)

@[simp] theorem length_bytes (n v : ℕ) : (bytes n v).length = n := by
  induction n generalizing v with
  | zero => rfl
  | succ n ih => rw [bytes, List.length_cons, ih]

@[simp] theorem length_store {n : ℕ} (word : BitVec (8 * n)) : (store word).length = n :=
  length_bytes n _

@[simp] theorem value_nil : value [] = 0 := rfl

theorem value_cons (byte : UInt8) (stored : List UInt8) :
    value (byte :: stored) = byte.toNat + 256 * value stored := Nat.ofDigits_cons

theorem value_lt (stored : List UInt8) : value stored < 256 ^ stored.length := by
  have digits : ∀ digit ∈ stored.map UInt8.toNat, digit < 256 := by
    intro digit member
    obtain ⟨byte, _, rfl⟩ := List.mem_map.mp member
    exact byte.toNat_lt
  simpa only [value, List.length_map] using Nat.ofDigits_lt_base_pow_length (by decide) digits

theorem value_bytes {n v : ℕ} (bound : v < 256 ^ n) : value (bytes n v) = v := by
  induction n generalizing v with
  | zero =>
    obtain rfl : v = 0 := by omega
    rfl
  | succ n ih =>
    have high : v / 256 < 256 ^ n := by
      rw [pow_succ] at bound
      omega
    rw [bytes, value_cons, ih high, UInt8.toNat_ofNat']
    omega

theorem bytes_value (stored : List UInt8) : bytes stored.length (value stored) = stored := by
  induction stored with
  | nil => rfl
  | cons byte rest ih =>
    have low : byte.toNat < 256 := byte.toNat_lt
    rw [List.length_cons, bytes, value_cons]
    congr 1
    · rw [← UInt8.toNat_inj, UInt8.toNat_ofNat']
      omega
    · rw [show (byte.toNat + 256 * value rest) / 256 = value rest by omega, ih]

@[simp] theorem load_store {n : ℕ} (word : BitVec (8 * n)) : load n (store word) = word := by
  have bound : word.toNat < 256 ^ n := by
    have := word.isLt
    rwa [pow_mul] at this
  rw [load, store, value_bytes bound, BitVec.ofNat_toNat, BitVec.setWidth_eq]

theorem store_injective {n : ℕ} : Function.Injective (store : BitVec (8 * n) → List UInt8) :=
  Function.LeftInverse.injective load_store

theorem store_load (stored : List UInt8) : store (load stored.length stored) = stored := by
  have bound : value stored < 2 ^ (8 * stored.length) := by
    rw [pow_mul]
    exact value_lt stored
  rw [store, load, BitVec.toNat_ofNat, Nat.mod_eq_of_lt bound, bytes_value]

/-- Bytes hold a word exactly when they are the bytes it occupies. -/
theorem load_eq_iff {n : ℕ} {stored : List UInt8} (width : stored.length = n) {word : BitVec (8 * n)} :
    load n stored = word ↔ stored = store word := by
  constructor
  · rintro rfl
    subst width
    exact (store_load stored).symm
  · rintro rfl
    exact load_store word

end LittleEndian
