import LockFreeCore.Model.CPacket
import Mathlib.Tactic.Ring

/-! # What a packet gives back

Writing appends the little-endian bytes of each value. Reading a type of `n` bytes takes the first
`n` payload bytes, but moves the rest by `n - HEADER_SIZE` places only, so the next read starts in
the wrong place. A list of values comes back exactly when each byte of it equals the byte that the
reads before it leave in its place.
-/

namespace LockFreeCore.CPacket

variable {packet : CPacket} {vs : List Value}

/-- The bytes that a list of values occupies. -/
def payload (vs : List Value) : List UInt8 := vs.flatMap fun v => LittleEndian.store v.data

/-- The memory of a fresh packet after the values are written. -/
def written (allocated : ℤ → UInt8) (vs : List Value) : ℤ → UInt8 :=
  Circular.write allocated HEADER_SIZE (payload vs)

/-- The cell that a read of a type of `n` bytes copies to cell `q`. -/
def shifted (n : ℕ) (q : ℤ) : ℤ := if q < HEADER_SIZE then q else q + n - HEADER_SIZE

/-- The cell of the written packet that stands in cell `q` after values of the given types are read. -/
def origin (before : List Ty) (q : ℤ) : ℤ := before.foldr (fun ty => shifted (sizeof ty)) q

/-- Every byte of every value equals the byte the reads before it leave in its place. -/
def Unshifted (cells : ℤ → UInt8) (vs : List Value) : Prop :=
  ∀ k (bound : k < vs.length), ∀ i < sizeof vs[k].ty,
    (LittleEndian.store vs[k].data)[i]? = some (cells (origin ((vs.take k).map Value.ty) (HEADER_SIZE + i)))

@[simp] theorem payload_nil : payload [] = [] := rfl

@[simp] theorem payload_cons (v : Value) : payload (v :: vs) = LittleEndian.store v.data ++ payload vs := rfl

theorem length_payload_cons (v : Value) :
    (payload (v :: vs)).length = sizeof v.ty + (payload vs).length := by simp

theorem put_eq (v : Value) : packet.put v = packet.insert (sizeof v.ty) v.data := by
  obtain ⟨ty, data⟩ := v
  cases ty <;> rfl

theorem get_eq (v : Value) :
    packet.get v = (packet.extract (sizeof v.ty) v.data).map fun out => (⟨v.ty, out.1⟩, out.2) := by
  obtain ⟨ty, data⟩ := v
  cases ty <;> rfl

theorem size_t_of_nonneg {x : ℤ} (nonneg : 0 ≤ x) : size_t x = x := if_neg (by omega)

/-- A value that fits is appended at the cursor. -/
theorem insert_eq {n : ℕ} (data : BitVec (8 * n)) (cursor : 0 ≤ packet.m_curSize)
    (fits : packet.m_curSize + n ≤ packet.m_size) : packet.insert n data =
      ⟨packet.m_size, packet.m_curSize + n,
        Circular.write packet.m_buffer packet.m_curSize (LittleEndian.store data)⟩ := by
  rw [insert, size_t_of_nonneg (by omega), size_t_of_nonneg (by omega), if_pos fits]
  rfl

/-- Values that fit are appended one after another. -/
theorem putAll_eq (cursor : 0 ≤ packet.m_curSize)
    (fits : packet.m_curSize + (payload vs).length ≤ packet.m_size) : packet.putAll vs =
      ⟨packet.m_size, packet.m_curSize + (payload vs).length,
        Circular.write packet.m_buffer packet.m_curSize (payload vs)⟩ := by
  induction vs generalizing packet with
  | nil =>
    have none (cells : ℤ → UInt8) (start : ℤ) : Circular.write cells start [] = cells := by
      funext q
      simp [Circular.write]
    simp [putAll, none]
  | cons v rest ih =>
    have width : (payload (v :: rest)).length = sizeof v.ty + (payload rest).length :=
      length_payload_cons v
    have step : packet.putAll (v :: rest) = (packet.put v).putAll rest := rfl
    rw [step, put_eq, insert_eq v.data cursor (by omega), ih (by simp only; omega) (by simp only; omega),
      payload_cons, Circular.write_append, List.length_append, LittleEndian.length_store]
    push_cast
    rw [add_assoc]

/-- A read that finds its type takes the first bytes and shifts the rest. -/
theorem extract_eq (packet : CPacket) {n : ℕ} (data : BitVec (8 * n)) (stored : HEADER_SIZE + n ≤ packet.m_curSize) :
    ∃ cells, packet.extract n data =
        some (LittleEndian.load n (Circular.linear packet.m_buffer HEADER_SIZE n),
          ⟨packet.m_size, packet.m_curSize - n, cells⟩) ∧
      ∀ q < packet.m_curSize, cells q = packet.m_buffer (shifted n q) := by
  have header : HEADER_SIZE = 2 := rfl
  obtain ⟨rest, remaining⟩ := Int.eq_ofNat_of_zero_le (show 0 ≤ packet.m_curSize - HEADER_SIZE by omega)
  refine ⟨Circular.write packet.m_buffer HEADER_SIZE (Circular.linear packet.m_buffer n rest), ?_, ?_⟩
  · have out : packet.copyOut HEADER_SIZE n = some (Circular.linear packet.m_buffer HEADER_SIZE n) :=
      if_pos (by omega)
    have within : packet.copyOut n rest = some (Circular.linear packet.m_buffer n rest) :=
      if_pos (by omega)
    rw [extract, size_t_of_nonneg (by omega), if_pos (by omega), out, Option.bind_some, copyWithin,
      remaining, within]
    rfl
  · intro q below
    by_cases front : q < HEADER_SIZE
    · rw [Circular.write_of_lt front, shifted, if_pos front]
    · obtain ⟨i, place⟩ := Int.eq_ofNat_of_zero_le (show 0 ≤ q - HEADER_SIZE by omega)
      have bound : i < (Circular.linear packet.m_buffer n rest).length := by
        rw [Circular.length_linear]
        omega
      rw [show q = HEADER_SIZE + i by omega, Circular.write_at bound, shifted, if_neg (by omega)]
      simp only [Circular.linear, List.getElem_map, List.getElem_range]
      congr 1
      ring

/-- A word is read back exactly when its bytes are found one by one. -/
theorem load_linear_iff {n : ℕ} {cells : ℤ → UInt8} {start : ℤ} {data : BitVec (8 * n)} :
    LittleEndian.load n (Circular.linear cells start n) = data ↔
      ∀ i < n, (LittleEndian.store data)[i]? = some (cells (start + i)) := by
  rw [LittleEndian.load_eq_iff Circular.length_linear]
  constructor
  · intro same i bound
    rw [← same]
    simp [Circular.linear, bound]
  · intro found
    apply List.ext_getElem?
    intro i
    by_cases bound : i < n
    · rw [found i bound]
      simp [Circular.linear, bound]
    · rw [List.getElem?_eq_none (by simpa using Nat.le_of_not_lt bound),
        List.getElem?_eq_none (by simpa using Nat.le_of_not_lt bound)]

/-- A further read moves the origin of every later one. -/
theorem unshifted_cons {cells : ℤ → UInt8} {v : Value} : Unshifted cells (v :: vs) ↔
    (∀ i < sizeof v.ty, (LittleEndian.store v.data)[i]? = some (cells (HEADER_SIZE + i))) ∧
      Unshifted (fun q => cells (shifted (sizeof v.ty) q)) vs := by
  constructor
  · intro held
    exact ⟨fun i bound => held 0 (by simp) i bound, fun k bound => held (k + 1) (by simpa using bound)⟩
  · rintro ⟨first, later⟩ k bound
    cases k with
    | zero => exact first
    | succ k => exact later k (by simpa using bound)

/-- Reading the types that were written never fails; it empties the payload, and it gives the values
back exactly when their bytes are where the reads look for them. -/
theorem getAll_eq (packet : CPacket) {cells : ℤ → UInt8} {targets : List Value}
    (same : targets.map Value.ty = vs.map Value.ty)
    (stored : HEADER_SIZE + (payload vs).length ≤ packet.m_curSize)
    (agree : ∀ q < packet.m_curSize, packet.m_buffer q = cells q) :
    ∃ values left, packet.getAll targets = some (values, left) ∧
      left.m_curSize = packet.m_curSize - (payload vs).length ∧ (values = vs ↔ Unshifted cells vs) := by
  induction vs generalizing packet cells targets with
  | nil =>
    obtain rfl : targets = [] := by simpa using same
    exact ⟨[], packet, rfl, by simp, by simp [Unshifted]⟩
  | cons v rest ih =>
    obtain ⟨target, others, rfl⟩ : ∃ target others, targets = target :: others := by
      cases targets with
      | nil => simp at same
      | cons target others => exact ⟨target, others, rfl⟩
    obtain ⟨type, tail⟩ : target.ty = v.ty ∧ others.map Value.ty = rest.map Value.ty := by simpa using same
    obtain ⟨ty, old⟩ := target
    obtain ⟨_, data⟩ := v
    subst type
    rw [length_payload_cons] at stored ⊢
    push_cast at stored ⊢
    have header : HEADER_SIZE = 2 := rfl
    obtain ⟨moved, took, shift⟩ := extract_eq packet old (by omega)
    have agree' : ∀ q < packet.m_curSize - sizeof ty, moved q = cells (shifted (sizeof ty) q) := by
      intro q below
      rw [shift q (by omega), agree]
      rw [shifted]
      split_ifs <;> omega
    obtain ⟨values, left, read, cursor, exact⟩ := ih
      ⟨packet.m_size, packet.m_curSize - sizeof ty, moved⟩ tail (by simp only; omega) agree'
    refine ⟨⟨ty, LittleEndian.load (sizeof ty) (Circular.linear packet.m_buffer HEADER_SIZE (sizeof ty))⟩ ::
      values, left, ?_, by simp only at cursor; omega, ?_⟩
    · rw [getAll, get_eq, took, Option.map_some, Option.bind_some]
      exact congrArg (Option.map _) read
    · have first : Circular.linear packet.m_buffer HEADER_SIZE (sizeof ty) =
          Circular.linear cells HEADER_SIZE (sizeof ty) :=
        Circular.linear_congr fun i bound => agree _ (by omega)
      rw [unshifted_cons, List.cons_eq_cons, exact, first, ← load_linear_iff]
      simp

/-- Reading back what was written gives the values and an empty payload exactly when every byte of
every value equals the byte that the reads before it leave in its place. -/
theorem round_trip_iff (size : ℤ) (allocated : ℤ → UInt8) (vs targets : List Value)
    (fits : HEADER_SIZE + (payload vs).length ≤ size) (same : targets.map Value.ty = vs.map Value.ty) :
    (∃ left, ((ofSize size allocated).putAll vs).getAll targets = some (vs, left) ∧
      left.getUseSize = 0) ↔ Unshifted (written allocated vs) vs := by
  have full : (ofSize size allocated).putAll vs =
      ⟨size, HEADER_SIZE + (payload vs).length, written allocated vs⟩ :=
    putAll_eq (show (0 : ℤ) ≤ 2 by decide) fits
  have agree : ∀ q < ((ofSize size allocated).putAll vs).m_curSize,
      ((ofSize size allocated).putAll vs).m_buffer q = written allocated vs q := by
    rw [full]
    exact fun _ _ => rfl
  obtain ⟨values, left, read, cursor, exact⟩ :=
    getAll_eq ((ofSize size allocated).putAll vs) same (by rw [full]) agree
  have emptied : left.getUseSize = 0 := by
    rw [getUseSize, cursor, full]
    simp
  rw [← exact, read]
  constructor
  · rintro ⟨_, same, _⟩
    exact congrArg Prod.fst (Option.some.inj same)
  · rintro rfl
    exact ⟨left, rfl, emptied⟩

/-- Two values whose bytes repeat come back. -/
theorem round_trip_repeating :
    let vs : List Value := [⟨.WORD, 0x0707#16⟩, ⟨.short, 0x0707#16⟩]
    let targets : List Value := [⟨.WORD, 0#16⟩, ⟨.short, 0#16⟩]
    ∃ left, ((ofSize 512 fun _ => 0).putAll vs).getAll targets = some (vs, left) ∧ left.getUseSize = 0 :=
  (round_trip_iff 512 (fun _ => 0) [⟨.WORD, 0x0707#16⟩, ⟨.short, 0x0707#16⟩] [⟨.WORD, 0#16⟩, ⟨.short, 0#16⟩]
    (by decide) rfl).mpr (by
      unfold Unshifted
      decide)

/-- Writing the words 1 and 2 and reading two words gives 1 and 1. -/
theorem second_word_lost :
    let vs : List Value := [⟨.WORD, 1#16⟩, ⟨.WORD, 2#16⟩]
    HEADER_SIZE + (payload vs).length ≤ 512 ∧
      ¬ ∃ left, ((ofSize 512 fun _ => 0).putAll vs).getAll [⟨.WORD, 0#16⟩, ⟨.WORD, 0#16⟩] =
        some (vs, left) ∧ left.getUseSize = 0 := by
  refine ⟨by decide, ?_⟩
  rintro ⟨left, read, -⟩
  have values : Option.map Prod.fst (((ofSize 512 fun _ => 0).putAll [⟨.WORD, 1#16⟩, ⟨.WORD, 2#16⟩]).getAll
      [⟨.WORD, 0#16⟩, ⟨.WORD, 0#16⟩]) = some [⟨.WORD, 1#16⟩, ⟨.WORD, 2#16⟩] :=
    congrArg (Option.map Prod.fst) read
  exact absurd values (by decide)

end LockFreeCore.CPacket
