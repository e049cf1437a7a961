import LockFreeCore.Proofs.CPacket

/-! # Reads that leave the allocation

The shift of `operator>>` starts at the size of the type instead of behind the bytes read, so it ends that much
further back, and stays inside the allocation only when the reads before it have made room. `getData` has the same
copies behind a guard that wants room.
-/

namespace LockFreeCore.CPacket

variable {packet : CPacket}

/-- The checks do not change what a read does. -/
theorem extractInside_eq {n : ℕ} {data : BitVec (8 * n)} {out : BitVec (8 * n) × CPacket}
    (read : packet.extractInside n data = some out) : packet.extract n data = some out := by
  have copied {source size : ℤ} {bytes : List UInt8} (inside : packet.copyOutInside source size = some bytes) :
      packet.copyOut source size = some bytes := by
    rw [copyOutInside] at inside
    split_ifs at inside
    exact inside
  have moved {target source size : ℤ} {after : CPacket}
      (inside : packet.copyWithinInside target source size = some after) :
      packet.copyWithin target source size = some after := by
    rw [copyWithinInside] at inside
    split_ifs at inside
    obtain ⟨bytes, from_source, rfl⟩ := Option.map_eq_some_iff.mp inside
    rw [copyWithin, copied from_source]
    rfl
  rw [extractInside] at read
  rw [extract]
  split_ifs at read ⊢ with passes
  · obtain ⟨bytes, first, rest⟩ := Option.bind_eq_some_iff.mp read
    obtain ⟨after, shift, rfl⟩ := Option.map_eq_some_iff.mp rest
    rw [copied first, Option.bind_some, moved shift]
    rfl
  · exact read

theorem getAllInside_eq {targets values : List Value} {left : CPacket}
    (read : packet.getAllInside targets = some (values, left)) : packet.getAll targets = some (values, left) := by
  induction targets generalizing packet values with
  | nil => exact read
  | cons target rest ih =>
    obtain ⟨⟨data, next⟩, first, others⟩ := Option.bind_eq_some_iff.mp read
    obtain ⟨⟨after, last⟩, later, same⟩ := Option.map_eq_some_iff.mp others
    obtain ⟨rfl, rfl⟩ := Prod.mk.inj same
    rw [getAll, get_eq, extractInside_eq first, Option.map_some, Option.bind_some]
    dsimp only
    rw [ih later]
    rfl

/-- A read of a type that is there stays inside the allocation exactly when the shift ends inside it. -/
theorem extractInside_some {n : ℕ} (data : BitVec (8 * n)) (positive : 0 < n) (full : packet.m_curSize ≤ packet.m_size)
    (stored : HEADER_SIZE + n ≤ packet.m_curSize) :
    (packet.m_curSize + n ≤ HEADER_SIZE + packet.m_size → ∃ out cells, packet.extractInside n data =
      some (out, ⟨packet.m_size, packet.m_curSize - n, cells⟩)) ∧
    (HEADER_SIZE + packet.m_size < packet.m_curSize + n → packet.extractInside n data = none) := by
  have two : HEADER_SIZE = 2 := rfl
  have out : packet.copyOutInside HEADER_SIZE n = some (Circular.linear packet.m_buffer HEADER_SIZE n) := by
    rw [copyOutInside, if_pos (.inr ⟨by omega, by omega⟩), copyOut, if_pos (by omega)]
    rfl
  have target : packet.Inside HEADER_SIZE (packet.m_curSize - HEADER_SIZE) := .inr ⟨by omega, by omega⟩
  rw [extractInside, size_t_of_nonneg (by omega), if_pos (by omega), out, Option.bind_some, copyWithinInside,
    if_pos target]
  constructor
  · intro room
    have source : packet.Inside n (packet.m_curSize - HEADER_SIZE) := .inr ⟨by omega, by omega⟩
    rw [copyOutInside, if_pos source, copyOut, if_pos (by omega)]
    exact ⟨_, _, rfl⟩
  · intro leaves
    have source : ¬packet.Inside n (packet.m_curSize - HEADER_SIZE) := by
      rw [Inside]
      omega
    rw [copyOutInside, if_neg source]
    rfl

/-- The room that a packet has behind its payload counts like types read before. -/
theorem getAllInside_isSome (packet : CPacket) (targets : List Value) (full : packet.m_curSize ≤ packet.m_size)
    (found : (payload targets).length ≤ packet.getUseSize) :
    (packet.getAllInside targets).isSome ↔ ∀ k (bound : k < targets.length),
      sizeof targets[k].ty ≤ HEADER_SIZE + (packet.m_size - packet.m_curSize) + (payload (targets.take k)).length := by
  have two : HEADER_SIZE = 2 := rfl
  induction targets generalizing packet with
  | nil => exact iff_of_true rfl fun k bound => absurd bound (Nat.not_lt_zero k)
  | cons target rest ih =>
    have use : packet.getUseSize = packet.m_curSize - 2 := rfl
    have positive : 0 < sizeof target.ty := by cases target.ty <;> decide
    rw [length_payload_cons] at found
    obtain ⟨stays, leaves⟩ := extractInside_some target.data positive full (by omega)
    rw [getAllInside]
    by_cases room : packet.m_curSize + sizeof target.ty ≤ HEADER_SIZE + packet.m_size
    · obtain ⟨out, cells, read⟩ := stays room
      have later := ih ⟨packet.m_size, packet.m_curSize - sizeof target.ty, cells⟩ (by dsimp only; omega)
        (by rw [getUseSize]; dsimp only; omega)
      dsimp only at later
      rw [read, Option.bind_some, Option.isSome_map]
      refine later.trans ?_
      constructor
      · intro each k bound
        cases k with
        | zero =>
          rw [List.getElem_cons_zero, List.take_zero, payload_nil, List.length_nil]
          omega
        | succ k =>
          have here := each k (Nat.lt_of_succ_lt_succ bound)
          rw [List.getElem_cons_succ, List.take_succ_cons, length_payload_cons]
          omega
      · intro each k bound
        have here := each (k + 1) (Nat.succ_lt_succ bound)
        rw [List.getElem_cons_succ, List.take_succ_cons, length_payload_cons] at here
        omega
    · rw [leaves (by omega)]
      refine iff_of_false (by simp) fun each => ?_
      have first := each 0 (Nat.succ_pos _)
      rw [List.getElem_cons_zero, List.take_zero, payload_nil, List.length_nil] at first
      omega

/-- The reads of a packet that fills its allocation, each of a type that is there, stay inside the allocation exactly
when each type is at most the header larger than the ones read before it together. -/
theorem getAllInside_iff (packet : CPacket) (targets : List Value) (full : packet.m_curSize = packet.m_size)
    (found : (payload targets).length ≤ packet.getUseSize) :
    (packet.getAllInside targets).isSome ↔ ∀ k (bound : k < targets.length),
      sizeof targets[k].ty ≤ HEADER_SIZE + (payload (targets.take k)).length := by
  have exact := getAllInside_isSome packet targets full.le found
  rwa [full, sub_self, add_zero] at exact

/-- Two words and a double word. -/
theorem getAllInside_words : ((⟨10, 10, fun _ => 7⟩ : CPacket).getAllInside [⟨.WORD, 0#16⟩, ⟨.WORD, 0#16⟩,
    ⟨.DWORD, 0#32⟩]).isSome := by
  refine (getAllInside_iff ⟨10, 10, fun _ => 7⟩ [⟨.WORD, 0#16⟩, ⟨.WORD, 0#16⟩, ⟨.DWORD, 0#32⟩] rfl (by decide)).mpr ?_
  decide

/-- The first read of an integer shifts two bytes from behind a received packet. -/
theorem getAllInside_int :
    let packet : CPacket := ⟨6, 6, fun _ => 7⟩
    packet.m_curSize = packet.m_size ∧ (payload [⟨.int, 0#32⟩]).length ≤ packet.getUseSize ∧
      packet.getAllInside [⟨.int, 0#32⟩] = none := by
  decide

/-- Successive `getData` calls give consecutive slices of these bytes, each lowering the payload size by its length. -/
def Slices (packet : CPacket) (bytes : List UInt8) : List ℕ → Prop
  | [] => True
  | size :: rest => ∃ next, packet.getData size = some (bytes.take size, next) ∧
      next.getUseSize = packet.getUseSize - size ∧ next.Slices (bytes.drop size) rest

/-- What slices give together. -/
theorem Slices.getDataAll {bytes : List UInt8} {sizes : List ℕ} (slices : packet.Slices bytes sizes) :
    ∃ parts left, packet.getDataAll sizes = some (parts, left) ∧ parts.flatten = bytes.take sizes.sum := by
  induction sizes generalizing packet bytes with
  | nil => exact ⟨[], packet, rfl, rfl⟩
  | cons size rest ih =>
    obtain ⟨next, read, -, later⟩ := slices
    obtain ⟨parts, left, others, flat⟩ := ih later
    refine ⟨bytes.take size :: parts, left, ?_, ?_⟩
    · rw [CPacket.getDataAll, read, Option.bind_some]
      dsimp only
      rw [others]
      rfl
    · rw [List.flatten_cons, flat, List.sum_cons, List.take_add]

/-- A packet that fills its allocation gives no data: its guard wants room behind the payload. -/
theorem slices_iff (packet : CPacket) {bytes : List UInt8} {sizes : List ℕ} (full : packet.m_curSize = packet.m_size)
    (started : HEADER_SIZE ≤ packet.m_curSize) (fits : sizes.sum ≤ bytes.length) :
    packet.Slices bytes sizes ↔ ∀ size ∈ sizes, size = 0 := by
  induction sizes generalizing packet with
  | nil => exact iff_of_true trivial (List.forall_mem_nil _)
  | cons size rest ih =>
    rw [List.sum_cons] at fits
    rw [Slices, List.forall_mem_cons]
    by_cases some : size = 0
    · subst some
      have out : packet.copyOut HEADER_SIZE (0 : ℕ) = Option.some [] := rfl
      have within : packet.copyOut (0 : ℕ) (packet.m_curSize - HEADER_SIZE) =
          Option.some (Circular.linear packet.m_buffer 0 (packet.m_curSize - HEADER_SIZE).toNat) :=
        if_pos (by omega)
      have read : packet.getData (0 : ℕ) = Option.some ([], (packet.copyIn HEADER_SIZE
          (Circular.linear packet.m_buffer 0 (packet.m_curSize - HEADER_SIZE).toNat)).setCur packet.m_curSize) := by
        rw [getData, if_pos (by rw [full]; simp), out, Option.bind_some, copyWithin, within]
        simp only [Option.map_some, Nat.cast_zero, sub_zero]
        rfl
      refine Iff.trans ?_ (((ih ((packet.copyIn HEADER_SIZE (Circular.linear packet.m_buffer 0
        (packet.m_curSize - HEADER_SIZE).toNat)).setCur packet.m_curSize) full started (by omega))).trans
          (and_iff_right rfl).symm)
      constructor
      · rintro ⟨next, taken, -, later⟩
        rw [read] at taken
        cases taken
        exact later
      · exact fun later => ⟨_, read, (sub_zero _).symm, later⟩
    · have refused : packet.getData size = Option.some ([], packet) := by
        rw [getData, if_neg (by omega)]
      refine iff_of_false ?_ fun all => some all.1
      rintro ⟨next, read, -⟩
      rw [refused] at read
      have empty := congrArg List.length (congrArg Prod.fst (Option.some.inj read))
      rw [List.length_take, List.length_nil] at empty
      omega

end LockFreeCore.CPacket
