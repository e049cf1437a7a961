import LockFreeCore.Proofs.CPacket
import Mathlib.Data.List.Forall2

/-! # Reads that a packet should refuse

The guard of `operator>>` counts the header as payload, so a type that is larger than the payload by no more
than the header is read all the same. And the shift of the payload starts at the size of the type: behind a byte
it begins in front of the payload, so the next read starts with a byte of the header. These are the only two ways
in which a sequence of reads leaves the payload.
-/

namespace LockFreeCore.CPacket

variable {packet : CPacket}

/-- A read whose guard passes takes the first bytes and lowers the cursor. -/
theorem extract_some {n : ℕ} (data : BitVec (8 * n)) (started : HEADER_SIZE ≤ packet.m_curSize)
    (passes : n ≤ packet.m_curSize) : ∃ cells, packet.extract n data =
      some (LittleEndian.load n (Circular.linear packet.m_buffer HEADER_SIZE n),
        ⟨packet.m_size, packet.m_curSize - n, cells⟩) := by
  have two : HEADER_SIZE = 2 := rfl
  have out : packet.copyOut HEADER_SIZE n = some (Circular.linear packet.m_buffer HEADER_SIZE n) := if_pos (by omega)
  have within : packet.copyOut n (packet.m_curSize - HEADER_SIZE) =
      some (Circular.linear packet.m_buffer n (packet.m_curSize - HEADER_SIZE).toNat) := if_pos (by omega)
  rw [extract, size_t_of_nonneg (by omega), if_pos passes, out, Option.bind_some, copyWithin, within]
  exact ⟨_, rfl⟩

/-- A read of more bytes than header and payload together changes nothing. -/
theorem get_refused (target : Value) (started : HEADER_SIZE ≤ packet.m_curSize)
    (short : packet.m_curSize < sizeof target.ty) : packet.get target = some (target, packet) := by
  have two : HEADER_SIZE = 2 := rfl
  rw [get_eq, extract, size_t_of_nonneg (by omega), if_neg (by omega)]
  rfl

theorem getUseSize_eq (packet : CPacket) : packet.getUseSize = packet.m_curSize - 2 := rfl

theorem sizeof_pos (ty : Ty) : 0 < sizeof ty := by cases ty <;> decide

/-- Reads into these variables return, leave variable and packet unchanged when the payload is too short, and never
make the payload size negative. -/
def Kept (packet : CPacket) : List Value → Prop
  | [] => 0 ≤ packet.getUseSize
  | target :: rest => 0 ≤ packet.getUseSize ∧ ∃ value next, packet.get target = some (value, next) ∧
      (packet.getUseSize < sizeof target.ty → value = target ∧ next = packet) ∧ next.Kept rest

/-- These values are the variables unchanged, or made of bytes of the payload. -/
def FromPayload (packet : CPacket) : List Value → List Value → Prop :=
  List.Forall₂ fun value target => value = target ∨
    ∀ byte ∈ LittleEndian.store value.data, ∃ q, HEADER_SIZE ≤ q ∧ q < packet.m_curSize ∧ byte = packet.m_buffer q

/-- A sequence of reads respects the payload: what it asks for in vain changes nothing, the values it gives are made
of the payload, and no byte outside the payload makes a difference to them. -/
structure Guarded (packet : CPacket) (targets : List Value) : Prop where
  kept : packet.Kept targets
  given : ∀ values left, packet.getAll targets = some (values, left) → packet.FromPayload values targets
  blind : ∀ cells : ℤ → UInt8, (∀ q, HEADER_SIZE ≤ q → q < packet.m_curSize → cells q = packet.m_buffer q) →
    (getAll ⟨packet.m_size, packet.m_curSize, cells⟩ targets).map Prod.fst = (packet.getAll targets).map Prod.fst

/-- None of the types is larger than what is left of the payload by no more than the header; a type that is not
larger takes its bytes. -/
def Apart : ℤ → List Ty → Prop
  | _, [] => True
  | left, ty :: rest =>
    if sizeof ty ≤ left then Apart (left - sizeof ty) rest else left + HEADER_SIZE < sizeof ty ∧ Apart left rest

/-- Behind a byte that is read every type is larger than what is left of the payload. -/
def ByteLast : ℤ → List Ty → Prop
  | _, [] => True
  | left, ty :: rest =>
    if sizeof ty ≤ left then
      (ty = .byte → ∀ later ∈ rest, left - 1 < sizeof later) ∧ ByteLast (left - sizeof ty) rest
    else ByteLast left rest

/-! ### What too short a payload leaves alone -/

/-- Nothing that is asked for in vain changes anything exactly when no type is larger than what is left by no more
than the header. -/
theorem kept_iff (packet : CPacket) (targets : List Value) (started : HEADER_SIZE ≤ packet.m_curSize) :
    packet.Kept targets ↔ Apart packet.getUseSize (targets.map Value.ty) := by
  have two : HEADER_SIZE = 2 := rfl
  induction targets generalizing packet with
  | nil =>
    have use := getUseSize_eq packet
    rw [Kept, List.map_nil, Apart]
    exact iff_of_true (by omega) trivial
  | cons target rest ih =>
    have use := getUseSize_eq packet
    rw [Kept, List.map_cons, Apart]
    by_cases refused : packet.m_curSize < sizeof target.ty
    · -- the guard refuses: variable and packet stay
      have unchanged := get_refused target started refused
      have larger : packet.getUseSize + HEADER_SIZE < sizeof target.ty := by omega
      rw [if_neg (by omega), and_iff_right larger]
      refine Iff.trans ?_ (ih packet started)
      constructor
      · rintro ⟨-, value, next, read, -, later⟩
        rw [unchanged] at read
        cases read
        exact later
      · exact fun later => ⟨by omega, target, packet, unchanged, fun _ => ⟨rfl, rfl⟩, later⟩
    · obtain ⟨cells, extracted⟩ := extract_some target.data started (by omega)
      have took : ∃ value, packet.get target =
          some (value, ⟨packet.m_size, packet.m_curSize - sizeof target.ty, cells⟩) := by
        rw [get_eq, extracted]
        exact ⟨_, rfl⟩
      obtain ⟨value, took⟩ := took
      by_cases whole : sizeof target.ty ≤ packet.getUseSize
      · -- the type is there
        have left : packet.getUseSize - sizeof target.ty =
            getUseSize ⟨packet.m_size, packet.m_curSize - sizeof target.ty, cells⟩ := by
          rw [getUseSize_eq, getUseSize_eq]
          dsimp only
          omega
        rw [if_pos whole, left]
        refine Iff.trans ?_ (ih ⟨packet.m_size, packet.m_curSize - sizeof target.ty, cells⟩ (by dsimp only; omega))
        constructor
        · rintro ⟨-, value, next, read, -, later⟩
          rw [took] at read
          cases read
          exact later
        · exact fun later => ⟨by omega, value, _, took, fun short => absurd whole (not_le.mpr short), later⟩
      · -- the guard passes, with too few bytes of payload
        rw [if_neg whole]
        refine iff_of_false ?_ fun larger => by omega
        rintro ⟨-, value, next, read, guarded, -⟩
        rw [took] at read
        cases read
        have same := congrArg m_curSize (guarded (not_le.mp whole)).2
        have positive := sizeof_pos target.ty
        dsimp only at same
        omega

/-! ### What the values are made of -/

/-- What reads into these variables give when this much of the payload is left in these cells: a type that is there
takes the first bytes and shifts the rest. -/
def reads (cells : ℤ → UInt8) : ℤ → List Value → List Value
  | _, [] => []
  | left, target :: rest =>
    if sizeof target.ty ≤ left then
      ⟨target.ty, LittleEndian.load (sizeof target.ty) (Circular.linear cells HEADER_SIZE (sizeof target.ty))⟩ ::
        reads (fun q => cells (shifted (sizeof target.ty) q)) (left - sizeof target.ty) rest
    else target :: reads cells left rest

theorem getAll_reads (packet : CPacket) {cells : ℤ → UInt8} {targets : List Value}
    (started : HEADER_SIZE ≤ packet.m_curSize) (apart : Apart packet.getUseSize (targets.map Value.ty))
    (agree : ∀ q < packet.m_curSize, packet.m_buffer q = cells q) :
    (packet.getAll targets).map Prod.fst = some (reads cells packet.getUseSize targets) := by
  have two : HEADER_SIZE = 2 := rfl
  induction targets generalizing packet cells with
  | nil => rfl
  | cons target rest ih =>
    have use := getUseSize_eq packet
    rw [List.map_cons, Apart] at apart
    rw [reads, getAll]
    split_ifs at apart ⊢ with whole
    · obtain ⟨moved, extracted, shift⟩ := extract_eq packet target.data (by omega)
      have left : packet.getUseSize - sizeof target.ty =
          getUseSize ⟨packet.m_size, packet.m_curSize - sizeof target.ty, moved⟩ := by
        rw [getUseSize_eq, getUseSize_eq]
        dsimp only
        omega
      have agree' : ∀ q < packet.m_curSize - sizeof target.ty, moved q = cells (shifted (sizeof target.ty) q) := by
        intro q below
        rw [shift q (by omega), agree]
        rw [shifted]
        split_ifs <;> omega
      have later := ih ⟨packet.m_size, packet.m_curSize - sizeof target.ty, moved⟩ (by dsimp only; omega)
        (left ▸ apart) agree'
      have first : Circular.linear packet.m_buffer HEADER_SIZE (sizeof target.ty) =
          Circular.linear cells HEADER_SIZE (sizeof target.ty) :=
        Circular.linear_congr fun i bound => agree _ (by omega)
      rw [get_eq, extracted, Option.map_some, Option.bind_some, left, first]
      dsimp only
      rw [Option.map_map, ← Option.map_some, ← later, Option.map_map]
      rfl
    · have later := ih packet started apart.2 agree
      rw [get_refused target started (by omega), Option.bind_some]
      dsimp only
      rw [Option.map_map, ← Option.map_some, ← later, Option.map_map]
      rfl

theorem reads_refused {cells : ℤ → UInt8} {left : ℤ} {targets : List Value}
    (short : ∀ ty ∈ targets.map Value.ty, left < sizeof ty) : reads cells left targets = targets := by
  induction targets with
  | nil => rfl
  | cons target rest ih =>
    rw [List.map_cons, List.forall_mem_cons] at short
    rw [reads, if_neg (not_le.mpr short.1), ih short.2]

/-- Behind a type that is no byte the payload keeps to the cells of the payload. -/
theorem shifted_mem {n : ℕ} (wide : 2 ≤ n) {left q : ℤ} (start : HEADER_SIZE ≤ q)
    (stop : q < HEADER_SIZE + (left - n)) :
    HEADER_SIZE ≤ shifted n q ∧ shifted n q < HEADER_SIZE + left := by
  have two : HEADER_SIZE = 2 := rfl
  rw [shifted, if_neg (by omega)]
  omega

theorem two_le_sizeof {ty : Ty} (other : ty ≠ .byte) : 2 ≤ sizeof ty := by
  cases ty <;> first | exact absurd rfl other | decide

theorem reads_congr {cells other : ℤ → UInt8} {left : ℤ} {targets : List Value}
    (last : ByteLast left (targets.map Value.ty))
    (agree : ∀ q, HEADER_SIZE ≤ q → q < HEADER_SIZE + left → cells q = other q) :
    reads cells left targets = reads other left targets := by
  induction targets generalizing cells other left with
  | nil => rfl
  | cons target rest ih =>
    rw [List.map_cons, ByteLast] at last
    rw [reads, reads]
    split_ifs at last ⊢ with whole
    · have first : Circular.linear cells HEADER_SIZE (sizeof target.ty) =
          Circular.linear other HEADER_SIZE (sizeof target.ty) :=
        Circular.linear_congr fun i bound => agree _ (by omega) (by omega)
      rw [first]
      by_cases byte : target.ty = .byte
      · have short : ∀ ty ∈ rest.map Value.ty, left - sizeof target.ty < sizeof ty := by
          rw [byte]
          exact last.1 byte
        rw [reads_refused short, reads_refused short]
      · rw [ih last.2 fun q start stop => ?_]
        have moved := shifted_mem (two_le_sizeof byte) start stop
        exact agree _ moved.1 moved.2
    · rw [ih last agree]

theorem reads_fromPayload {cells : ℤ → UInt8} {left : ℤ} {targets : List Value}
    (last : ByteLast left (targets.map Value.ty)) :
    List.Forall₂ (fun value target => value = target ∨ ∀ byte ∈ LittleEndian.store value.data,
      ∃ q, HEADER_SIZE ≤ q ∧ q < HEADER_SIZE + left ∧ byte = cells q) (reads cells left targets) targets := by
  induction targets generalizing cells left with
  | nil => exact .nil
  | cons target rest ih =>
    rw [List.map_cons, ByteLast] at last
    rw [reads]
    split_ifs at last ⊢ with whole
    · refine .cons (.inr fun byte member => ?_) ?_
      · rw [← (LittleEndian.load_eq_iff Circular.length_linear).mp rfl] at member
        obtain ⟨i, inside, rfl⟩ := List.mem_map.mp member
        have bound : i < sizeof target.ty := List.mem_range.mp inside
        exact ⟨HEADER_SIZE + i, by omega, by omega, rfl⟩
      · by_cases byte : target.ty = .byte
        · have short : ∀ ty ∈ rest.map Value.ty, left - sizeof target.ty < sizeof ty := by
            rw [byte]
            exact last.1 byte
          rw [reads_refused short]
          exact List.forall₂_same.mpr fun value _ => .inl rfl
        · refine (ih last.2).imp fun value target => Or.imp_right fun from_rest one member => ?_
          obtain ⟨q, start, stop, same⟩ := from_rest one member
          have moved := shifted_mem (two_le_sizeof byte) start stop
          exact ⟨_, moved.1, moved.2, same⟩
    · exact .cons (.inl rfl) (ih last)

/-- Where the first byte makes no difference, nothing is read. -/
theorem short_of_reads_eq {cells other : ℤ → UInt8} {left : ℤ} {targets : List Value}
    (differ : cells HEADER_SIZE ≠ other HEADER_SIZE) (same : reads cells left targets = reads other left targets) :
    ∀ ty ∈ targets.map Value.ty, left < sizeof ty := by
  induction targets with
  | nil => exact List.forall_mem_nil _
  | cons target rest ih =>
    rw [reads, reads] at same
    rw [List.map_cons, List.forall_mem_cons]
    split_ifs at same with whole
    · have loaded := (List.cons.inj same).1
      simp only [Value.mk.injEq, heq_eq_eq, true_and] at loaded
      have bytes := ((LittleEndian.load_eq_iff Circular.length_linear).mp loaded).trans
        ((LittleEndian.load_eq_iff Circular.length_linear).mp rfl).symm
      have first := congrArg (fun list => list[0]?) bytes
      simp only [Circular.linear, List.getElem?_map, List.getElem?_range (sizeof_pos target.ty), Option.map_some,
        Nat.cast_zero, add_zero, Option.some.injEq] at first
      exact absurd first differ
    · exact ⟨not_le.mp whole, ih (List.cons.inj same).2⟩

/-- Where the byte in front of the payload makes no difference, nothing is read behind a byte. -/
theorem byteLast_of_reads_eq {cells other : ℤ → UInt8} {left : ℤ} {targets : List Value}
    (differ : cells 1 ≠ other 1) (same : reads cells left targets = reads other left targets) :
    ByteLast left (targets.map Value.ty) := by
  induction targets generalizing cells other left with
  | nil => trivial
  | cons target rest ih =>
    rw [reads, reads] at same
    rw [List.map_cons, ByteLast]
    split_ifs at same ⊢ with whole
    · have later := (List.cons.inj same).2
      refine ⟨fun byte => ?_, ih ?_ later⟩
      · rw [byte] at later
        exact short_of_reads_eq (by simpa [shifted, HEADER_SIZE, sizeof] using differ) later
      · simpa [shifted, HEADER_SIZE] using differ
    · exact ih differ (List.cons.inj same).2

/-- The reads of a sequence respect the payload exactly when no type is larger than what is left of it by no more
than the header, and nothing that is there is read behind a byte. -/
theorem guarded_iff (packet : CPacket) (targets : List Value) (started : HEADER_SIZE ≤ packet.m_curSize) :
    packet.Guarded targets ↔ Apart packet.getUseSize (targets.map Value.ty) ∧
      ByteLast packet.getUseSize (targets.map Value.ty) := by
  have two : HEADER_SIZE = 2 := rfl
  have use := getUseSize_eq packet
  have same_reads (cells : ℤ → UInt8) (apart : Apart packet.getUseSize (targets.map Value.ty)) :
      (getAll ⟨packet.m_size, packet.m_curSize, cells⟩ targets).map Prod.fst =
        some (reads cells packet.getUseSize targets) :=
    getAll_reads ⟨packet.m_size, packet.m_curSize, cells⟩ started apart fun _ _ => rfl
  constructor
  · rintro ⟨kept, -, blind⟩
    have apart := (kept_iff packet targets started).mp kept
    refine ⟨apart, ?_⟩
    -- another byte in front of the payload
    have equal := blind (Function.update packet.m_buffer 1 (packet.m_buffer 1 + 1)) fun q start _ =>
      Function.update_of_ne (by omega) ..
    rw [same_reads _ apart, same_reads packet.m_buffer apart] at equal
    refine byteLast_of_reads_eq ?_ (Option.some.inj equal)
    rw [Function.update_self]
    exact fun same => absurd (UInt8.add_eq_left.mp same) (by decide)
  · rintro ⟨apart, last⟩
    refine ⟨(kept_iff packet targets started).mpr apart, fun values left read => ?_, fun cells agree => ?_⟩
    · have known := same_reads packet.m_buffer apart
      rw [read] at known
      obtain rfl := Option.some.inj known
      refine (reads_fromPayload last).imp fun value target => Or.imp_right fun from_payload byte member => ?_
      obtain ⟨q, start, stop, same⟩ := from_payload byte member
      exact ⟨q, start, by omega, same⟩
    · rw [same_reads cells apart, same_reads packet.m_buffer apart]
      exact congrArg some (reads_congr last fun q start stop => agree q start (by omega))

/-- A word and a byte are read, and a double word is refused behind them. -/
theorem guarded_word : Guarded ⟨5, 5, fun q => q.toNat.toUInt8⟩ [⟨.WORD, 0#16⟩, ⟨.byte, 0#8⟩, ⟨.DWORD, 0#32⟩] := by
  refine (guarded_iff ⟨5, 5, fun q => q.toNat.toUInt8⟩ [⟨.WORD, 0#16⟩, ⟨.byte, 0#8⟩, ⟨.DWORD, 0#32⟩]
    (by decide)).mpr ⟨?_, ?_⟩
  · simp [Apart, sizeof, getUseSize, HEADER_SIZE]
  · simp [ByteLast, sizeof, getUseSize, HEADER_SIZE]

/-- Reading a byte from a packet without payload makes the payload size -1, and the second of two bytes read from a
payload of two is a byte of the header. -/
theorem reads_leave_payload :
    (((ofSize 2 fun _ => 0).get ⟨.byte, 0#8⟩).map (fun out => out.2.getUseSize) = some (-1) ∧
      ¬Guarded (ofSize 2 fun _ => 0) [⟨.byte, 0#8⟩]) ∧
    ((getAll ⟨4, 4, fun q => q.toNat.toUInt8⟩ [⟨.byte, 0#8⟩, ⟨.byte, 0#8⟩]).map Prod.fst =
        some [⟨.byte, 2#8⟩, ⟨.byte, 1#8⟩] ∧
      ¬Guarded ⟨4, 4, fun q => q.toNat.toUInt8⟩ [⟨.byte, 0#8⟩, ⟨.byte, 0#8⟩]) := by
  refine ⟨⟨by decide, fun guarded => ?_⟩, by decide, fun guarded => ?_⟩
  · obtain ⟨-, value, next, read, unchanged, -⟩ := guarded.kept
    have below : ((ofSize 2 fun _ => 0).get ⟨.byte, 0#8⟩).map (fun out => out.2.getUseSize) = some (-1) := by
      decide
    have other : some (getUseSize (ofSize 2 fun _ => 0)) ≠ some (-1) := by decide
    rw [read, Option.map_some, (unchanged (by decide)).2] at below
    exact other below
  · have equal := guarded.blind (fun q => if q = 1 then 9 else q.toNat.toUInt8) fun q start _ =>
      if_neg (by have two : HEADER_SIZE = 2 := rfl; omega)
    exact absurd equal (by decide)

end LockFreeCore.CPacket
